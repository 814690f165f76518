import Xv6.Param

/-!
# Running commands (`runcmd` of `sh.c`)

`runcmd` is followed with the table of open descriptors of each process, which every child gets a copy of.
What is recorded is the table of each process that reaches `exec` or `wait`; the order in which the
events of different processes are listed has no meaning.  Opens, pipes, forks and `exec` succeed as
long as there is a free descriptor.
-/

namespace Xv6

namespace Sh

open Function List

/-- The redirections that `parseredirs` knows: `<`, `>` and `>>`. -/
inductive Redir
  | input
  | output
  | append

/-- The flags for `open`. -/
def Redir.mode : Redir → ℕ
  | .input => 0x000
  | .output => 0x601
  | .append => 0x201

/-- The descriptor that is redirected. -/
def Redir.fd : Redir → Fin NOFILE
  | .input => 0
  | .output | .append => 1

/-- `struct cmd`. -/
inductive Cmd
  | exec (argv : List String)
  | redir (cmd : Cmd) (file : String) (how : Redir)
  | pipe (left right : Cmd)
  | list (left right : Cmd)
  | back (cmd : Cmd)

/-- What a descriptor refers to.  A pipe is named by the place of its command in the tree. -/
inductive Obj
  | given (n : ℕ)
  | file (name : String) (mode : ℕ)
  | readEnd (place : List Bool)
  | writeEnd (place : List Bool)

/-- The open descriptors of a process. -/
abbrev Table := Fin NOFILE → Option Obj

/-- `fdalloc`: the lowest free descriptor. -/
def fdalloc (t : Table) (x : Obj) : Option (Fin NOFILE × Table) :=
  ((List.finRange NOFILE).find? fun fd => (t fd).isNone).map fun fd => (fd, update t fd (some x))

def close (t : Table) (fd : Fin NOFILE) : Table := update t fd none

/-- `dup`, whose result `runcmd` does not look at. -/
def dup (t : Table) (fd : Fin NOFILE) : Table := (((t fd).bind (fdalloc t)).map Prod.snd).getD t

/-- A side of a pipe with the ends `p0` and `p1` puts the end `own` in the place of `fd`. -/
def side (t : Table) (fd own p0 p1 : Fin NOFILE) : Table := close (close (dup (close t fd) own) p0) p1

/-- A process reaches `exec`, or `wait`. -/
inductive Event
  | exec (argv : List String) (t : Table)
  | wait (t : Table)

def Event.table : Event → Table
  | .exec _ t | .wait t => t

/-- What a process that runs a command, and its children, do. -/
def runcmd (t : Table) (place : List Bool) : Cmd → List Event
  | .exec argv => if argv = [] then [] else [.exec argv t]
  | .redir cmd file how =>
    match fdalloc (close t how.fd) (.file file how.mode) with
    | none => []
    | some (_, t) => runcmd t place cmd
  | .list left right => runcmd t (false :: place) left ++ .wait t :: runcmd t (true :: place) right
  | .pipe left right =>
    match fdalloc t (.readEnd place) with
    | none => []
    | some (p0, t) =>
      match fdalloc t (.writeEnd place) with
      | none => []
      | some (p1, t) =>
        runcmd (side t 1 p1 p0 p1) (false :: place) left ++ runcmd (side t 0 p0 p0 p1)
          (true :: place) right ++
          [.wait (close (close t p0) p1), .wait (close (close t p0) p1)]
  | .back cmd => runcmd t place cmd

/-! ### What the commands mean -/

/-- The table in which just the first three descriptors are open. -/
def std (a b c : Obj) (fd : Fin NOFILE) : Option Obj :=
  match fd.val with
  | 0 => some a
  | 1 => some b
  | 2 => some c
  | _ => none

/-- The events of a command whose input, output and error output are `a`, `b` and `c`. -/
def wired (a b c : Obj) (place : List Bool) : Cmd → List Event
  | .exec argv => if argv = [] then [] else [.exec argv (std a b c)]
  | .redir cmd file .input => wired (.file file Redir.input.mode) b c place cmd
  | .redir cmd file .output => wired a (.file file Redir.output.mode) c place cmd
  | .redir cmd file .append => wired a (.file file Redir.append.mode) c place cmd
  | .list left right =>
    wired a b c (false :: place) left ++ .wait (std a b c) :: wired a b c (true :: place) right
  | .pipe left right =>
    wired a (.writeEnd place) c (false :: place) left ++ wired (.readEnd place) b c (true :: place) right ++
      [.wait (std a b c), .wait (std a b c)]
  | .back cmd => wired a b c place cmd

variable (a b c x y : Obj)

theorem redir_input : fdalloc (close (std a b c) 0) x = some (0, std x b c) := by
  refine congrArg (fun t => some (0, t)) (funext fun fd => ?_)
  fin_cases fd <;> rfl

theorem redir_output : fdalloc (close (std a b c) 1) x = some (1, std a x c) := by
  refine congrArg (fun t => some (1, t)) (funext fun fd => ?_)
  fin_cases fd <;> rfl

theorem fdalloc_read : fdalloc (std a b c) x = some (3, update (std a b c) 3 (some x)) := rfl

theorem fdalloc_write : fdalloc (update (std a b c) 3 (some x)) y =
    some (4, update (update (std a b c) 3 (some x)) 4 (some y)) := rfl

/-- The tables of the two sides of the pipe and of their parent. -/
theorem pipe_tables {t : Table} (ht : t = update (update (std a b c) 3 (some x)) 4 (some y)) :
    side t 1 4 3 4 = std a y c ∧ side t 0 3 3 4 = std x b c ∧ close (close t 3) 4 = std a b c := by
  subst ht
  refine ⟨funext fun fd => ?_, funext fun fd => ?_, funext fun fd => ?_⟩ <;> fin_cases fd <;> rfl

theorem runcmd_eq (cmd : Cmd) (place : List Bool) : runcmd (std a b c) place cmd =
    wired a b c place cmd := by
  induction cmd generalizing a b c place with
  | exec argv => rfl
  | redir cmd file how ih =>
    rw [runcmd]
    cases how with
    | input => simp [Redir.fd, redir_input, wired, ih]
    | output => simp [Redir.fd, redir_output, wired, ih]
    | append => simp [Redir.fd, redir_output, wired, ih]
  | pipe left right ihl ihr =>
    rw [runcmd, fdalloc_read]
    dsimp only
    rw [fdalloc_write]
    dsimp only
    obtain ⟨hl, hr, hp⟩ := pipe_tables a b c (.readEnd place) (.writeEnd place) rfl
    rw [hl, hr, hp, ihl, ihr, wired]
  | list left right ihl ihr => rw [runcmd, ihl, ihr, wired]
  | back cmd ih => rw [runcmd, ih, wired]

theorem std_isSome (fd : Fin NOFILE) : (std a b c fd).isSome = true ↔ fd.val < 3 := by
  fin_cases fd <;> simp [std]

/-- Every table that is seen has just the first three descriptors. -/
theorem table_of_mem {cmd : Cmd} {place : List Bool} {ev : Event} (h : ev ∈ wired a b c place cmd) :
    ∃ a' b', ev.table = std a' b' c := by
  induction cmd generalizing a b place with
  | exec argv =>
    rw [wired] at h
    split_ifs at h
    · cases h
    · obtain rfl := mem_singleton.1 h
      exact ⟨a, b, rfl⟩
  | redir cmd file how ih => cases how <;> exact ih _ _ h
  | pipe left right ihl ihr =>
    rw [wired, mem_append, mem_append] at h
    rcases h with (h | h) | h
    · exact ihl _ _ h
    · exact ihr _ _ h
    · obtain rfl : ev = .wait (std a b c) := by simpa using h
      exact ⟨a, b, rfl⟩
  | list left right ihl ihr =>
    rw [wired, mem_append, mem_cons] at h
    rcases h with h | rfl | h
    · exact ihl _ _ h
    · exact ⟨a, b, rfl⟩
    · exact ihr _ _ h
  | back cmd ih => exact ih _ _ h

/-- **Pipelines are wired without leaks.**  A command that starts with three open descriptors runs as
`wired` says, and every process that reaches `exec` or `wait` has exactly these three open. -/
theorem runcmd_wired (cmd : Cmd) (place : List Bool) :
    runcmd (std a b c) place cmd = wired a b c place cmd ∧
    ∀ ev ∈ runcmd (std a b c) place cmd, ∀ fd, (ev.table fd).isSome = true ↔ fd.val < 3 := by
  refine ⟨runcmd_eq a b c cmd place, fun ev hev fd => ?_⟩
  rw [runcmd_eq] at hev
  obtain ⟨a', b', ht⟩ := table_of_mem a b c hev
  rw [ht, std_isSome]

end Sh

end Xv6
