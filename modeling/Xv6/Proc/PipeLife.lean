import Xv6.Lib.RefCount
import Xv6.Param

/-!
# The life of a pipe (`pipe.c`, `file.c`, `sysfile.c`)

Any processes make pipes, duplicate and close descriptors, fork, exit and are inside `piperead` and
`pipewrite`.  A step is a section under `ftable.lock`, with what the process does for itself before it;
the decrement of `fileclose` and its `pipeclose` are one step.  `sys_pipe` is taken apart into its
allocations, with the exits that each failure takes.

A reference to an entry of the file table is in `p->ofile[i]` or, while `sys_pipe` runs, in its local
variables `rf` and `wf`.

* `PipeLife.Sys`, `PipeLife.Step`: the file table, the pipes, the processes, and the steps;
* `PipeLife.Inv.fileclose`: what giving up a reference keeps;
* `PipeLife.reachable_life`: the ends of a pipe are open exactly while their entries have references, the
  page is freed once, when neither has, and nobody is inside a freed pipe.
-/

namespace Xv6

open Function

namespace PipeLife

open Stateful

/-- Where a reference is kept: in `p->ofile[i]`, or in `rf` (`false`) or `wf` (`true`) of `sys_pipe`. -/
abbrev Ref (P : Type) := P × (Fin NOFILE ⊕ Bool)

/-- `p->ofile[i]`. -/
abbrev ofile {P : Type} (p : P) (i : Fin NOFILE) : Ref P := (p, .inl i)

/-- The local variable `rf` or `wf`. -/
abbrev hand {P : Type} (p : P) (w : Bool) : Ref P := (p, .inr w)

/-- A pipe since it was made. -/
structure Pipe where
  readopen : Bool
  writeopen : Bool
  /-- How often its page has been given to `kfree`. -/
  kfrees : ℕ
  deriving DecidableEq

/-- Is an end open? -/
def Pipe.open (pi : Pipe) (w : Bool) : Bool := if w then pi.writeopen else pi.readopen

/-- `pipeclose`. -/
def Pipe.pipeclose (pi : Pipe) (writable : Bool) : Pipe :=
  let pi := if writable then { pi with writeopen := false } else { pi with readopen := false }
  if pi.readopen = false ∧ pi.writeopen = false then { pi with kfrees := pi.kfrees + 1 } else pi

/-- Where a process is. -/
inductive Pc (P : Type)
  | unused
  /-- Allocated by `fork`, and not yet runnable. -/
  | embryo
  /-- Outside these calls. -/
  | idle
  /-- `pipealloc`, before the first and the second `filealloc` and before `kalloc`. -/
  | alloc0
  | alloc1
  | kalloc
  /-- `sys_pipe`, before the first and the second `fdalloc` and before the calls of `copyout`. -/
  | fdalloc0
  | fdalloc1 (fd0 : Fin NOFILE)
  | copyout (fd0 fd1 : Fin NOFILE)
  /-- `pipealloc` or `sys_pipe`, closing what was allocated. -/
  | undo
  /-- `fork`, copying the descriptors to `q`. -/
  | fork (q : P)
  /-- `exit`, closing the descriptors. -/
  | exit
  /-- In `piperead` or `pipewrite` on pipe `i`, called with the entry `f`. -/
  | io (f : Fin NFILE) (i : ℕ) (w : Bool)
  deriving DecidableEq

/-- The file table, the pipes made so far and the processes. -/
structure Sys (P : Type) where
  ref : Fin NFILE → ℕ
  /-- The pipe of an entry of type `FD_PIPE`, and its `writable`. -/
  pipe : Fin NFILE → Option (ℕ × Bool)
  pipes : ℕ → Pipe
  made : ℕ
  held : Ref P → Option (Fin NFILE)
  pc : P → Pc P

variable {P : Type} [DecidableEq P]

namespace Sys

/-- Process `p` goes on at `k`. -/
def goto (s : Sys P) (p : P) (k : Pc P) : Sys P := { s with pc := update s.pc p k }

/-- `filealloc` and `filedup`: a reference to `f` is put in `r`. -/
def acquire (s : Sys P) (r : Ref P) (f : Fin NFILE) : Sys P :=
  { s with ref := update s.ref f (s.ref f + 1), held := update s.held r (some f) }

/-- The reference to `f` moves from `r` to `r'`. -/
def move (s : Sys P) (r r' : Ref P) (f : Fin NFILE) : Sys P :=
  { s with held := update (update s.held r none) r' (some f) }

/-- The part of `fileclose` for the last reference: the entry is free, and its pipe loses an end. -/
def free (s : Sys P) (f : Fin NFILE) : Sys P :=
  match s.pipe f with
  | none => s
  | some (i, w) =>
    { s with
      pipe := update s.pipe f none
      pipes := update s.pipes i ((s.pipes i).pipeclose w) }

/-- `fileclose` of the reference to `f` that is in `r`. -/
def fileclose (s : Sys P) (r : Ref P) (f : Fin NFILE) : Sys P :=
  let t := { s with
    ref := update s.ref f (s.ref f - 1), held := update s.held r none }
  if 0 < s.ref f - 1 then t else t.free f

/-- `pipealloc` sets up the pipe of `f0` and `f1`. -/
def mkpipe (s : Sys P) (f0 f1 : Fin NFILE) : Sys P :=
  { s with
    pipe := update (update s.pipe f0 (some (s.made, false))) f1 (some (s.made, true))
    pipes := update s.pipes s.made ⟨true, true, 0⟩
    made := s.made + 1 }

end Sys

/-- What a step does to a pipe's page, as far as it is of interest. -/
inductive Act
  | io (i : ℕ)
  | other

/-- One step. -/
inductive Step : Sys P → Act → Sys P → Prop
  -- `pipealloc`
  | pipe (s : Sys P) (p : P) (hp : s.pc p = .idle) : Step s .other (s.goto p .alloc0)
  | filealloc0 (s : Sys P) (p : P) (f : Fin NFILE) (hp : s.pc p = .alloc0) (hf : s.ref f = 0)
      (hh : ∀ w, s.held (hand p w) = none) :
      Step s .other ((s.acquire (hand p false) f).goto p .alloc1)
  | filealloc0Fails (s : Sys P) (p : P) (hp : s.pc p = .alloc0) (hf : ∀ f, s.ref f ≠ 0) :
      Step s .other (s.goto p .idle)
  | filealloc1 (s : Sys P) (p : P) (f : Fin NFILE) (hp : s.pc p = .alloc1) (hf : s.ref f = 0)
      (hh : s.held (hand p true) = none) :
      Step s .other ((s.acquire (hand p true) f).goto p .kalloc)
  | filealloc1Fails (s : Sys P) (p : P) (hp : s.pc p = .alloc1) (hf : ∀ f, s.ref f ≠ 0) :
      Step s .other (s.goto p .undo)
  | kalloc (s : Sys P) (p : P) (f0 f1 : Fin NFILE) (hp : s.pc p = .kalloc)
      (h0 : s.held (hand p false) = some f0) (h1 : s.held (hand p true) = some f1) :
      Step s .other ((s.mkpipe f0 f1).goto p .fdalloc0)
  | kallocFails (s : Sys P) (p : P) (hp : s.pc p = .kalloc) : Step s .other (s.goto p .undo)
  -- `sys_pipe`
  | fdalloc0 (s : Sys P) (p : P) (f : Fin NFILE) (fd : Fin NOFILE) (hp : s.pc p = .fdalloc0)
      (hh : s.held (hand p false) = some f) (hfd : s.held (ofile p fd) = none) :
      Step s .other ((s.move (hand p false) (ofile p fd) f).goto p (.fdalloc1 fd))
  | fdalloc0Fails (s : Sys P) (p : P) (hp : s.pc p = .fdalloc0) (hfd : ∀ fd, s.held (ofile p fd) ≠ none) :
      Step s .other (s.goto p .undo)
  | fdalloc1 (s : Sys P) (p : P) (f : Fin NFILE) (fd0 fd : Fin NOFILE) (hp : s.pc p = .fdalloc1 fd0)
      (hh : s.held (hand p true) = some f) (hfd : s.held (ofile p fd) = none) :
      Step s .other ((s.move (hand p true) (ofile p fd) f).goto p (.copyout fd0 fd))
  | fdalloc1Fails (s : Sys P) (p : P) (f : Fin NFILE) (fd0 : Fin NOFILE) (hp : s.pc p = .fdalloc1 fd0)
      (hfd : ∀ fd, s.held (ofile p fd) ≠ none) (h0 : s.held (ofile p fd0) = some f)
      (hh : s.held (hand p false) = none) :
      Step s .other ((s.move (ofile p fd0) (hand p false) f).goto p .undo)
  | copyout (s : Sys P) (p : P) (fd0 fd1 : Fin NOFILE) (hp : s.pc p = .copyout fd0 fd1) :
      Step s .other (s.goto p .idle)
  | copyoutFails (s : Sys P) (p : P) (f0 f1 : Fin NFILE) (fd0 fd1 : Fin NOFILE)
      (hp : s.pc p = .copyout fd0 fd1) (hne : fd0 ≠ fd1) (h0 : s.held (ofile p fd0) = some f0)
      (h1 : s.held (ofile p fd1) = some f1) (hh0 : s.held (hand p false) = none)
      (hh1 : s.held (hand p true) = none) :
      Step s .other (((s.move (ofile p fd0) (hand p false) f0).move (ofile p fd1) (hand p true)
        f1).goto p .undo)
  | undo (s : Sys P) (p : P) (w : Bool) (f : Fin NFILE) (hp : s.pc p = .undo)
      (hh : s.held (hand p w) = some f) (hw : w = true → s.held (hand p false) = none) :
      Step s .other (s.fileclose (hand p w) f)
  | undone (s : Sys P) (p : P) (hp : s.pc p = .undo) (hh : ∀ w, s.held (hand p w) = none) :
      Step s .other (s.goto p .idle)
  -- `sys_dup`, `sys_close`
  | dup (s : Sys P) (p : P) (f : Fin NFILE) (fd fd' : Fin NOFILE) (hp : s.pc p = .idle)
      (hf : s.held (ofile p fd) = some f) (hfd : s.held (ofile p fd') = none) :
      Step s .other (s.acquire (ofile p fd') f)
  | close (s : Sys P) (p : P) (f : Fin NFILE) (fd : Fin NOFILE) (hp : s.pc p = .idle)
      (hf : s.held (ofile p fd) = some f) : Step s .other (s.fileclose (ofile p fd) f)
  -- `fork`, `exit`
  | fork (s : Sys P) (p q : P) (hp : s.pc p = .idle) (hq : s.pc q = .unused) :
      Step s .other ((s.goto q .embryo).goto p (.fork q))
  | forkDup (s : Sys P) (p q : P) (f : Fin NFILE) (fd : Fin NOFILE) (hp : s.pc p = .fork q)
      (hf : s.held (ofile p fd) = some f) (hfd : s.held (ofile q fd) = none) :
      Step s .other (s.acquire (ofile q fd) f)
  | forkDone (s : Sys P) (p q : P) (hp : s.pc p = .fork q) (hq : s.pc q = .embryo) :
      Step s .other ((s.goto q .idle).goto p .idle)
  /-- `fork` fails before it copies a descriptor. -/
  | forkFails (s : Sys P) (p q : P) (hp : s.pc p = .fork q) (hq : s.pc q = .embryo)
      (hfd : ∀ fd, s.held (ofile q fd) = none) : Step s .other ((s.goto q .unused).goto p .idle)
  | exit (s : Sys P) (p : P) (hp : s.pc p = .idle) : Step s .other (s.goto p .exit)
  | exitClose (s : Sys P) (p : P) (f : Fin NFILE) (fd : Fin NOFILE) (hp : s.pc p = .exit)
      (hf : s.held (ofile p fd) = some f) : Step s .other (s.fileclose (ofile p fd) f)
  | exited (s : Sys P) (p : P) (hp : s.pc p = .exit) (hfd : ∀ fd, s.held (ofile p fd) = none) :
      Step s .other (s.goto p .unused)
  -- `piperead` and `pipewrite`
  | call (s : Sys P) (p : P) (f : Fin NFILE) (fd : Fin NOFILE) (i : ℕ) (w : Bool) (hp : s.pc p = .idle)
      (hf : s.held (ofile p fd) = some f) (hi : s.pipe f = some (i, w)) :
      Step s .other (s.goto p (.io f i w))
  /-- One of the steps inside, which look at or change the page. -/
  | io (s : Sys P) (p : P) (f : Fin NFILE) (i : ℕ) (w : Bool) (hp : s.pc p = .io f i w) :
      Step s (.io i) s
  | ret (s : Sys P) (p : P) (f : Fin NFILE) (i : ℕ) (w : Bool) (hp : s.pc p = .io f i w) :
      Step s .other (s.goto p .idle)

/-- One process, and nothing open. -/
def booted (init : P) : Sys P where
  ref _ := 0
  pipe _ := none
  pipes _ := ⟨false, false, 0⟩
  made := 0
  held _ := none
  pc p := if p = init then .idle else .unused

/-- The states of the runs. -/
inductive Reachable (init : P) : Sys P → Prop
  | boot : Reachable init (booted init)
  | step {s t : Sys P} {a : Act} (h : Reachable init s) (hst : Step s a t) : Reachable init t

theorem acquire_self (s : Sys P) (r : Ref P) (f : Fin NFILE) : (s.acquire r f).held r = some f :=
  update_self _ _ _

theorem move_self (s : Sys P) (r r' : Ref P) (f : Fin NFILE) : (s.move r r' f).held r' = some f :=
  update_self _ _ _

/-- `pipeclose` closes one end. -/
theorem open_pipeclose (pi : Pipe) (w w' : Bool) :
    (pi.pipeclose w).open w' = (!(w' == w) && pi.open w') := by
  obtain ⟨ro, wo, n⟩ := pi
  cases ro <;> cases wo <;> cases w <;> cases w' <;> rfl

/-- `pipeclose` frees the page when it closes the second end. -/
theorem kfrees_pipeclose (pi : Pipe) (w : Bool) :
    (pi.pipeclose w).kfrees = if pi.open (!w) then pi.kfrees else pi.kfrees + 1 := by
  obtain ⟨ro, wo, n⟩ := pi
  cases ro <;> cases wo <;> cases w <;> rfl

theorem open_or (pi : Pipe) (w : Bool) :
    (pi.readopen = true ∨ pi.writeopen = true) ↔ (pi.open w = true ∨ pi.open (!w) = true) := by
  cases w <;> simp [Pipe.open, or_comm]

/-! ### The invariant -/

/-- `pipealloc` holds entries that nothing else refers to yet. -/
def Pc.fresh : Pc P → Bool
  | .alloc1 | .kalloc => true
  | _ => false

/-- The entry is not a pipe yet, and `r` is the only reference to it. -/
def Sys.Sole (s : Sys P) (r : Ref P) (f : Fin NFILE) : Prop :=
  s.pipe f = none ∧ ∀ r', s.held r' = some f → r' = r

/-- The invariant. -/
structure Inv [Fintype P] (s : Sys P) : Prop where
  counted : Counted s.held s.ref
  typed : ∀ f i w, s.pipe f = some (i, w) → i < s.made ∧ 0 < s.ref f ∧ (s.pipes i).open w = true
  uniq : ∀ f f' x, s.pipe f = some x → s.pipe f' = some x → f = f'
  opened : ∀ i w, i < s.made → (s.pipes i).open w = true → ∃ f, s.pipe f = some (i, w)
  freed : ∀ i, i < s.made →
    (s.pipes i).kfrees = if (s.pipes i).readopen = true ∨ (s.pipes i).writeopen = true then 0 else 1
  io : ∀ p f i w, s.pc p = .io f i w → s.pipe f = some (i, w) ∧ ∃ fd, s.held (ofile p fd) = some f
  fresh : ∀ p w f, (s.pc p).fresh = true → s.held (hand p w) = some f → s.Sole (hand p w) f

variable [Fintype P] {s : Sys P}

theorem inv_booted (init : P) : Inv (booted init) where
  counted := Counted.of_none (fun _ => rfl) fun _ => rfl
  typed f i w h := by simp [booted] at h
  uniq f f' x h := by simp [booted] at h
  opened i w h := by simp [booted] at h
  freed i h := by simp [booted] at h
  io p f i w h := by
    simp only [booted] at h
    split at h <;> cases h
  fresh p w f _ h := by simp [booted] at h

namespace Inv

/-- A process goes on at a point that is not inside a pipe. -/
theorem goto (h : Inv s) {p : P} {k : Pc P} (hio : ∀ f i w, k ≠ .io f i w)
    (hfresh : k.fresh = true → ∀ w f, s.held (hand p w) = some f → s.Sole (hand p w) f) :
    Inv (s.goto p k) := by
  refine ⟨h.counted, h.typed, h.uniq, h.opened, h.freed, fun q f i w hq => ?_, fun q w f hq hf => ?_⟩
  · rcases eq_or_ne q p with rfl | hne
    · exact absurd ((update_self _ _ _).symm.trans hq) (hio f i w)
    · exact h.io q f i w ((update_of_ne hne _ _).symm.trans hq)
  · rcases eq_or_ne q p with rfl | hne
    · rw [show (s.goto q k).pc q = k from update_self _ _ _] at hq
      exact hfresh hq w f hf
    · rw [show (s.goto p k).pc q = s.pc q from update_of_ne hne _ _] at hq
      exact h.fresh q w f hq hf

omit [DecidableEq P] in
/-- An entry with no reference is not a pipe, and nobody refers to it. -/
theorem unused (h : Inv s) {f : Fin NFILE} (hf : s.ref f = 0) :
    s.pipe f = none ∧ ∀ r, s.held r ≠ some f := by
  refine ⟨?_, h.counted.ne_of_zero hf⟩
  by_contra hne
  obtain ⟨⟨i, w⟩, hi⟩ := Option.ne_none_iff_exists'.1 hne
  have := (h.typed f i w hi).2.1
  omega

/-- `filealloc`: the new reference is the only one. -/
theorem filealloc (h : Inv s) {r : Ref P} {f : Fin NFILE} (hf : s.ref f = 0) (hr : s.held r = none) :
    Inv (s.acquire r f) ∧ (s.acquire r f).Sole r f := by
  obtain ⟨hpipe, hnone⟩ := h.unused hf
  have hsole : (s.acquire r f).Sole r f := by
    refine ⟨hpipe, fun r' hr' => ?_⟩
    by_contra hne
    exact hnone r' ((update_of_ne hne _ _).symm.trans hr')
  have hold : ∀ {r' f'}, s.held r' = some f' → (s.acquire r f).held r' = some f' := by
    intro r' f' hr'
    have hne : r' ≠ r := by
      rintro rfl
      simp [hr] at hr'
    exact (update_of_ne hne _ _).trans hr'
  refine ⟨⟨h.counted.acquire hr f, fun f' i w hi => ?_, h.uniq, h.opened, h.freed, fun p f' i w hp => ?_,
    fun p w f' hp hf' => ?_⟩, hsole⟩
  · obtain ⟨hi', hpos, hopen⟩ := h.typed f' i w hi
    have hne : f' ≠ f := by
      rintro rfl
      omega
    exact ⟨hi', by rwa [show (s.acquire r f).ref f' = s.ref f' from update_of_ne hne _ _], hopen⟩
  · obtain ⟨hi, fd, hfd⟩ := h.io p f' i w hp
    exact ⟨hi, fd, hold hfd⟩
  · rcases eq_or_ne (hand p w) r with rfl | hne
    · obtain rfl : f = f' := Option.some.inj ((acquire_self s _ f).symm.trans hf')
      exact hsole
    · have hf'' : s.held (hand p w) = some f' := (update_of_ne hne _ _).symm.trans hf'
      obtain ⟨hpipe', hsole'⟩ := h.fresh p w f' hp hf''
      refine ⟨hpipe', fun r' hr' => ?_⟩
      rcases eq_or_ne r' r with rfl | hne'
      · obtain rfl : f = f' := Option.some.inj ((acquire_self s _ f).symm.trans hr')
        exact absurd hf'' (hnone _)
      · exact hsole' r' ((update_of_ne hne' _ _).symm.trans hr')

/-- `filedup`: a descriptor becomes another reference to an entry that a descriptor refers to. -/
theorem filedup (h : Inv s) {p q : P} {fd fd' : Fin NOFILE} {f : Fin NFILE}
    (hf : s.held (ofile p fd) = some f) (hfd : s.held (ofile q fd') = none) :
    Inv (s.acquire (ofile q fd') f) := by
  refine ⟨h.counted.acquire hfd f, fun f' i w hi => ?_, h.uniq, h.opened, h.freed, fun p' f' i w hp => ?_,
    fun p' w f' hp hf' => ?_⟩
  · obtain ⟨hi', hpos, hopen⟩ := h.typed f' i w hi
    refine ⟨hi', ?_, hopen⟩
    rcases eq_or_ne f' f with rfl | hne
    · rw [show (s.acquire (ofile q fd') f').ref f' = s.ref f' + 1 from update_self _ _ _]
      omega
    · rwa [show (s.acquire (ofile q fd') f).ref f' = s.ref f' from update_of_ne hne _ _]
  · obtain ⟨hi, fd₀, hfd₀⟩ := h.io p' f' i w hp
    have hne : ofile p' fd₀ ≠ ofile q fd' := by
      intro he
      simp [he, hfd] at hfd₀
    exact ⟨hi, fd₀, (update_of_ne hne _ _).trans hfd₀⟩
  · have hf'' : s.held (hand p' w) = some f' := (update_of_ne (by simp) _ _).symm.trans hf'
    obtain ⟨hpipe, hsole⟩ := h.fresh p' w f' hp hf''
    refine ⟨hpipe, fun r hr => ?_⟩
    rcases eq_or_ne r (ofile q fd') with rfl | hne
    · -- the entry of `p'` has no descriptor
      obtain rfl : f = f' := Option.some.inj ((acquire_self s _ f).symm.trans hr)
      exact absurd (hsole _ hf) (by simp)
    · exact hsole r ((update_of_ne hne _ _).symm.trans hr)

/-- A process that is neither inside a pipe nor in `pipealloc` moves a reference of its own. -/
theorem move (h : Inv s) {p : P} {x y : Fin NOFILE ⊕ Bool} {f : Fin NFILE}
    (hio : ∀ f i w, s.pc p ≠ .io f i w) (hfresh : (s.pc p).fresh = false)
    (hx : s.held (p, x) = some f) (hy : s.held (p, y) = none) : Inv (s.move (p, x) (p, y) f) := by
  have hother : ∀ {q z}, q ≠ p → (s.move (p, x) (p, y) f).held (q, z) = s.held (q, z) := by
    intro q z hne
    show update _ _ _ _ = _
    rw [update_of_ne (by simp [hne]), update_of_ne (by simp [hne])]
  refine ⟨h.counted.move hx hy, h.typed, h.uniq, h.opened, h.freed, fun q f' i w hq => ?_,
    fun q w f' hq hf' => ?_⟩
  · obtain ⟨hi, fd, hfd⟩ := h.io q f' i w hq
    have hne : q ≠ p := by
      rintro rfl
      exact hio f' i w hq
    exact ⟨hi, fd, (hother hne).trans hfd⟩
  · have hne : q ≠ p := by
      rintro rfl
      simp [show (s.move (q, x) (q, y) f).pc q = s.pc q from rfl, hfresh] at hq
    obtain ⟨hpipe, hsole⟩ := h.fresh q w f' hq ((hother hne).symm.trans hf')
    refine ⟨hpipe, fun r hr => ?_⟩
    rcases eq_or_ne r (p, y) with rfl | hry
    · obtain rfl : f = f' := Option.some.inj ((move_self s _ _ f).symm.trans hr)
      exact absurd (congrArg Prod.fst (hsole _ hx)) (Ne.symm hne)
    · have hr' : update s.held (p, x) none r = some f' :=
        (update_of_ne hry _ _).symm.trans hr
      rcases eq_or_ne r (p, x) with rfl | hrx
      · simp [update_self] at hr'
      · exact hsole r ((update_of_ne hrx _ _).symm.trans hr')

section Close

variable {f : Fin NFILE} {i : ℕ} {w : Bool}

omit [DecidableEq P] in
theorem typed_pipeclose (h : Inv s) (hpipe : s.pipe f = some (i, w)) {f' : Fin NFILE} {j : ℕ} {w' : Bool}
    (hj : update s.pipe f none f' = some (j, w')) : f' ≠ f ∧ s.pipe f' = some (j, w') ∧
      (update s.pipes i ((s.pipes i).pipeclose w) j).open w' = true := by
  have hne : f' ≠ f := by
    rintro rfl
    simp [update_self] at hj
  have hj' : s.pipe f' = some (j, w') := (update_of_ne hne _ _).symm.trans hj
  obtain ⟨-, -, hopen⟩ := h.typed f' j w' hj'
  refine ⟨hne, hj', ?_⟩
  rcases eq_or_ne j i with rfl | hji
  · -- the other end of the same pipe
    have hww : w' ≠ w := by
      rintro rfl
      exact hne (h.uniq f' f _ hj' hpipe)
    rw [update_self, open_pipeclose, hopen]
    simpa using hww
  · rwa [update_of_ne hji]

omit [DecidableEq P] in
theorem opened_pipeclose (h : Inv s) (hpipe : s.pipe f = some (i, w)) {j : ℕ} {w' : Bool} (hj : j < s.made)
    (hopen : (update s.pipes i ((s.pipes i).pipeclose w) j).open w' = true) :
    ∃ f', update s.pipe f none f' = some (j, w') := by
  rcases eq_or_ne j i with rfl | hji
  · rw [update_self, open_pipeclose, Bool.and_eq_true] at hopen
    obtain ⟨f', hf'⟩ := h.opened j w' hj hopen.2
    refine ⟨f', (update_of_ne ?_ _ _).trans hf'⟩
    rintro rfl
    rw [hpipe] at hf'
    cases hf'
    simp at hopen
  · rw [update_of_ne hji] at hopen
    obtain ⟨f', hf'⟩ := h.opened j w' hj hopen
    refine ⟨f', (update_of_ne ?_ _ _).trans hf'⟩
    rintro rfl
    rw [hpipe] at hf'
    cases hf'
    exact hji rfl

omit [DecidableEq P] in
theorem freed_pipeclose (h : Inv s) (hpipe : s.pipe f = some (i, w)) {j : ℕ} (hj : j < s.made) :
    let pi := update s.pipes i ((s.pipes i).pipeclose w) j
    pi.kfrees = if pi.readopen = true ∨ pi.writeopen = true then 0 else 1 := by
  rcases eq_or_ne j i with rfl | hji
  · obtain ⟨-, -, hopen⟩ := h.typed f j w hpipe
    have hfreed := h.freed j hj
    rw [if_pos ((open_or _ w).2 (.inl hopen))] at hfreed
    simp only [update_self, open_or _ w, open_pipeclose, kfrees_pipeclose, hfreed]
    cases w <;> simp
  · simp only [update_of_ne hji]
    exact h.freed j hj

end Close

/-- `fileclose`: a process that is neither inside a pipe nor in `pipealloc` gives up a reference. -/
theorem fileclose (h : Inv s) {p : P} {x : Fin NOFILE ⊕ Bool} {f : Fin NFILE}
    (hio : ∀ f i w, s.pc p ≠ .io f i w) (hfresh : (s.pc p).fresh = false)
    (hx : s.held (p, x) = some f) : Inv (s.fileclose (p, x) f) := by
  have hcount := h.counted.drop hx
  have hpos := h.counted.pos hx
  have hless : ∀ {r f'}, update s.held (p, x) none r = some f' → s.held r = some f' := by
    intro r f' hr
    have hne : r ≠ (p, x) := by
      rintro rfl
      simp [update_self] at hr
    exact (update_of_ne hne _ _).symm.trans hr
  have hother : ∀ {q z f'}, q ≠ p → s.held (q, z) = some f' →
      update s.held (p, x) none (q, z) = some f' := fun hne hz =>
    (update_of_ne (by simp [hne]) _ _).trans hz
  have hioq : ∀ {q f' i w}, s.pc q = .io f' i w → q ≠ p := by
    rintro q f' i w hq rfl
    exact hio f' i w hq
  have href : ∀ {f'}, f' ≠ f → update s.ref f (s.ref f - 1) f' = s.ref f' := fun hne =>
    update_of_ne hne _ _
  unfold Sys.fileclose
  split_ifs with hmore
  · -- other references are left
    refine ⟨hcount, fun f' i w hi => ?_, h.uniq, h.opened, h.freed, fun q f' i w hq => ?_,
      fun q w f' hq hf' => ?_⟩
    · obtain ⟨hi', hpos', hopen⟩ := h.typed f' i w hi
      refine ⟨hi', ?_, hopen⟩
      show 0 < update s.ref f (s.ref f - 1) f'
      rcases eq_or_ne f' f with rfl | hne
      · rwa [update_self]
      · rwa [href hne]
    · obtain ⟨hi, fd, hfd⟩ := h.io q f' i w hq
      exact ⟨hi, fd, hother (hioq hq) hfd⟩
    · obtain ⟨hpipe, hsole⟩ := h.fresh q w f' hq (hless hf')
      exact ⟨hpipe, fun r hr => hsole r (hless hr)⟩
  · -- the last reference: nobody refers to `f` any more
    have hzero : update s.ref f (s.ref f - 1) f = 0 := by
      rw [update_self]
      omega
    have hnobody := hcount.ne_of_zero hzero
    unfold Sys.free
    cases hpipe : s.pipe f with
    | none =>
      simp only [hpipe]
      refine ⟨hcount, fun f' i w hi => ?_, h.uniq, h.opened, h.freed, fun q f' i w hq => ?_,
        fun q w f' hq hf' => ?_⟩
      · have hne : f' ≠ f := by
          rintro rfl
          simp [show s.pipe f' = some (i, w) from hi] at hpipe
        obtain ⟨hi', hpos', hopen⟩ := h.typed f' i w hi
        exact ⟨hi', by simpa only [href hne] using hpos', hopen⟩
      · obtain ⟨hi, fd, hfd⟩ := h.io q f' i w hq
        exact ⟨hi, fd, hother (hioq hq) hfd⟩
      · obtain ⟨hp', hsole⟩ := h.fresh q w f' hq (hless hf')
        exact ⟨hp', fun r hr => hsole r (hless hr)⟩
    | some iw =>
      obtain ⟨i, w⟩ := iw
      simp only [hpipe]
      refine ⟨hcount, fun f' j w' hj => ?_, fun f₁ f₂ y h₁ h₂ => ?_,
        fun j w' hj hopen => h.opened_pipeclose hpipe hj hopen, fun j hj => h.freed_pipeclose hpipe hj,
        fun q f' j w' hq => ?_, fun q w' f' hq hf' => ?_⟩
      · obtain ⟨hne, hj', hopen⟩ := h.typed_pipeclose hpipe hj
        obtain ⟨hlt, hpos', -⟩ := h.typed f' j w' hj'
        exact ⟨hlt, by simpa only [href hne] using hpos', hopen⟩
      · exact h.uniq f₁ f₂ y (h.typed_pipeclose hpipe h₁).2.1 (h.typed_pipeclose hpipe h₂).2.1
      · obtain ⟨hj, fd, hfd⟩ := h.io q f' j w' hq
        have hfd' := hother (hioq hq) hfd
        have hne : f' ≠ f := by
          rintro rfl
          exact hnobody _ hfd'
        exact ⟨(update_of_ne hne _ _).trans hj, fd, hfd'⟩
      · obtain ⟨hp', hsole⟩ := h.fresh q w' f' hq (hless hf')
        have hne : f' ≠ f := by
          rintro rfl
          exact hnobody _ hf'
        exact ⟨(update_of_ne hne _ _).trans hp', fun r hr => hsole r (hless hr)⟩

/-- `pipealloc` has its page: the two entries become the ends of a new pipe. -/
theorem mkpipe (h : Inv s) {p : P} {f0 f1 : Fin NFILE} (hp : s.pc p = .kalloc)
    (h0 : s.held (hand p false) = some f0) (h1 : s.held (hand p true) = some f1) :
    Inv ((s.mkpipe f0 f1).goto p .fdalloc0) := by
  have hfresh : (s.pc p).fresh = true := by rw [hp]; rfl
  obtain ⟨hp0, hs0⟩ := h.fresh p false f0 hfresh h0
  obtain ⟨hp1, hs1⟩ := h.fresh p true f1 hfresh h1
  have hne : f0 ≠ f1 := by
    rintro rfl
    exact absurd (hs0 _ h1) (by simp)
  have hpipe : ∀ f, ((s.mkpipe f0 f1).goto p .fdalloc0).pipe f =
      if f = f1 then some (s.made, true) else if f = f0 then some (s.made, false) else s.pipe f := by
    intro f
    simp [Sys.mkpipe, Sys.goto, update_apply]
  have hold : ∀ {f x}, s.pipe f = some x → ((s.mkpipe f0 f1).goto p .fdalloc0).pipe f = some x := by
    intro f x hf
    rw [hpipe, if_neg, if_neg, hf]
    · rintro rfl
      simp [hp0] at hf
    · rintro rfl
      simp [hp1] at hf
  have hnew : ((s.mkpipe f0 f1).goto p .fdalloc0).pipes s.made = ⟨true, true, 0⟩ :=
    update_self _ _ _
  have hpipes : ∀ {i}, i < s.made → ((s.mkpipe f0 f1).goto p .fdalloc0).pipes i = s.pipes i := fun hi =>
    update_of_ne (by omega) _ _
  refine ⟨h.counted, fun f i w hi => ?_, fun f f' x hx hx' => ?_, fun i w hi hopen => ?_, fun i hi => ?_,
    fun q f i w hq => ?_, fun q w f hq hf => ?_⟩
  · rw [hpipe] at hi
    split_ifs at hi with hf1 hf0
    · cases hi
      subst hf1
      exact ⟨Nat.lt_succ_self _, h.counted.pos h1, by rw [hnew]; rfl⟩
    · cases hi
      subst hf0
      exact ⟨Nat.lt_succ_self _, h.counted.pos h0, by rw [hnew]; rfl⟩
    · obtain ⟨hlt, hpos, hopen⟩ := h.typed f i w hi
      exact ⟨Nat.lt_succ_of_lt hlt, hpos, by rwa [hpipes hlt]⟩
  · rw [hpipe] at hx hx'
    have hlt : ∀ {f w}, s.pipe f ≠ some (s.made, w) := fun {f w} hf =>
      absurd (h.typed f _ w hf).1 (lt_irrefl _)
    split_ifs at hx hx' with ha hb hc hd he hg
    · exact ha.trans hb.symm
    · exact absurd (hx.trans hx'.symm) (by simp)
    · exact absurd (hx'.trans hx.symm) hlt
    · exact absurd (hx.trans hx'.symm) (by simp)
    · exact hd.trans hg.symm
    · exact absurd (hx'.trans hx.symm) hlt
    · exact absurd (hx.trans hx'.symm) hlt
    · exact absurd (hx.trans hx'.symm) hlt
    · exact h.uniq f f' x hx hx'
  · rcases Nat.lt_succ_iff_lt_or_eq.1 hi with hlt | rfl
    · rw [hpipes hlt] at hopen
      obtain ⟨f, hf⟩ := h.opened i w hlt hopen
      exact ⟨f, hold hf⟩
    · cases w with
      | false => exact ⟨f0, by rw [hpipe, if_neg hne, if_pos rfl]⟩
      | true => exact ⟨f1, by rw [hpipe, if_pos rfl]⟩
  · rcases Nat.lt_succ_iff_lt_or_eq.1 hi with hlt | rfl
    · rw [hpipes hlt]
      exact h.freed i hlt
    · rw [hnew]
      rfl
  · have hqp : q ≠ p := by
      rintro rfl
      exact absurd ((update_self _ _ _).symm.trans hq) (by simp)
    obtain ⟨hi, hfd⟩ := h.io q f i w ((update_of_ne hqp _ _).symm.trans hq)
    exact ⟨hold hi, hfd⟩
  · have hqp : q ≠ p := by
      rintro rfl
      rw [show ((s.mkpipe f0 f1).goto q .fdalloc0).pc q = .fdalloc0 from update_self _ _ _] at hq
      cases hq
    rw [show ((s.mkpipe f0 f1).goto p .fdalloc0).pc q = s.pc q from update_of_ne hqp _ _] at hq
    obtain ⟨hpipe', hsole⟩ := h.fresh q w f hq hf
    refine ⟨?_, hsole⟩
    rw [hpipe, if_neg, if_neg, hpipe']
    · rintro rfl
      exact hqp (congrArg Prod.fst (hs0 _ hf))
    · rintro rfl
      exact hqp (congrArg Prod.fst (hs1 _ hf))

end Inv

/-- **One step** keeps the invariant. -/
theorem Step.inv {a : Act} {t : Sys P} (h : Inv s) (hst : Step s a t) : Inv t := by
  -- a point that is neither inside a pipe nor in `pipealloc`
  have hgoto : ∀ {u : Sys P} {p : P} {k : Pc P}, Inv u → (∀ f i w, k ≠ .io f i w) → k.fresh = false →
      Inv (u.goto p k) := fun hu hio hk => hu.goto hio fun hf => by rw [hk] at hf; cases hf
  cases hst with
  | pipe p hp => exact hgoto h (by simp) rfl
  | filealloc0 p f hp hf hh =>
    obtain ⟨hinv, hsole⟩ := h.filealloc hf (hh false)
    refine hinv.goto (by simp) fun _ w f' hf' => ?_
    cases w with
    | false =>
      obtain rfl : f = f' := Option.some.inj ((acquire_self s _ f).symm.trans hf')
      exact hsole
    | true =>
      have hnone : s.held (hand p true) = some f' := (update_of_ne (by simp) _ _).symm.trans hf'
      simp [hh true] at hnone
  | filealloc0Fails p hp hf => exact hgoto h (by simp) rfl
  | filealloc1 p f hp hf hh =>
    obtain ⟨hinv, -⟩ := h.filealloc hf hh
    exact hinv.goto (by simp) fun _ w f' hf' => hinv.fresh p w f' (by
      rw [show (s.acquire (hand p true) f).pc p = s.pc p from rfl, hp]; rfl) hf'
  | filealloc1Fails p hp hf => exact hgoto h (by simp) rfl
  | kalloc p f0 f1 hp h0 h1 => exact h.mkpipe hp h0 h1
  | kallocFails p hp => exact hgoto h (by simp) rfl
  | fdalloc0 p f fd hp hh hfd => exact hgoto (h.move (by simp [hp]) (by rw [hp]; rfl) hh hfd) (by simp) rfl
  | fdalloc0Fails p hp hfd => exact hgoto h (by simp) rfl
  | fdalloc1 p f fd0 fd hp hh hfd =>
    exact hgoto (h.move (by simp [hp]) (by rw [hp]; rfl) hh hfd) (by simp) rfl
  | fdalloc1Fails p f fd0 hp hfd h0 hh =>
    exact hgoto (h.move (by simp [hp]) (by rw [hp]; rfl) h0 hh) (by simp) rfl
  | copyout p fd0 fd1 hp => exact hgoto h (by simp) rfl
  | copyoutFails p f0 f1 fd0 fd1 hp hne h0 h1 hh0 hh1 =>
    have hfirst := h.move (by simp [hp]) (by rw [hp]; rfl) h0 hh0
    have hheld : ∀ {y}, y ≠ Sum.inl fd0 → y ≠ Sum.inr false →
        (s.move (ofile p fd0) (hand p false) f0).held (p, y) = s.held (p, y) := by
      intro y hy hy'
      show update _ _ _ _ = _
      rw [update_of_ne (by simp [hy']), update_of_ne (by simp [hy])]
    have hpc : (s.move (ofile p fd0) (hand p false) f0).pc p = .copyout fd0 fd1 := hp
    have hfd1 := (hheld (y := .inl fd1) (by simpa using Ne.symm hne) (by simp)).trans h1
    have hwf := (hheld (y := .inr true) (by simp) (by simp)).trans hh1
    exact hgoto (hfirst.move (by simp [hpc]) (by rw [hpc]; rfl) hfd1 hwf) (by simp) rfl
  | undo p w f hp hh hw => exact h.fileclose (by simp [hp]) (by rw [hp]; rfl) hh
  | undone p hp hh => exact hgoto h (by simp) rfl
  | dup p f fd fd' hp hf hfd => exact h.filedup hf hfd
  | close p f fd hp hf => exact h.fileclose (by simp [hp]) (by rw [hp]; rfl) hf
  | fork p q hp hq => exact hgoto (hgoto h (by simp) rfl) (by simp) rfl
  | forkDup p q f fd hp hf hfd => exact h.filedup hf hfd
  | forkDone p q hp hq => exact hgoto (hgoto h (by simp) rfl) (by simp) rfl
  | forkFails p q hp hq hfd => exact hgoto (hgoto h (by simp) rfl) (by simp) rfl
  | exit p hp => exact hgoto h (by simp) rfl
  | exitClose p f fd hp hf => exact h.fileclose (by simp [hp]) (by rw [hp]; rfl) hf
  | exited p hp hfd => exact hgoto h (by simp) rfl
  | call p f fd i w hp hf hi =>
    refine ⟨h.counted, h.typed, h.uniq, h.opened, h.freed, fun q f' j w' hq => ?_,
      fun q w' f' hq hf' => ?_⟩
    · rcases eq_or_ne q p with rfl | hne
      · rw [show (s.goto q (.io f i w)).pc q = .io f i w from update_self _ _ _] at hq
        cases hq
        exact ⟨hi, fd, hf⟩
      · exact h.io q f' j w' ((update_of_ne hne _ _).symm.trans hq)
    · rcases eq_or_ne q p with rfl | hne
      · rw [show (s.goto q (.io f i w)).pc q = .io f i w from update_self _ _ _] at hq
        cases hq
      · rw [show (s.goto p (.io f i w)).pc q = s.pc q from update_of_ne hne _ _] at hq
        exact h.fresh q w' f' hq hf'
  | io p f i w hp => exact h
  | ret p f i w hp => exact hgoto h (by simp) rfl

theorem Reachable.inv {init : P} (h : Reachable init s) : Inv s := by
  induction h with
  | boot => exact inv_booted init
  | step _ hst ih => exact hst.inv ih

/-- **The life of a pipe**: for any calls of any processes, an end of a pipe is open exactly while an
entry of the file table for that end, of which there is one, has a reference; the page has been freed
once if neither end is open and not at all otherwise; and no step inside `piperead` or `pipewrite` is on
a pipe whose page has been freed. -/
theorem reachable_life {init : P} (h : Reachable init s) :
    (∀ i < s.made, ∀ w, (s.pipes i).open w = true ↔ ∃ f, s.pipe f = some (i, w) ∧ 0 < s.ref f) ∧
      (∀ f f' x, s.pipe f = some x → s.pipe f' = some x → f = f') ∧
      (∀ i < s.made, (s.pipes i).kfrees =
        if ∃ f w, s.pipe f = some (i, w) ∧ 0 < s.ref f then 0 else 1) ∧
      ∀ i t, Step s (.io i) t → i < s.made ∧ (s.pipes i).kfrees = 0 := by
  have hs := h.inv
  have hopen : ∀ i < s.made, ∀ w,
      (s.pipes i).open w = true ↔ ∃ f, s.pipe f = some (i, w) ∧ 0 < s.ref f := by
    intro i hi w
    constructor
    · intro ho
      obtain ⟨f, hf⟩ := hs.opened i w hi ho
      exact ⟨f, hf, (hs.typed f i w hf).2.1⟩
    · rintro ⟨f, hf, -⟩
      exact (hs.typed f i w hf).2.2
  have hany : ∀ i < s.made, ((s.pipes i).readopen = true ∨ (s.pipes i).writeopen = true) ↔
      ∃ f w, s.pipe f = some (i, w) ∧ 0 < s.ref f := by
    intro i hi
    rw [open_or _ false, hopen i hi false, hopen i hi (!false)]
    constructor
    · rintro (⟨f, hf⟩ | ⟨f, hf⟩)
      · exact ⟨f, _, hf⟩
      · exact ⟨f, _, hf⟩
    · rintro ⟨f, w, hf⟩
      cases w with
      | false => exact .inl ⟨f, hf⟩
      | true => exact .inr ⟨f, hf⟩
  have hfreed : ∀ i < s.made, (s.pipes i).kfrees =
      if ∃ f w, s.pipe f = some (i, w) ∧ 0 < s.ref f then 0 else 1 := by
    intro i hi
    rw [hs.freed i hi]
    exact if_congr (hany i hi) rfl rfl
  refine ⟨hopen, hs.uniq, hfreed, fun i t hst => ?_⟩
  cases hst with
  | io p f _ w hp =>
    obtain ⟨hf, -⟩ := hs.io p f i w hp
    obtain ⟨hi, hpos, -⟩ := hs.typed f i w hf
    exact ⟨hi, by rw [hfreed i hi, if_pos ⟨f, w, hf, hpos⟩]⟩

/-- A process makes a pipe, forks, and both close an end while the parent is inside `pipewrite`. -/
theorem reachable_life_two : ∃ s : Sys (Fin 2), Reachable 0 s ∧ s.made = 1 ∧ s.pc 0 = .io 1 0 true ∧
    (s.pipes 0).readopen = false ∧ (s.pipes 0).kfrees = 0 := by
  have h : Reachable (0 : Fin 2) _ :=
    Reachable.boot
      |>.step (.pipe _ 0 rfl)
      |>.step (.filealloc0 _ 0 0 rfl rfl fun _ => rfl)
      |>.step (.filealloc1 _ 0 1 rfl rfl rfl)
      |>.step (.kalloc _ 0 0 1 rfl rfl rfl)
      |>.step (.fdalloc0 _ 0 0 3 rfl rfl rfl)
      |>.step (.fdalloc1 _ 0 1 3 4 rfl rfl rfl)
      |>.step (.copyout _ 0 3 4 rfl)
      |>.step (.fork _ 0 1 rfl rfl)
      |>.step (.forkDup _ 0 1 0 3 rfl rfl rfl)
      |>.step (.forkDup _ 0 1 1 4 rfl rfl rfl)
      |>.step (.forkDone _ 0 1 rfl rfl)
      |>.step (.close _ 0 0 3 rfl rfl)
      |>.step (.call _ 0 1 4 0 true rfl rfl rfl)
      |>.step (.exit _ 1 rfl)
      |>.step (.exitClose _ 1 0 3 rfl rfl)
      |>.step (.exitClose _ 1 1 4 rfl rfl)
  exact ⟨_, h, rfl, rfl, rfl, ((reachable_life h).2.2.2 0 _ (.io _ 0 1 0 true rfl)).2⟩

end PipeLife

end Xv6
