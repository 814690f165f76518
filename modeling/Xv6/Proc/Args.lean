import Xv6.Proc.Sys
import Xv6.Proc.Lives
import Xv6.Vm.Bytewise

/-!
# The arguments of a program (`exec` of `exec.c`)

`exec` puts two pages above the program: the stack and, below it, a page the user has no access to.  The
strings go to the top of the stack, one below the other, then the array of pointers to them.  Everything is
rounded down to a multiple of 16.

* `stringBytes`, `argBytes`, `argAddrs`: how much room the arguments take, and where the strings go;
* `Reads`: the user reads some bytes at an address;
* `wp_pushStrings`, `wp_pushArgv`: the strings and the array;
* `execRet`: `exec` from the stack on, with the number it returns;
* `exec_args`: **the arguments reach the new program**, exactly when they fit the page.
-/

namespace Xv6

open Stateful Kernel Function List

attribute [local irreducible] wp

variable {s t : Kernel} {m : Mem} {S S' S'' : KMap} {q : Tbl} {p : Fin NPROC} {pt a b sp base : ℕ}
  {l l' : List Byte} {argv : List (List Byte)} {A : Stop → Kernel → Prop}

/-! ### Layout -/

/-- Round up to a multiple of 16. -/
def round16 (n : ℕ) : ℕ := (n + 15) / 16 * 16

/-- The room the strings take. -/
def stringBytes : List (List Byte) → ℕ
  | [] => 0
  | arg :: argv => round16 (arg.length + 1) + stringBytes argv

/-- The room the strings and the array of pointers take. -/
def argBytes (argv : List (List Byte)) : ℕ := stringBytes argv + round16 ((argv.length + 1) * 8)

/-- The addresses of the strings, from `sp` downwards. -/
def argAddrs : ℕ → List (List Byte) → List ℕ
  | _, [] => []
  | sp, arg :: argv => (sp - round16 (arg.length + 1)) :: argAddrs (sp - round16 (arg.length + 1)) argv

theorem length_argAddrs (sp : ℕ) (argv : List (List Byte)) : (argAddrs sp argv).length = argv.length := by
  induction argv generalizing sp with
  | nil => rfl
  | cons arg argv ih => rw [argAddrs, length_cons, length_cons, ih]

theorem le_round16 (n : ℕ) : n ≤ round16 n := by
  unfold round16
  omega

theorem round16_mod (n : ℕ) : round16 n % 16 = 0 := Nat.mul_mod_left _ _

theorem stringBytes_mod (argv : List (List Byte)) : stringBytes argv % 16 = 0 := by
  induction argv with
  | nil => rfl
  | cons arg argv ih =>
    have := round16_mod (arg.length + 1)
    rw [stringBytes]
    omega

theorem pages_mul (P : ℕ) : pages (P * 4096) = P := by
  unfold pages
  omega

/-- Subtracting and rounding down, as `exec` does. -/
theorem round_down {n : ℕ} (h16 : sp % 16 = 0) (hn : n ≤ sp) (hlt : sp < 2 ^ 64) :
    sub64 sp n - sub64 sp n % 16 = sp - round16 n := by
  rw [sub64_eq hn hlt]
  unfold round16
  omega

/-! ### Bytes of the user -/

/-- The user of the table `q` reads the bytes `l` at the address `a`. -/
def Reads (S : KMap) (q : Tbl) (a : ℕ) (l : List Byte) : Prop :=
  ∀ k < l.length, ∃ x, S.userPage q (a + k) = some x ∧ l[k]? = some (x.2.byte ((a + k) % 4096))

theorem Wrote.userPage_at (h : Wrote S S' q a l) {c : ℕ} {x : BitVec 64 × Page}
    (hc : S.userPage q c = some x) :
    ∃ y, S'.userPage q c = some y ∧
      y.2.byte (c % 4096) = if a ≤ c then (l[c - a]?).getD (x.2.byte (c % 4096)) else
        x.2.byte (c % 4096) := by
  obtain ⟨hlt, hcell, hu⟩ := userPage_eq_some.1 hc
  obtain ⟨pg', hc', hbytes⟩ := h.page (vpn c) x.1 x.2 hcell
  have haddr : pageAddr (vpn c) + c % 4096 = c := by
    show (vpn c).val * 4096 + _ = _
    rw [vpn_val hlt]
    omega
  refine ⟨(x.1, pg'), userPage_eq_some.2 ⟨hlt, hc', hu⟩, ?_⟩
  rw [hbytes _ (Nat.mod_lt _ (by decide))]
  unfold overlay
  rw [haddr]

theorem Wrote.reads (h : Wrote S S' q a l) : Reads S' q a l := by
  intro k hk
  obtain ⟨x, hx, -⟩ := h.allowed k hk
  obtain ⟨y, hy, hbyte⟩ := h.userPage_at hx
  refine ⟨y, hy, ?_⟩
  rw [hbyte, if_pos (by omega), Nat.add_sub_cancel_left, getElem?_eq_getElem hk, Option.getD_some]

theorem Wrote.reads_above (h : Wrote S S' q a l) (hb : a + l.length ≤ b) (hr : Reads S q b l') :
    Reads S' q b l' := by
  intro k hk
  obtain ⟨x, hx, hbyte⟩ := hr k hk
  obtain ⟨y, hy, hbyte'⟩ := h.userPage_at hx
  refine ⟨y, hy, ?_⟩
  rw [hbyte, hbyte', if_pos (by omega), getElem?_eq_none (by omega), Option.getD_none]

/-- `copyin` reads what the user reads. -/
theorem copyin_of_reads (h : Rep m S) (hr : S.root q = some pt) (ha : a < 2 ^ 64) (hl : Reads S q a l) :
    copyin m pt a l.length = (l, true) := by
  have hat : ∀ k < l.length, Readable m pt (a + k) ∧ l[k]? = some (byteAt m pt (a + k)) := by
    intro k hk
    obtain ⟨x, hx, hbyte⟩ := hl k hk
    obtain ⟨hread, hval⟩ := h.readable_of_userPage hr hx
    exact ⟨hread, by rw [hbyte, hval]⟩
  obtain ⟨n, hn, hrun⟩ := copyin_leading (h.sound hr).nonNull ha l.length
  obtain rfl := hn.all_iff.2 fun k hk => (hat k hk).1
  rw [hrun, decide_eq_true rfl]
  refine Prod.ext (ext_getElem (by simp [bytesAt]) fun k _ hk => ?_) rfl
  have hbyte := (hat k hk).2
  rw [getElem?_eq_getElem hk, Option.some_inj] at hbyte
  simp [bytesAt, hbyte]

/-! ### Pushing -/

/-- The memory of the table `q` has been written below the address `hi`. -/
structure Pushed (S S' : KMap) (q : Tbl) (hi : ℕ) : Prop where
  root : S'.root = S.root
  box : S'.box = S.box
  other : ∀ r, r ≠ q → S'.cell r = S.cell r
  keys : ∀ v, (S'.cell q v).map Prod.fst = (S.cell q v).map Prod.fst
  writable : ∀ a, Writable S q a → Writable S' q a
  above : ∀ b l, hi ≤ b → Reads S q b l → Reads S' q b l

theorem Pushed.refl (S : KMap) (q : Tbl) (hi : ℕ) : Pushed S S q hi :=
  ⟨rfl, rfl, fun _ _ => rfl, fun _ => rfl, fun _ => id, fun _ _ _ => id⟩

theorem Pushed.trans {hi hi' : ℕ} (h : Pushed S S' q hi) (h' : Pushed S' S'' q hi') (hle : hi' ≤ hi) :
    Pushed S S'' q hi := by
  constructor
  case root => exact h'.root.trans h.root
  case box => exact h'.box.trans h.box
  case other => exact fun r hr => (h'.other r hr).trans (h.other r hr)
  case keys => exact fun v => (h'.keys v).trans (h.keys v)
  case writable => exact fun a ha => h'.writable a (h.writable a ha)
  case above => exact fun b l hb hl => h'.above b l (by omega) (h.above b l hb hl)

theorem Wrote.pushed (h : Wrote S S' q a l) {hi : ℕ} (hle : a + l.length ≤ hi) : Pushed S S' q hi := by
  constructor
  case root => exact h.root
  case box => exact h.box
  case other => exact h.other
  case keys =>
    intro v
    cases hc : S.cell q v with
    | none => rw [h.none v hc]
    | some x =>
      obtain ⟨pg', hc', -⟩ := h.page v x.1 x.2 hc
      rw [hc']
      rfl
  case writable => exact fun a ha => h.rewritten.writable ha
  case above => exact fun b l hb hl => h.reads_above (by omega) hl

theorem wp_copyOut {Q : Bool → Kernel → Prop} (h : Rep s.mem S) (hr : S.root q = some pt) (ha : a < 2 ^ 64)
    (hw : ∀ k < l.length, Writable S q (a + k))
    (hQ : ∀ m' S', Rep m' S' → Wrote S S' q a l → Q true { s with mem := m' }) :
    wp (copyOut pt a l) Q A s := by
  obtain ⟨hok, S', n, hrep, hwrote, hall⟩ := rep_copyout h hr l ha
  have htrue := hok.2 hw
  rw [hall htrue] at hwrote
  unfold copyOut
  rw [wp_bind, wp_get]
  rw [wp_bind, wp_modify, wp_pure, htrue]
  exact hQ _ S' hrep hwrote

/-- **The strings are pushed** as long as they fit. -/
theorem wp_pushStrings {ustack : List ℕ} (h : Rep s.mem S) (hr : S.root q = some pt) (hbase : 4096 ≤ base)
    (hmax : base + 4096 < 2 ^ 38) (h16 : sp % 16 = 0) (hlo : base ≤ sp) (hhi : sp ≤ base + 4096)
    (hw : ∀ a, base ≤ a → a < sp → Writable S q a) (hlen : ∀ arg ∈ argv, arg.length < 4096)
    (hn : ustack.length + argv.length < MAXARG) :
    wp (pushStrings pt base argv sp ustack) (fun r t => ∃ m' S', t = { s with mem := m' } ∧ Rep m' S' ∧
      Pushed S S' q sp ∧
      (base + stringBytes argv ≤ sp → r = some (sp - stringBytes argv, ustack ++ argAddrs sp argv) ∧
        List.Forall₂ (fun a arg => Reads S' q a (arg ++ [0])) (argAddrs sp argv) argv) ∧
      (sp < base + stringBytes argv → r = none)) A s := by
  induction argv generalizing s S sp ustack with
  | nil =>
    rw [pushStrings, wp_pure]
    refine ⟨s.mem, S, rfl, h, Pushed.refl S q sp, fun _ => ⟨?_, .nil⟩, fun hlt => ?_⟩
    · rw [argAddrs, append_nil]
      rfl
    · rw [stringBytes] at hlt
      omega
  | cons arg argv ih =>
    have harg := hlen arg mem_cons_self
    rw [length_cons] at hn
    have hr16 := le_round16 (arg.length + 1)
    have hdmod := round16_mod (arg.length + 1)
    rw [pushStrings, if_neg (by omega)]
    dsimp only
    rw [round_down h16 (by omega) (by omega), stringBytes, argAddrs]
    obtain ⟨d, hd⟩ : ∃ d, d = round16 (arg.length + 1) := ⟨_, rfl⟩
    rw [← hd] at hr16 hdmod ⊢
    by_cases hfit : sp - d < base
    · rw [if_pos hfit, wp_pure]
      exact ⟨s.mem, S, rfl, h, Pushed.refl S q sp, fun hle => by omega, fun _ => rfl⟩
    have hin : (arg ++ [0]).length = arg.length + 1 := by rw [length_append, length_singleton]
    rw [if_neg hfit, wp_bind]
    refine wp_copyOut h hr (by omega) (fun k hk => hw _ (by omega) (by omega)) fun m' S' hrep hwrote => ?_
    rw [if_neg (by decide)]
    have hpush : Pushed S S' q sp := hwrote.pushed (by omega)
    refine wp_mono (ih hrep (by rw [hpush.root, hr]) (by omega) (by omega) (by omega)
      (fun c hc hc' => hpush.writable c (hw c hc (by omega))) (fun x hx => hlen x (mem_cons_of_mem arg hx))
      (by rw [length_append, length_singleton]; omega)) ?_ fun _ _ => id
    rintro r t ⟨m'', S'', ht, hrep', hpush', hyes, hno⟩
    refine ⟨m'', S'', ht, hrep', hpush.trans hpush' (by omega), fun hle => ?_, fun hlt => hno (by omega)⟩
    obtain ⟨hres, hreads⟩ := hyes (by omega)
    refine ⟨?_, .cons (hpush'.above _ _ le_rfl hwrote.reads) hreads⟩
    rw [hres, append_assoc, Nat.sub_sub]
    rfl

theorem forall₂_argAddrs_mono {R R' : ℕ → List Byte → Prop} {lo : ℕ}
    (hR : ∀ a arg, lo ≤ a → R a arg → R' a arg)
    (hlo : lo + stringBytes argv ≤ sp) (h : List.Forall₂ R (argAddrs sp argv) argv) :
    List.Forall₂ R' (argAddrs sp argv) argv := by
  induction argv generalizing sp with
  | nil => exact .nil
  | cons arg argv ih =>
    rw [stringBytes] at hlo
    rw [argAddrs] at h ⊢
    obtain ⟨h1, h2⟩ := forall₂_cons.1 h
    exact .cons (hR _ _ (by omega) h1) (ih (by omega) h2)

/-- Push the arguments and the array of pointers to them; the stack pointer and `argc`. -/
def pushArgv (pagetable stackbase sp : ℕ) (argv : List (List Byte)) : Prog Kernel (Option (ℕ × ℕ)) := do
  match ← pushStrings pagetable stackbase argv sp [] with
  | none => return none
  | some (sp, ustack) =>
    let argc := ustack.length
    let sp := sub64 sp ((argc + 1) * 8)
    let sp := sp - sp % 16
    if sp < stackbase then
      return none
    let ok ← copyOut pagetable sp ((ustack ++ [0]).flatMap (leBytes 8))
    return if ok then some (sp, argc) else none

/-- It is `pushArgs` with `argc`. -/
theorem pushArgs_eq (pagetable stackbase sp : ℕ) (argv : List (List Byte)) :
    pushArgs pagetable stackbase sp argv = do
      let r ← pushArgv pagetable stackbase sp argv
      return r.map Prod.fst := by
  unfold pushArgs pushArgv
  rw [Prog.bind_assoc]
  congr 1
  funext r
  cases r with
  | none => rfl
  | some x =>
    dsimp only
    split_ifs with h
    · rfl
    · rw [Prog.bind_assoc]
      congr 1
      funext ok
      cases ok <;> rfl

theorem length_flatMap_leBytes (l : List ℕ) : (l.flatMap (leBytes 8)).length = l.length * 8 := by
  induction l with
  | nil => rfl
  | cons a l ih =>
    rw [flatMap_cons, length_append, length_leBytes, ih, length_cons]
    omega

/-- **The arguments are pushed** when they fit the page of the stack. -/
theorem wp_pushArgv (h : Rep s.mem S) (hr : S.root q = some pt) (hbase : 4096 ≤ base)
    (hmax : base + 4096 < 2 ^ 38)
    (h16 : base % 16 = 0) (hw : ∀ a, base ≤ a → a < base + 4096 → Writable S q a)
    (hlen : ∀ arg ∈ argv, arg.length < 4096) (hn : argv.length < MAXARG) :
    wp (pushArgv pt base (base + 4096) argv) (fun r t => ∃ m' S', t = { s with mem := m' } ∧ Rep m' S' ∧
      Pushed S S' q (base + 4096) ∧
      (argBytes argv ≤ 4096 → r = some (base + 4096 - argBytes argv, argv.length) ∧
        List.Forall₂ (fun a arg => Reads S' q a (arg ++ [0])) (argAddrs (base + 4096) argv) argv ∧
        Reads S' q (base + 4096 - argBytes argv)
          ((argAddrs (base + 4096) argv ++ [0]).flatMap (leBytes 8))) ∧
      (4096 < argBytes argv → r = none)) A s := by
  have hmaxarg : MAXARG = 32 := rfl
  have hsmod := stringBytes_mod argv
  have hr16 := le_round16 ((argv.length + 1) * 8)
  have hargs : argBytes argv = stringBytes argv + round16 ((argv.length + 1) * 8) := rfl
  unfold pushArgv
  rw [wp_bind]
  refine wp_mono (wp_pushStrings h hr hbase hmax (by omega) (by omega) le_rfl hw hlen
    (by simpa using hn)) ?_
    fun _ _ => id
  rintro r t ⟨m', S', rfl, hrep, hpush, hyes, hno⟩
  by_cases hfit : base + stringBytes argv ≤ base + 4096
  swap
  · rw [hno (by omega)]
    exact (wp_pure _).2 ⟨m', S', rfl, hrep, hpush, fun hle => by omega, fun _ => rfl⟩
  obtain ⟨hres, hreads⟩ := hyes hfit
  rw [hres]
  dsimp only
  rw [nil_append, length_argAddrs, round_down (by omega) (by omega) (by omega), Nat.sub_sub, ← hargs]
  by_cases hroom : base + 4096 - argBytes argv < base
  · rw [if_pos hroom]
    exact (wp_pure _).2 ⟨m', S', rfl, hrep, hpush, fun hle => by omega, fun _ => rfl⟩
  have hbytes : ((argAddrs (base + 4096) argv ++ [0]).flatMap (leBytes 8)).length =
    (argv.length + 1) * 8 := by
    rw [length_flatMap_leBytes, length_append, length_argAddrs, length_singleton]
  rw [if_neg hroom, wp_bind]
  refine wp_copyOut hrep (by rw [hpush.root, hr]) (by omega)
    (fun k hk => hpush.writable _ (hw _ (by omega) (by omega))) fun m'' S'' hrep' hwrote => ?_
  rw [if_pos rfl, wp_pure]
  have hpush' : Pushed S' S'' q (base + 4096 - stringBytes argv) := hwrote.pushed (by omega)
  refine ⟨m'', S'', rfl, hrep', hpush.trans hpush' (by omega), fun _ => ⟨rfl, ?_, hwrote.reads⟩,
    fun hlt => by omega⟩
  exact forall₂_argAddrs_mono (fun a arg ha hl => hpush'.above a _ ha hl) (by omega) hreads

/-! ### `exec` from the stack on -/

/-- `exec` after the segments were loaded: the number of arguments, or -1. -/
def execRet (p : Fin NPROC) (pagetable sz entry : ℕ) (argv : List (List Byte)) : Prog Kernel ℤ := do
  let pr := (← Prog.get).proc p
  let sz := pgRoundUp sz
  let sz1 ← onMem (uvmalloc pagetable sz (add64 sz (2 * PGSIZE)) 4#32)
  if sz1 = 0 then
    let _ ← execBad pagetable sz none
    return -1
  else
    onMem (uvmclear pagetable (sub64 sz1 (2 * PGSIZE)))
    match ← pushArgv pagetable (sub64 sz1 PGSIZE) sz1 argv with
    | none =>
      let _ ← execBad pagetable sz1 none
      return -1
    | some (sp, argc) =>
      setReg pr.trapframe TFA1 sp
      Prog.modify fun s => s.updProc p fun pr => { pr with pagetable := pagetable, sz := sz1 }
      setReg pr.trapframe TFEPC entry
      setReg pr.trapframe TFSP sp
      procFreepagetable pr.pagetable pr.sz
      return argc

theorem execBad_false (pagetable sz : ℕ) {α : Type} (f : Bool → Prog Kernel α) :
    (execBad pagetable sz none >>= f) = execBad pagetable sz none >>= fun _ => f false := by
  unfold execBad
  split_ifs
  · rw [Prog.bind_assoc, Prog.bind_assoc]
    rfl
  · rfl

theorem pure_bind_run {σ α β : Type} (a : α) (f : α → Prog σ β) : (pure a >>= f : Prog σ β) = f a := rfl

/-- `exec` reports success when the number of arguments is returned. -/
theorem execCommit_eq (p : Fin NPROC) (pagetable sz entry : ℕ) (argv : List (List Byte)) :
    execCommit p pagetable sz entry argv = do
      let r ← execRet p pagetable sz entry argv
      return decide (r ≠ -1) := by
  have hbad : ∀ sz, execBad pagetable sz none = (do
      let r ← (do
        let _ ← execBad pagetable sz none
        return (-1 : ℤ))
      return decide (r ≠ -1)) := fun sz => by
    have hpure : execBad pagetable sz none >>= pure = execBad pagetable sz none := by
      funext s
      rw [Prog.bind_run]
      cases execBad pagetable sz none s <;> rfl
    rw [Prog.bind_assoc]
    exact hpure.symm.trans (execBad_false pagetable sz pure)
  unfold execCommit execRet
  rw [Prog.bind_assoc]
  congr 1
  funext s
  dsimp only
  rw [Prog.bind_assoc]
  congr 1
  funext sz1
  split_ifs with h0
  · exact hbad _
  · rw [pushArgs_eq]
    simp only [Prog.bind_assoc]
    congr 1
    funext _
    congr 1
    funext r
    cases r with
    | none => exact hbad sz1
    | some x =>
      have hargc : decide ((x.2 : ℤ) ≠ -1) = true := decide_eq_true (by omega)
      simp only [Prog.bind_assoc, pure_bind_run, Option.map_some, hargc]

/-- The state of `exec` after the segments were loaded: the new table `pt` maps the `sz` bytes of the
program, and the old one has no page of a region. -/
structure ExecReady (s : Kernel) (p : Fin NPROC) (pt sz : ℕ) (S : KMap) : Prop where
  rep : Rep s.mem S
  root : S.root none = some pt
  table : TableOk S none sz fun _ => False
  oldRoot : S.root (some p) = some (s.proc p).pagetable
  oldTable : TableOk S (some p) (s.proc p).sz fun _ => False
  frame : ∃ pg, S.box (.frame p) = some ((s.proc p).trapframe, pg)
  hand : S.box .hand = none

/-- The arguments are in the memory of the new program, whose stack ends at `top`, and the registers have
their address. -/
structure ArgsReach (t : Kernel) (p : Fin NPROC) (pt top tf : ℕ) (argv : List (List Byte))
    (sp : ℕ) : Prop where
  space : (t.proc p).pagetable = pt ∧ (t.proc p).sz = top
  regs : t.mem.page tf TFA1 = BitVec.ofNat 64 sp ∧ t.mem.page tf TFSP = BitVec.ofNat 64 sp
  pointers : copyin t.mem pt sp ((argv.length + 1) * 8) = ((argAddrs top argv ++ [0]).flatMap
    (leBytes 8), true)
  strings : List.Forall₂ (fun a arg => copyin t.mem pt a (arg.length + 1) = (arg ++ [0], true))
    (argAddrs top argv) argv
  aligned : sp % 16 = 0 ∧ ∀ a ∈ argAddrs top argv, a % 16 = 0
  /-- The array is in the page of the stack, and below every string. -/
  inside : top - PGSIZE ≤ sp ∧ sp + (argv.length + 1) * 8 ≤ top - stringBytes argv
  /-- Each string ends below the one before, the first at the top of the stack. -/
  disjoint : ∀ i a arg, (argAddrs top argv)[i]? = some a → argv[i]? = some arg →
    top - stringBytes argv ≤ a ∧ a + arg.length + 1 ≤ (if i =
      0 then top else ((argAddrs top argv)[i - 1]?).getD 0)

theorem argAddrs_mod (h16 : sp % 16 = 0) (hle : stringBytes argv ≤ sp) :
    ∀ a ∈ argAddrs sp argv, a % 16 = 0 := by
  induction argv generalizing sp with
  | nil => exact fun a ha => absurd ha not_mem_nil
  | cons arg argv ih =>
    rw [stringBytes] at hle
    have hround := round16_mod (arg.length + 1)
    have hmod : (sp - round16 (arg.length + 1)) % 16 = 0 := by omega
    intro a ha
    rw [argAddrs] at ha
    rcases mem_cons.1 ha with rfl | ha
    · exact hmod
    · exact ih hmod (by omega) a ha

theorem argAddrs_disjoint (hle : stringBytes argv ≤ sp) (i : ℕ) {arg : List Byte}
    (ha : (argAddrs sp argv)[i]? = some a) (harg : argv[i]? = some arg) :
    sp - stringBytes argv ≤ a ∧
      a + arg.length + 1 ≤ (if i = 0 then sp else ((argAddrs sp argv)[i - 1]?).getD 0) := by
  induction argv generalizing sp i with
  | nil => simp at harg
  | cons x argv ih =>
    rw [stringBytes] at hle ⊢
    rw [argAddrs] at ha ⊢
    cases i with
    | zero =>
      simp only [getElem?_cons_zero, Option.some_inj] at ha harg
      subst ha harg
      rw [if_pos rfl]
      have := le_round16 (x.length + 1)
      omega
    | succ i =>
      simp only [getElem?_cons_succ] at ha harg
      obtain ⟨h1, h2⟩ := ih (by omega) i ha harg
      refine ⟨by omega, h2.trans ?_⟩
      cases i with
      | zero => simp
      | succ i => simp

theorem TableOk.setCell {sz : ℕ} {region : Vpn → Prop} {v : Vpn} {pte : BitVec 64}
    (h : TableOk S q sz region)
    (hv : v.val < pages sz) (hf : pteFlags pte ≠ PTEV) (pg : Page) :
    TableOk (S.setCell q v (some (pte, pg))) q sz region := by
  have hsmall := h.small
  rw [pageAddr_TRAPFRAME] at hsmall
  have hother : ∀ w, w ≠ v → (S.setCell q v (some (pte, pg))).cell q w = S.cell q w := fun w hw => by
    rw [MemMap.cell_setCell, if_neg fun hcon => hw hcon.2]
  constructor
  case small => exact h.small
  case heap =>
    intro w hw
    by_cases hwv : w = v
    · rw [MemMap.cell_setCell, if_pos ⟨rfl, hwv⟩]
      exact ⟨pte, pg, rfl, hf⟩
    · rw [hother w hwv]
      exact h.heap w hw
  case above =>
    intro w x y hw hres hc
    rw [hother w (by rintro rfl; omega)] at hc
    exact h.above w x y hw hres hc
  case kernel =>
    intro w hw
    unfold pages at hv
    rw [hother w (by rintro rfl; exact not_reserved_of_lt (by omega) hw)]
    exact h.kernel w hw

/-- The table after the two pages were added and the first was taken from the user. -/
theorem TableOk.stack {P : ℕ} {v : Vpn} {pte : BitVec 64} {pg : Page}
    (h : TableOk S q (P * 4096) fun _ => False)
    (hP : P + 2 ≤ 0x88002) (hg : Grown S S' q P (P + 2) (heapPerm 4#32)) (hv : v.val = P)
    (hc : S'.cell q v = some (pte, pg)) :
    TableOk (S'.setCell q v (some (pte &&& ~~~PTEU, pg))) q (P * 4096 + 8192) fun _ => False := by
  have hpages : pages (P * 4096 + 8192) = P + 2 := by rw [← pages_mul (P + 2), Nat.add_mul]
  obtain ⟨pte', hnew, hf⟩ := hg.new v (by omega) (by omega)
  rw [hc, Option.some_inj, Prod.mk.injEq] at hnew
  have hand : pteFlags (pte &&& ~~~PTEU) = pteFlags pte &&& ~~~PTEU := by
    unfold pteFlags
    rw [BitVec.and_assoc, BitVec.and_assoc, BitVec.and_comm (~~~PTEU)]
  have hg' : Grown S S' q (pages (P * 4096)) (pages (P * 4096 + 8192)) (heapPerm 4#32) := by
    rwa [pages_mul, hpages]
  refine (h.grown hg' (by omega) (by rw [pageAddr_TRAPFRAME]; omega) (by decide)).setCell (by omega) ?_ pg
  rw [hand, hnew.1, hf]
  decide

/-- The memory bounds the heap of a table, which may be rounded up to whole pages. -/
theorem TableOk.rounded {sz : ℕ} {m : Mem} (h : TableOk S q sz fun _ => False) (hrep : Rep m S) :
    ∃ P ≤ 0x88000, pgRoundUp sz = P * 4096 ∧ TableOk S q (P * 4096) fun _ => False := by
  have hps : pages sz = (sz + 4095) / 4096 := rfl
  have hbound : pages sz ≤ 0x88000 := hrep.heap_bound fun v hv => h.cell_ne_none hv
  refine ⟨pages sz, hbound, by rw [pgRoundUp_eq (by omega), hps], ?_, ?_, ?_, h.kernel⟩
  · rw [pageAddr_TRAPFRAME]
    omega
  · rw [pages_mul]
    exact h.heap
  · rw [pages_mul]
    exact h.above

/-- The error exit of `exec` gives the table back. -/
theorem wp_execBad {Q : Bool → Kernel → Prop} {sz : ℕ} (h : Rep s.mem S) (hr : S.root q = some pt)
    (ht : TableOk S q sz fun _ => False) (hQ : ∀ t, Q false t) : wp (execBad pt sz none) Q A s := by
  unfold execBad
  split_ifs with h0
  · rw [wp_bind]
    exact wp_procFreepagetable h hr ht fun m' _ => (wp_pure _).2 (hQ _)
  · exact (wp_pure _).2 (hQ _)

theorem wp_setReg {Q : Unit → Kernel → Prop} {tf v : ℕ} {i : Fin NPTE} {pg : Page}
    {k : Held} (h : Rep s.mem S)
    (hk : S.box k = some (tf, pg))
    (hQ : ∀ m', Rep m' (S.setBox k (some (tf, update pg i (BitVec.ofNat 64 v)))) →
      Q () { s with mem := m' }) : wp (setReg tf i v) Q A s := by
  unfold setReg onMem
  rw [wp_zoom, wp_modify]
  refine hQ _ ?_
  have hrep := h.setBox hk (update pg i (BitVec.ofNat 64 v))
  rw [← h.box k tf pg hk] at hrep ⊢
  exact hrep

theorem Reads.congr (h : Reads S q a l) (hc : S'.cell q = S.cell q) : Reads S' q a l := by
  intro k hk
  obtain ⟨x, hx, hbyte⟩ := h k hk
  refine ⟨x, ?_, hbyte⟩
  rw [userPage_eq_some] at hx ⊢
  rwa [hc]

/-- The new image is committed to, and the old one is given back. -/
theorem wp_execCommitted {sz1 tf old oldsz entry : ℕ} {r : ℤ} {Q : ℤ → Kernel → Prop}
    {pg : Page} (h : Rep s.mem S)
    (hold : S.root (some p) = some old) (ht : TableOk S (some p) oldsz fun _ => False)
    (hbox : S.box (.frame p) = some (tf, pg))
    (hQ : ∀ t (S' : KMap), Rep t.mem S' → S'.root none = S.root none → S'.cell none = S.cell none →
      (t.proc p).pagetable = pt ∧ (t.proc p).sz = sz1 →
      t.mem.page tf TFA1 = BitVec.ofNat 64 sp ∧ t.mem.page tf TFSP = BitVec.ofNat 64 sp → Q r t) :
    wp (do
      setReg tf TFA1 sp
      Prog.modify fun s => s.updProc p fun pr => { pr with pagetable := pt, sz := sz1 }
      setReg tf TFEPC entry
      setReg tf TFSP sp
      procFreepagetable old oldsz
      return r) Q A s := by
  rw [wp_bind]
  refine wp_setReg h hbox fun m₁ hm₁ => ?_
  rw [wp_bind, wp_modify, wp_bind]
  refine wp_setReg hm₁ (MemMap.box_setBox_self _ _ _) fun m₂ hm₂ => ?_
  rw [wp_bind]
  refine wp_setReg hm₂ (MemMap.box_setBox_self _ _ _) fun m₃ hm₃ => ?_
  rw [wp_bind]
  refine wp_procFreepagetable hm₃ hold (ht.of_eq rfl) fun m₄ hm₄ => ?_
  refine (wp_pure _).2 (hQ _ _ hm₄ ?_ ?_ ?_ ?_)
  · show update S.root (some p) none none = S.root none
    exact update_of_ne (Option.some_ne_none p).symm _ _
  · show update S.cell (some p) (fun _ => none) none = S.cell none
    exact update_of_ne (Option.some_ne_none p).symm _ _
  · show (update s.proc p _ p).pagetable = pt ∧ (update s.proc p _ p).sz = sz1
    rw [update_self]
    exact ⟨rfl, rfl⟩
  · rw [hm₄.box (.frame p) tf _ (MemMap.box_setBox_self _ _ _)]
    constructor
    · rw [update_of_ne (by decide), update_of_ne (by decide), update_self]
    · rw [update_self]

/-- **`exec` from the stack on.** -/
theorem wp_execRet {sz entry : ℕ} (h : ExecReady s p pt sz S) (hn : argv.length < MAXARG)
    (hlen : ∀ arg ∈ argv, arg.length < PGSIZE) :
    wp (execRet p pt sz entry argv) (fun r t =>
      (r = -1 ∧ ((uvmalloc pt (pgRoundUp sz) (add64 (pgRoundUp sz) (2 * PGSIZE)) 4#32 s.mem).value =
      some 0 ∨
        PGSIZE < argBytes argv)) ∨
      (r = argv.length ∧ (uvmalloc pt (pgRoundUp sz) (add64 (pgRoundUp sz) (2 * PGSIZE)) 4#32
      s.mem).value ≠ some 0 ∧
        argBytes argv ≤ PGSIZE ∧ ArgsReach t p pt (pgRoundUp sz + 2 * PGSIZE) (s.proc p).trapframe argv
          (pgRoundUp sz + 2 * PGSIZE - argBytes argv))) (fun _ _ => False) s := by
  have hphys : PHYSTOP / 4096 = 0x88000 := rfl
  have hpg : PGSIZE = 4096 := rfl
  obtain ⟨P, hbound, hup, htable⟩ := h.table.rounded h.rep
  have hpages := pages_mul P
  have hpages' : pages (P * 4096 + 2 * 4096) = P + 2 := by rw [← Nat.add_mul, pages_mul]
  obtain ⟨pgf, hframe⟩ := h.frame
  rw [hup, hpg, add64_eq (by omega)]
  have halloc : wp (uvmalloc pt (P * 4096) (P * 4096 + 2 * 4096) 4#32) (fun r m' =>
      (r = 0 ∧ Rep m' S) ∨ (r = P * 4096 + 2 * 4096 ∧ ∃ S', Rep m' S' ∧
        Grown S S' none P (P + 2) (heapPerm 4#32))) (fun _ _ => False) s.mem := by
    refine wp_uvmalloc h.rep h.root h.hand (by decide) (by decide) (by omega)
      (fun v hv => htable.cell_ne_none hv) ?_
      (fun hlt => by omega) (fun m' hm' => Or.inl ⟨rfl, hm'⟩) fun _ m' S' hm' hg =>
      Or.inr ⟨rfl, S', hm', ?_⟩
    · intro v hlo hhi hc
      rw [hpages'] at hhi
      exact absurd (htable.cell_none hlo (not_reserved_of_lt (by omega))) hc
    · rwa [hpages, hpages'] at hg
  unfold execRet
  rw [wp_bind, wp_get, hup, hpg]
  dsimp only
  rw [add64_eq (by omega), wp_bind]
  unfold onMem
  rw [wp_zoom]
  refine wp_mono (wp_and halloc (wp_result _)) ?_ fun _ _ hA => hA.1
  rintro r m₁ ⟨⟨rfl, hm₁⟩ | ⟨rfl, S₁, hm₁, hg⟩, hrun⟩
  · -- there is no memory for the stack
    rw [if_pos rfl, wp_bind]
    refine wp_execBad hm₁ h.root htable fun t => (wp_pure _).2 (Or.inl ⟨rfl, Or.inl ?_⟩)
    rw [hrun]
    rfl
  have hval : (uvmalloc pt (P * 4096) (P * 4096 + 2 * 4096) 4#32 s.mem).value ≠ some 0 := by
    rw [hrun]
    show some (P * 4096 + 2 * 4096) ≠ some 0
    simp
  rw [if_neg (by omega), wp_bind, wp_zoom, sub64_eq (by omega) (by omega), sub64_eq (by omega) (by omega)]
  have hguard : (vpn (P * 4096 + 2 * 4096 - 2 * 4096)).val = P := by
    rw [vpn_val (by show _ < 2 ^ 38; omega)]
    omega
  obtain ⟨pte, hc, hf⟩ := hg.new (vpn (P * 4096 + 2 * 4096 - 2 * 4096)) (by omega) (by omega)
  refine wp_uvmclear hm₁ (by rw [hg.root]; exact h.root) (by show _ < 2 ^ 38; omega)
    (not_reserved_of_lt (by omega)) hc fun m₂ hm₂ => ?_
  have htab₂ := htable.stack (by omega) hg hguard hc
  have hroot₂ : S₁.root none = some pt := by rw [hg.root, h.root]
  have hw : ∀ a, P * 4096 + 4096 ≤ a → a < P * 4096 + 4096 + 4096 →
      Writable (S₁.setCell none (vpn (P * 4096 + 2 * 4096 - 2 * 4096))
        (some (pte &&& ~~~PTEU, Words.fill 0))) none a := by
    intro a hlo hhi
    have hlt : a < MAXVA := by
      show _ < 2 ^ 38
      omega
    have hva : (vpn a).val = P + 1 := by
      rw [vpn_val hlt]
      omega
    obtain ⟨pte', hc', hf'⟩ := hg.new (vpn a) (by omega) (by omega)
    have hflag : ∀ fl, 0x3FF#64 &&& fl = fl → hasFlag pte' fl = hasFlag (heapPerm 4#32 ||| PTEV) fl := by
      intro fl hfl
      rw [← hf', hasFlag_pteFlags hfl]
    refine ⟨(pte', Words.fill 0), userPage_eq_some.2 ⟨hlt, ?_, ?_⟩, ?_⟩
    · rw [MemMap.cell_setCell, if_neg fun hcon => ?_, hc']
      have := congrArg Fin.val hcon.2
      omega
    · rw [hflag _ (by decide)]
      decide
    · rw [hflag _ (by decide)]
      decide
  have htop : P * 4096 + 2 * 4096 = P * 4096 + 4096 + 4096 := by omega
  have hbase : P * 4096 + 2 * 4096 - 4096 = P * 4096 + 4096 := by omega
  rw [hbase, wp_bind]
  rw [htop] at hval ⊢
  refine wp_mono (wp_pushArgv hm₂ hroot₂ (by omega) (by omega) (by omega) hw hlen hn) ?_ fun _ _ => id
  rintro r t ⟨m₃, S₃, rfl, hm₃, hpush, hyes, hno⟩
  have hroot₃ : S₃.root none = some pt := by rw [hpush.root]; exact hroot₂
  by_cases hfit : argBytes argv ≤ 4096
  swap
  · -- the arguments do not fit
    rw [hno (by omega)]
    dsimp only
    rw [wp_bind]
    exact wp_execBad hm₃ hroot₃ (htab₂.of_keys hpush.keys) fun t =>
      (wp_pure _).2 (Or.inl ⟨rfl, Or.inr (by omega)⟩)
  obtain ⟨hres, hstr, harr⟩ := hyes hfit
  rw [hres]
  dsimp only
  have hother : S₃.cell (some p) = S.cell (some p) := by
    rw [hpush.other _ (Option.some_ne_none p)]
    funext v
    rw [MemMap.cell_setCell, if_neg fun hcon => Option.some_ne_none p hcon.1]
    exact hg.frame (some p) v fun hcon => Option.some_ne_none p hcon.1
  have holdroot : S₃.root (some p) = some (s.proc p).pagetable := by
    rw [hpush.root]
    exact (congrFun hg.root (some p)).trans h.oldRoot
  have hbox : S₃.box (.frame p) = some ((s.proc p).trapframe, pgf) := by
    rw [hpush.box]
    exact (congrFun hg.box (.frame p)).trans hframe
  refine wp_execCommitted hm₃ holdroot (h.oldTable.of_eq hother) hbox fun t S₄ hm₄ hroot₄ hcell₄
    hspace hregs => ?_
  have hr₄ : S₄.root none = some pt := hroot₄.trans hroot₃
  have hargs : argBytes argv = stringBytes argv + round16 ((argv.length + 1) * 8) := rfl
  have hr16 := le_round16 ((argv.length + 1) * 8)
  have hmod := round16_mod ((argv.length + 1) * 8)
  have hsmod := stringBytes_mod argv
  refine Or.inr ⟨rfl, hval, hfit, ?_⟩
  constructor
  case space => exact hspace
  case regs => exact hregs
  case pointers =>
    have hread := copyin_of_reads hm₄ hr₄ (by omega) (harr.congr hcell₄)
    rwa [length_flatMap_leBytes, length_append, length_argAddrs, length_singleton] at hread
  case strings =>
    have hmono : ∀ a (arg : List Byte), 0 ≤ a → Reads S₃ none a (arg ++ [0]) →
        copyin t.mem pt a (arg.length + 1) = (arg ++ [0], true) := by
      intro a arg _ hl
      obtain ⟨x, hx, -⟩ := hl 0 (by simp)
      have hlt := (userPage_eq_some.1 hx).1
      have hmax : MAXVA < 2 ^ 64 := by decide
      have hread := copyin_of_reads hm₄ hr₄ (by omega) (hl.congr hcell₄)
      rwa [length_append, length_singleton] at hread
    exact forall₂_argAddrs_mono hmono (by omega) hstr
  case aligned => exact ⟨by omega, argAddrs_mod (by omega) (by omega)⟩
  case inside =>
    rw [hpg]
    omega
  case disjoint => exact fun i a arg ha harg => argAddrs_disjoint (by omega) i ha harg

/-- **Arguments reach the new program intact.**  `exec` returns -1 exactly when there is no memory for the
stack or the arguments do not fit one page; otherwise it returns their number, and the user reads them where
the registers say. -/
theorem exec_args {sz : ℕ} (entry : ℕ) (argv : List (List Byte)) (h : ExecReady s p pt sz S)
    (hn : argv.length < MAXARG)
    (hlen : ∀ arg ∈ argv, arg.length < PGSIZE) :
    ∃ r t, execRet p pt sz entry argv s = .ok r t ∧
      (r = -1 ↔ (uvmalloc pt (pgRoundUp sz) (add64 (pgRoundUp sz) (2 * PGSIZE)) 4#32 s.mem).value = some 0 ∨
        PGSIZE < argBytes argv) ∧
      (r ≠ -1 → r = argv.length ∧ ∃ sp, ArgsReach t p pt (pgRoundUp sz + 2 * PGSIZE)
      (s.proc p).trapframe argv sp) := by
  obtain ⟨r, t, hrun, hcases⟩ := wp_returns (wp_execRet h hn hlen) fun _ _ => id
  refine ⟨r, t, hrun, ?_⟩
  rcases hcases with ⟨hr, hwhy⟩ | ⟨hr, hval, hfit, hreach⟩
  · exact ⟨iff_of_true hr hwhy, fun hne => absurd hr hne⟩
  · have hne : r ≠ -1 := by omega
    refine ⟨iff_of_false hne ?_, fun _ => ⟨hr, _, hreach⟩⟩
    rintro (hv | hlt)
    · exact hval hv
    · omega

/-! ### A program without segments -/

/-- The trapframe and the two tables of a process in `exec`. -/
def execTables : Prog Mem (ℕ × ℕ × ℕ) := do
  let trapframe ← kalloc
  let old ← procPagetable trapframe
  let new ← procPagetable trapframe
  return (trapframe, old, new)

def execMem : Mem := (execTables bootMem).state

theorem execTables_value : (execTables bootMem).value = some (0x80100000, 0x80101000, 0x80104000) := by
  decide +kernel

theorem wp_execTables : wp execTables (fun r m => r.1 ≠ 0 → r.2.1 ≠ 0 → r.2.2 ≠ 0 → ∃ S : KMap, Rep m S ∧
    S.root none = some r.2.2 ∧ TableOk S none 0 (fun _ => False) ∧ S.root (some 0) = some r.2.1 ∧
    TableOk S (some 0) 0 (fun _ => False) ∧ (∃ pg, S.box (.frame 0) = some (r.1, pg)) ∧ S.box .hand = none)
    (fun _ _ => True) bootMem := by
  have hboot : Rep bootMem (⟨fun _ => none, fun _ _ => none, fun _ => none⟩ : KMap) :=
    rep_unused (by decide) (by decide) (by unfold PageOk; decide)
  unfold execTables
  rw [wp_bind]
  refine wp_kalloc hboot (fun h => absurd h (by decide)) fun tf m₁ hm₁ _ => ?_
  rw [wp_bind]
  refine wp_procPagetable (q := some 0) (hm₁.box (.frame 0)) rfl tf (fun m₂ _ => ?_)
    fun old m₂ S₂ _ hm₂ hnew => ?_
  · exact wp_bind_any fun _ _ => (wp_pure _).2 fun _ h => absurd rfl h
  have hroot : S₂.root none = none := by
    rw [hnew.root]
    rfl
  rw [wp_bind]
  refine wp_procPagetable hm₂ hroot tf (fun m₃ _ => ?_) fun new m₃ S₃ _ hm₃ hnew' => ?_
  · exact (wp_pure _).2 fun _ _ h => absurd rfl h
  refine (wp_pure _).2 fun _ _ _ => ⟨S₃, hm₃, ?_, hnew'.ok, ?_, ?_, ⟨m₁.page tf, ?_⟩, ?_⟩
  · rw [hnew'.root, update_self]
  · rw [hnew'.root, update_of_ne (by decide), hnew.root, update_self]
  · exact hnew.ok.of_eq (hnew'.other (some 0) (by decide))
  · rw [hnew'.box, hnew.box, MemMap.box_setBox_self]
  · rw [hnew'.box, hnew.box, MemMap.box_setBox_of_ne _ (by decide)]

/-- A process in `exec` of a program without segments. -/
def execState : Kernel :=
  (initial execMem bootFs).updProc 0 fun pr => { pr with pagetable := 0x80101000, trapframe := 0x80100000 }

theorem execReady_execState : ∃ S, ExecReady execState 0 0x80104000 0 S := by
  obtain ⟨S, h1, h2, h3, h4, h5, h6, h7⟩ :=
    wp_ok wp_execTables (Res.eq_ok_of_value execTables_value) (by decide) (by decide) (by decide)
  exact ⟨S, h1, h2, h3, h4, h5, h6, h7⟩

/-- It gets two arguments. -/
theorem exec_args_execState : ∃ r t, execRet 0 0x80104000 0 0 [[101, 99], [104, 105]] execState = .ok r t ∧
    (r ≠ -1 → r = 2 ∧ ∃ sp, ArgsReach t 0 0x80104000 8192 0x80100000 [[101, 99], [104, 105]] sp) := by
  obtain ⟨S, hready⟩ := execReady_execState
  obtain ⟨r, t, hrun, -, hreach⟩ := exec_args 0 [[101, 99], [104, 105]] hready (by decide) (by decide)
  exact ⟨r, t, hrun, hreach⟩

end Xv6
