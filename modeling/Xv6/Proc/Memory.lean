import Xv6.Proc.Layout
import Xv6.Vm.Copy
import Xv6.Vm.Free

/-!
# What the kernel uses its memory for

Every process has a page table and a trapframe, and `exec` holds a table it is building and the pages of
its arguments.  `KInv s S` says that the memory of the kernel represents the map `S` that belongs to its
processes, and that every page table maps its heap, the trampoline, the trapframe, and nothing else.  So
it is when no process has mapped a file and there are no pipes.

Main results: `Loading.change`, through which every change to one process goes, and `wp_fileread_mem`.
-/

namespace Xv6

open Stateful Function

attribute [local irreducible] wp

/-! ### Names -/

/-- The page tables: one for each process, and one that is being built. -/
abbrev Tbl := Option (Fin NPROC)

/-- The pages the kernel holds. -/
inductive Held
  /-- The trapframe of a process. -/
  | frame (p : Fin NPROC)
  /-- An argument of `exec`. -/
  | arg (i : ℕ)
  /-- A page just allocated. -/
  | hand
  deriving DecidableEq

/-- The map of the kernel. -/
abbrev KMap := MemMap Tbl Held

/-- A pointer, which may be null. -/
def ptr (a : ℕ) : Option ℕ := if a = 0 then none else some a

theorem ptr_of_ne {a : ℕ} (h : a ≠ 0) : ptr a = some a := if_neg h

@[simp] theorem ptr_zero : ptr 0 = none := rfl

/-! ### The invariant -/

/-- A page table maps its heap, the trampoline and the trapframe; what else it maps for the user is in
`region`. -/
structure TableOk (S : KMap) (q : Tbl) (sz : ℕ) (region : Vpn → Prop) : Prop where
  small : sz ≤ TRAPFRAME
  heap : ∀ v : Vpn, v.val < pages sz → ∃ pte pg, S.cell q v = some (pte, pg) ∧ pteFlags pte ≠ PTEV
  above : ∀ v pte pg, pages sz ≤ v.val → ¬ Reserved v → S.cell q v = some (pte, pg) →
    hasFlag pte PTEU = true ∧ region v
  kernel : ∀ v, Reserved v → ∃ pte pg, S.cell q v = some (pte, pg) ∧ pteFlags pte ≠ PTEV

/-- The page table and the trapframe of a process are its own, and its table maps what it should. -/
structure ProcOk (S : KMap) (p : Fin NPROC) (pr : Proc) : Prop where
  root : S.root (some p) = ptr pr.pagetable
  frame : (S.box (.frame p)).map Prod.fst = ptr pr.trapframe
  space : pr.pagetable ≠ 0 → TableOk S (some p) pr.sz fun _ => False
  empty : pr.pagetable = 0 → pr.sz = 0
  idle : ∀ i, (pr.vma i).valid = false
  unused : pr.state = .unused → pr.pagetable = 0 ∧ pr.trapframe = 0
  live : pr.state = .runnable → pr.pagetable ≠ 0 ∧ pr.trapframe ≠ 0

def File.isPipe (fl : File) : Bool := fl.type = .pipe

/-- What the processes use the memory for.  In the middle of `exec` there are the table `pt` of
size `sz` that is being built, unless `pt` is 0, and argument `i` in page `args i`. -/
structure Loading (s : Kernel) (S : KMap) (pt sz : ℕ) (args : ℕ → Option ℕ) : Prop where
  rep : Rep s.mem S
  proc : ∀ p, ProcOk S p (s.proc p)
  files : ∀ f, (s.file f).isPipe = false
  hand : S.box .hand = none
  root : S.root none = ptr pt
  table : pt ≠ 0 → TableOk S none sz fun _ => False
  arg : ∀ i, (S.box (.arg i)).map Prod.fst = args i

/-- **What the kernel uses its memory for** between system calls. -/
abbrev KInv (s : Kernel) (S : KMap) : Prop := Loading s S 0 0 fun _ => none

/-- The invariant holds for some map. -/
def KOk (s : Kernel) : Prop := ∃ S, KInv s S

/-- The kernel did not stop because a page or a page table was not as it should be. -/
def NoVmPanic (w : Stop) : Prop :=
  ∀ msg ∈ ["kfree", "walk", "mappages: va not aligned", "mappages: size not aligned", "mappages: size",
    "uvmunmap: not aligned", "uvmunmap: walk", "uvmunmap: not mapped", "uvmunmap: not a leaf",
    "freewalk: leaf", "uvmcopy: pte should exist", "uvmcopy: page not present", "uvmclear"],
    w ≠ .panic msg

theorem NoVmPanic.fs {w : Stop} (h : FsPanic w) : NoVmPanic w := by
  obtain ⟨msg, hmsg, rfl⟩ := h
  intro msg' hmsg' hc
  rw [Stop.panic.injEq] at hc
  subst hc
  revert hmsg hmsg'
  simp only [fsMessages, List.mem_cons, List.not_mem_nil, or_false]
  rintro (rfl | rfl | rfl | rfl | rfl) <;> decide

/-! ### What the invariant looks at -/

/-- The fields of a process that matter for its memory. -/
structure MemProc where
  state : ProcState
  sz : ℕ
  pagetable : ℕ
  trapframe : ℕ
  vma : Fin VMAMAX → Vma

def Proc.memory (pr : Proc) : MemProc := ⟨pr.state, pr.sz, pr.pagetable, pr.trapframe, pr.vma⟩

namespace Kernel

variable {α : Type} {s t : Kernel} {S : KMap} {p : Fin NPROC}

/-- What the invariant looks at. -/
def memory (s : Kernel) : Mem × (Fin NPROC → MemProc) × (Fin NFILE → Bool) :=
  (s.mem, fun p => (s.proc p).memory, fun f => (s.file f).isPipe)

/-- The program does not touch what the invariant looks at. -/
abbrev Still (x : Prog Kernel α) : Prop := Keeps memory NoVmPanic x

@[simp] theorem proc_updProc_self (s : Kernel) (p : Fin NPROC) (g : Proc → Proc) :
    (s.updProc p g).proc p = g (s.proc p) := update_self _ _ _

theorem proc_updProc_of_ne (s : Kernel) {p q : Fin NPROC} (h : q ≠ p) (g : Proc → Proc) :
    (s.updProc p g).proc q = s.proc q := update_of_ne h _ _

theorem memory_updProc {g : Proc → Proc} (h : (g (s.proc p)).memory = (s.proc p).memory) :
    (s.updProc p g).memory = s.memory := by
  have hproc : (fun q => (update s.proc p (g (s.proc p)) q).memory) =
      fun q => (s.proc q).memory := by
    funext q
    by_cases hq : q = p
    · rw [hq, update_self, h]
    · rw [update_of_ne hq]
  unfold memory updProc
  rw [hproc]

theorem memory_updFile {f : Fin NFILE} {g : File → File}
    (h : (g (s.file f)).isPipe = (s.file f).isPipe) : (s.updFile f g).memory = s.memory := by
  have hfile : (fun q => (update s.file f (g (s.file f)) q).isPipe) =
      fun q => (s.file q).isPipe := by
    funext q
    by_cases hq : q = f
    · rw [hq, update_self, h]
    · rw [update_of_ne hq]
  unfold memory updFile
  rw [hfile]

theorem still_updFile {g : File → File} (f : Fin NFILE) (h : ∀ fl, (g fl).isPipe = fl.isPipe) :
    Still (Prog.modify fun s => s.updFile f g) := keeps_modify fun _ => memory_updFile (h _)

theorem still_onFs {x : Prog Fs α} (h : Stops FsPanic x) : Still (onFs x) :=
  keeps_zoom (fun _ _ => rfl) (h.mono fun _ => NoVmPanic.fs)

theorem still_panic {msg : String} (h : NoVmPanic (.panic msg)) :
    Still (Prog.panic msg : Prog Kernel α) := keeps_panic h

theorem still_lockFile (f : Fin NFILE) : Still (lockFile f) := by
  unfold lockFile
  refine keeps_bind keeps_get fun s => ?_
  cases (s.file f).ip with
  | none => exact still_panic (by simp [NoVmPanic])
  | some e => exact keeps_bind (still_onFs (Fs.ilock_stops e)) fun _ => keeps_pure e

theorem still_writeLoop (p : Fin NPROC) (f : Fin NFILE) (addr n fuel i : ℕ) :
    Still (writeLoop p f addr n fuel i) := by
  induction fuel generalizing i with
  | zero => exact keeps_pure _
  | succ fuel ih =>
    rw [writeLoop]
    refine keeps_when fun _ => ?_
    refine keeps_bind (still_lockFile f) fun e => keeps_bind keeps_get fun s =>
      keeps_bind (still_onFs (Fs.writei_stops _ _ _ _)) fun r => ?_
    have hrest : Still (if r ≠ BitVec.ofNat 32 (min (n - i) MAXWRITE) then pure false
        else writeLoop p f addr n fuel (i + min (n - i) MAXWRITE)) :=
      keeps_unless fun _ => ih _
    exact keeps_ite (fun _ => keeps_bind (still_updFile f fun _ => rfl) fun _ => hrest) fun _ => hrest

theorem still_filewrite (p : Fin NPROC) (f : Fin NFILE) (addr : ℕ) (n : BitVec 32) :
    Still (filewrite p f addr n) := by
  unfold filewrite
  refine keeps_bind keeps_get fun s => keeps_unless fun _ => ?_
  cases (s.file f).type with
  | pipe => exact keeps_pure _
  | device => exact keeps_pure _
  | inode => exact keeps_unless fun _ => still_writeLoop p f addr _ _ _
  | none => exact still_panic (by simp [NoVmPanic])

theorem still_filedup (f : Fin NFILE) : Still (filedup f) := by
  constructor
  intro s
  unfold filedup
  rw [wp_bind, wp_get]
  split_ifs
  · exact (wp_panic _).2 (by simp [NoVmPanic])
  · exact (wp_set _).2 (memory_updFile rfl)

theorem memory_setOfile (s : Kernel) (p : Fin NPROC) (fd : Fin NOFILE) (f : Option (Fin NFILE)) :
    (s.setOfile p fd f).memory = s.memory := memory_updProc rfl

theorem still_setOfile (p : Fin NPROC) (fd : Fin NOFILE) (f : Option (Fin NFILE)) :
    Still (Prog.modify fun s => s.setOfile p fd f) := keeps_modify fun s => memory_setOfile s p fd f

theorem still_fdalloc (p : Fin NPROC) (f : Fin NFILE) : Still (fdalloc p f) := by
  constructor
  intro s
  unfold fdalloc
  rw [wp_bind, wp_get]
  cases (List.finRange NOFILE).find? fun fd => (s.proc p).ofile fd = none with
  | none => exact (wp_pure _).2 rfl
  | some fd =>
    rw [wp_bind, wp_set, wp_pure]
    exact memory_setOfile s p fd (some f)

theorem still_sysDup (p : Fin NPROC) (fd : Fin NOFILE) : Still (sysDup p fd) := by
  unfold sysDup
  refine keeps_bind keeps_get fun s => ?_
  cases (s.proc p).ofile fd with
  | none => exact keeps_pure ()
  | some f =>
    refine keeps_bind (still_fdalloc p f) fun r => ?_
    cases r with
    | none => exact keeps_pure ()
    | some fd' => exact still_filedup f

end Kernel

open Kernel

variable {s t : Kernel} {S S' : KMap} {p : Fin NPROC} {pt sz : ℕ} {args : ℕ → Option ℕ}

/-! ### Changing the kernel -/

theorem TableOk.of_eq {q q' : Tbl} {sz : ℕ} {region : Vpn → Prop} (h : TableOk S q sz region)
    (hc : S'.cell q' = S.cell q) : TableOk S' q' sz region := by
  constructor
  · exact h.small
  · rw [hc]
    exact h.heap
  · rw [hc]
    exact h.above
  · rw [hc]
    exact h.kernel

theorem TableOk.cell_ne_none {q : Tbl} {sz : ℕ} {region : Vpn → Prop} (h : TableOk S q sz region) {v : Vpn}
    (hv : v.val < pages sz) : S.cell q v ≠ none := by
  obtain ⟨pte, pg, hc, -⟩ := h.heap v hv
  simp [hc]

theorem TableOk.cell_none {q : Tbl} {sz : ℕ} (h : TableOk S q sz fun _ => False) {v : Vpn}
    (hv : pages sz ≤ v.val) (hres : ¬ Reserved v) : S.cell q v = none := by
  cases hc : S.cell q v with
  | none => rfl
  | some x => exact absurd (h.above v _ _ hv hres hc).2 id

/-- The entries matter, not the contents of the pages. -/
theorem TableOk.of_keys {q : Tbl} {sz : ℕ} {region : Vpn → Prop} (h : TableOk S q sz region)
    (hc : ∀ v, (S'.cell q v).map Prod.fst = (S.cell q v).map Prod.fst) : TableOk S' q sz region := by
  have hsome : ∀ (T T' : KMap) v pte pg, (T'.cell q v).map Prod.fst = (T.cell q v).map Prod.fst →
      T.cell q v = some (pte, pg) → ∃ pg', T'.cell q v = some (pte, pg') := by
    intro T T' v pte pg heq hv
    rw [hv] at heq
    obtain ⟨⟨pte', pg'⟩, h1, h2⟩ := Option.map_eq_some_iff.1 heq
    exact ⟨pg', by rw [h1, show pte' = pte from h2]⟩
  constructor
  · exact h.small
  · intro v hv
    obtain ⟨pte, pg, h1, h2⟩ := h.heap v hv
    obtain ⟨pg', h3⟩ := hsome S S' v pte pg (hc v) h1
    exact ⟨pte, pg', h3, h2⟩
  · intro v pte pg hv hres hs
    obtain ⟨pg', h1⟩ := hsome S' S v pte pg (hc v).symm hs
    exact h.above v pte pg' hv hres h1
  · intro v hv
    obtain ⟨pte, pg, h1, h2⟩ := h.kernel v hv
    obtain ⟨pg', h3⟩ := hsome S S' v pte pg (hc v) h1
    exact ⟨pte, pg', h3, h2⟩

theorem Proc.memory_eq {pr pr' : Proc} (h : pr'.memory = pr.memory) :
    pr'.state = pr.state ∧ pr'.sz = pr.sz ∧ pr'.pagetable = pr.pagetable ∧
      pr'.trapframe = pr.trapframe ∧ pr'.vma = pr.vma := by
  unfold Proc.memory at h
  simpa using h

theorem ProcOk.of_eq {pr pr' : Proc} (h : ProcOk S p pr) (hm : pr'.memory = pr.memory)
    (hroot : S'.root (some p) = S.root (some p))
    (hframe : (S'.box (.frame p)).map Prod.fst = (S.box (.frame p)).map Prod.fst)
    (hcell : S'.cell (some p) = S.cell (some p)) : ProcOk S' p pr' := by
  obtain ⟨h1, h2, h3, h4, h5⟩ := Proc.memory_eq hm
  constructor
  · rw [hroot, h3]
    exact h.root
  · rw [hframe, h4]
    exact h.frame
  · rw [h2, h3]
    exact fun hne => (h.space hne).of_eq hcell
  · rw [h2, h3]
    exact h.empty
  · rw [h5]
    exact h.idle
  · rw [h1, h3, h4]
    exact h.unused
  · rw [h1, h3, h4]
    exact h.live

/-- The memory of a process changes, and not where its table and its trapframe are. -/
theorem ProcOk.remap {pr pr' : Proc} (h : ProcOk S p pr) (hroot : S'.root (some p) = S.root (some p))
    (hframe : (S'.box (.frame p)).map Prod.fst = (S.box (.frame p)).map Prod.fst)
    (hpt : pr'.pagetable = pr.pagetable) (htf : pr'.trapframe = pr.trapframe)
    (hst : pr'.state = pr.state)
    (hspace : pr.pagetable ≠ 0 → TableOk S' (some p) pr'.sz fun _ => False)
    (hempty : pr.pagetable = 0 → pr'.sz = 0) (hvma : pr'.vma = pr.vma) : ProcOk S' p pr' := by
  constructor
  · rw [hroot, hpt]
    exact h.root
  · rw [hframe, htf]
    exact h.frame
  · rwa [hpt]
  · rwa [hpt]
  · rw [hvma]
    exact h.idle
  · rw [hst, hpt, htf]
    exact h.unused
  · rw [hst, hpt, htf]
    exact h.live

/-- **The invariant looks at `memory` only.** -/
theorem Loading.of_memory (h : Loading s S pt sz args) (ht : t.memory = s.memory) :
    Loading t S pt sz args := by
  unfold Kernel.memory at ht
  simp only [Prod.mk.injEq] at ht
  obtain ⟨hmem, hproc, hfile⟩ := ht
  refine { h with rep := ?_, proc := fun p => ?_, files := fun f => (congrFun hfile f).trans (h.files f) }
  · rw [hmem]
    exact h.rep
  · exact (h.proc p).of_eq (congrFun hproc p) rfl rfl rfl

theorem box_none_of_eq {k : Held} (hbox : (S'.box k).map Prod.fst = (S.box k).map Prod.fst)
    (hk : S.box k = none) : S'.box k = none := by
  rw [hk] at hbox
  exact Option.map_eq_none_iff.1 hbox

/-- **One process changes**, with its page table and its trapframe. -/
theorem Loading.change (h : Loading s S pt sz args) (p : Fin NPROC) (hrep : Rep t.mem S')
    (hp : ProcOk S' p (t.proc p)) (hproc : ∀ r, r ≠ p → (t.proc r).memory = (s.proc r).memory)
    (hroot : ∀ r, r ≠ some p → S'.root r = S.root r)
    (hcell : ∀ r, r ≠ some p → S'.cell r = S.cell r)
    (hbox : ∀ k, k ≠ .frame p → (S'.box k).map Prod.fst = (S.box k).map Prod.fst)
    (hfile : t.file = s.file) : Loading t S' pt sz args := by
  constructor
  · exact hrep
  · intro r
    by_cases hr : r = p
    · rwa [hr]
    · have hne : (some r : Tbl) ≠ some p := fun hc => hr (Option.some_inj.1 hc)
      exact (h.proc r).of_eq (hproc r hr) (hroot _ hne) (hbox _ fun hc => hr (Held.frame.inj hc))
        (hcell _ hne)
  · rw [hfile]
    exact h.files
  · exact box_none_of_eq (hbox _ (by simp)) h.hand
  · rw [hroot none (by simp)]
    exact h.root
  · exact fun hne => (h.table hne).of_eq (hcell none (by simp))
  · intro i
    rw [hbox _ (by simp)]
    exact h.arg i

/-- The memory changes, and the processes stay as they are. -/
theorem Loading.onMem (h : Loading s S pt sz args) {m : Mem} (p : Fin NPROC) (hrep : Rep m S')
    (hroot : S'.root = S.root)
    (hbox : ∀ k, (S'.box k).map Prod.fst = (S.box k).map Prod.fst)
    (hcell : ∀ r, r ≠ some p → S'.cell r = S.cell r)
    (hspace : (s.proc p).pagetable ≠ 0 → TableOk S' (some p) (s.proc p).sz fun _ => False) :
    Loading { s with mem := m } S' pt sz args :=
  h.change p hrep ((h.proc p).remap (by rw [hroot]) (hbox _) rfl rfl rfl hspace (h.proc p).empty
    rfl) (fun _ _ => rfl) (fun _ _ => by rw [hroot]) hcell (fun k _ => hbox k) rfl

/-! ### Closing files -/

/-- The stops of programs that keep the invariant. -/
abbrev noVmPanic : Stop → Kernel → Prop := fun w _ => NoVmPanic w

theorem Loading.updFile (h : Loading s S pt sz args) {f : Fin NFILE} {g : File → File}
    (hg : (g (s.file f)).isPipe = false) : Loading (s.updFile f g) S pt sz args :=
  h.of_memory (memory_updFile (hg.trans (h.files f).symm))

theorem KOk.still {α : Type} {x : Prog Kernel α} (h : KOk s) (hx : Still x) :
    wp x (fun _ t => KOk t) noVmPanic s := by
  obtain ⟨S, hS⟩ := h
  exact hx.wp_post fun _ _ ht => ⟨S, hS.of_memory ht⟩

theorem wp_fileclose_mem (h : KOk s) (f : Fin NFILE) : wp (fileclose f) (fun _ t => KOk t) noVmPanic s := by
  obtain ⟨S, h⟩ := h
  unfold fileclose
  rw [wp_bind, wp_get]
  dsimp only
  split_ifs with h1 h2
  · exact (wp_panic _).2 (by simp [NoVmPanic])
  · exact (wp_set _).2 ⟨S, h.of_memory (memory_updFile rfl)⟩
  rw [wp_bind, wp_set]
  have hnone : KOk (s.updFile f fun fl => { fl with ref := 0, type := .none }) := ⟨S, h.updFile rfl⟩
  have hinode : Still (deref (s.file f).ip >>= fun e => onFs (Fs.iput e)) := by
    cases (s.file f).ip with
    | none => exact keeps_bind (still_panic (by simp [NoVmPanic])) fun e => still_onFs (Fs.iput_stops e)
    | some e => exact still_onFs (Fs.iput_stops e)
  cases htype : (s.file f).type with
  | pipe => exact absurd htype (of_decide_eq_false (h.files f))
  | inode => exact hnone.still hinode
  | device => exact hnone.still hinode
  | none => exact (wp_pure _).2 hnone

/-! ### Reading and registers -/

theorem Loading.root_of_ne (h : Loading s S pt sz args) (hp : (s.proc p).pagetable ≠ 0) :
    S.root (some p) = some (s.proc p).pagetable := by
  rw [(h.proc p).root, ptr_of_ne hp]

theorem Loading.root_some (h : Loading s S pt sz args) (hp : (s.proc p).state = .runnable) :
    S.root (some p) = some (s.proc p).pagetable := h.root_of_ne ((h.proc p).live hp).1

theorem Loading.rewritten (h : Loading s S pt sz args) {m : Mem} {q : Tbl} (hrep : Rep m S')
    (hw : Rewritten S S' q) : Loading { s with mem := m } S' pt sz args := by
  have hkeys : ∀ q' v, (S'.cell q' v).map Prod.fst = (S.cell q' v).map Prod.fst := by
    intro q' v
    by_cases hq : q' = q
    · rw [hq]
      exact hw.entry v
    · rw [hw.other q' hq]
  have hproc : ∀ p, ProcOk S' p (s.proc p) := fun p => (h.proc p).remap (by rw [hw.root]) (by rw [hw.box])
    rfl rfl rfl (fun hne => ((h.proc p).space hne).of_keys (hkeys _)) (h.proc p).empty rfl
  refine ⟨hrep, hproc, h.files, ?_, ?_, fun hne => (h.table hne).of_keys (hkeys _), ?_⟩
  · rw [hw.box]
    exact h.hand
  · rw [hw.root]
    exact h.root
  · rw [hw.box]
    exact h.arg

theorem KInv.copyout (h : KInv s S) (hr : S.root (some p) = some (s.proc p).pagetable) (a : ℕ)
    (bytes : List Byte) :
    ∃ S', KInv { s with mem := (copyout s.mem (s.proc p).pagetable a bytes).1 } S' ∧
      Rewritten S S' (some p) := by
  by_cases ha : MAXVA ≤ a
  · rw [copyout_of_le ha]
    exact ⟨S, h, Rewritten.refl _ _⟩
  · obtain ⟨-, S', n, hrep, hw, -⟩ := rep_copyout h.rep hr bytes
      (lt_trans (not_le.1 ha) (by decide : MAXVA < 2 ^ 64))
    exact ⟨S', h.rewritten hrep hw.rewritten, hw.rewritten⟩

theorem add64_lt (a b : ℕ) : add64 a b < 2 ^ 64 := Nat.mod_lt _ (by decide)

theorem wp_fileread_mem (h : KInv s S) (hp : (s.proc p).state = .runnable) (f : Fin NFILE) (addr : ℕ)
    (n : BitVec 32) : wp (fileread p f addr n) (fun _ t => KOk t) noVmPanic s := by
  unfold fileread
  rw [wp_bind, wp_get]
  dsimp only
  split_ifs with hread
  swap
  · exact (wp_pure _).2 ⟨S, h⟩
  refine (still_lockFile f).wp_seq fun e s₁ h1 => ?_
  have hinv := h.of_memory h1
  have hp₁ : (s₁.proc p).state = .runnable := by
    have := congrArg (fun x => (x.2.1 p).state) h1
    exact this.trans hp
  have hr := hinv.root_some hp₁
  rw [wp_bind, wp_get]
  unfold onFs
  rw [wp_bind, wp_zoom]
  refine wp_mono (Fs.wp_readi_sink (I := fun m => ∃ S', Rep m S' ∧ Rewritten S S' (some p)) ?_ e _ _
    ⟨S, hinv.rep, Rewritten.refl _ _⟩ s₁.fs) (fun r t ht => ?_) fun _ _ hw => NoVmPanic.fs hw
  · rintro m tot bytes ⟨S', hrep, hw⟩
    obtain ⟨-, S'', k, hrep', hw', -⟩ := rep_copyout hrep (by rwa [hw.root]) bytes
      (add64_lt addr tot)
    exact ⟨S'', hrep', hw.trans hw'.rewritten⟩
  · obtain ⟨S', hrep, hw⟩ := ht
    have hend : KInv { s₁ with fs := t, mem := r.1 } S' :=
      (hinv.rewritten hrep hw).of_memory rfl
    rw [wp_bind, wp_modify]
    split_ifs
    · exact (wp_modify _).2 ⟨S', hend.of_memory (memory_updFile rfl)⟩
    · exact (wp_pure _).2 ⟨S', hend⟩

theorem Loading.frame_box (h : Loading s S pt sz args) (htf : (s.proc p).trapframe ≠ 0) :
    ∃ pg, S.box (.frame p) = some ((s.proc p).trapframe, pg) := by
  have hf := (h.proc p).frame
  rw [ptr_of_ne htf] at hf
  obtain ⟨⟨a, pg⟩, hk, ha⟩ := Option.map_eq_some_iff.1 hf
  exact ⟨pg, by rw [hk]; exact congrArg (fun x => some (x, pg)) ha⟩

theorem box_setBox_fst {k : Held} {a : ℕ} {pg : Page} (hk : S.box k = some (a, pg))
    (pg' : Page) (k' : Held) :
    ((S.setBox k (some (a, pg'))).box k').map Prod.fst = (S.box k').map Prod.fst := by
  by_cases hkk : k' = k
  · rw [hkk, MemMap.box_setBox_self, hk]
    rfl
  · rw [MemMap.box_setBox_of_ne S hkk]

theorem Loading.setBox (h : Loading s S pt sz args) {k : Held} {a : ℕ} {pg : Page}
    (hk : S.box k = some (a, pg))
    (pg' : Page) :
    Loading { s with mem := s.mem.setPage a pg' } (S.setBox k (some (a, pg'))) pt sz args :=
  h.onMem initproc (h.rep.setBox hk pg') rfl (box_setBox_fst hk pg') (fun _ _ => rfl)
    fun hne => ((h.proc _).space hne).of_eq rfl

theorem Loading.setReg {Q : Unit → Kernel → Prop} {tf : ℕ} (h : Loading s S pt sz args)
    (htf : (s.proc p).trapframe = tf) (h0 : tf ≠ 0) (r : Fin NPTE) (v : ℕ)
    (hQ : ∀ m S', Loading { s with mem := m } S' pt sz args → Q () { s with mem := m }) :
    wp (Kernel.setReg tf r v) Q noVmPanic s := by
  obtain ⟨pg, hk⟩ := h.frame_box (by rwa [htf])
  rw [htf] at hk
  unfold Kernel.setReg Kernel.onMem
  rw [wp_zoom, wp_modify]
  exact hQ _ _ (h.setBox hk _)

end Xv6
