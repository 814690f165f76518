import Xv6.Lib.RefCount
import Xv6.Fs.Panics
import Xv6.Vm.Panics
import Xv6.Proc.Sys

/-!
# Who refers to the file table

An entry of the file table is referred to by descriptors and by mapped regions.  `Kernel.refs` shows
these references, the counters, and which processes can run; everything else the kernel does leaves
this view as it is, and stops for reasons other than a bad counter.
-/

namespace Xv6

open Stateful Function

/-- A place that can refer to an entry of the file table. -/
abbrev Holder := Fin NPROC × (Fin NOFILE ⊕ Fin VMAMAX)

/-- The file a region refers to, if it is valid. -/
def Vma.held (v : Vma) : Option (Fin NFILE) := if v.valid then v.f else none

/-- The references of a process. -/
def Proc.hold (pr : Proc) : Fin NOFILE ⊕ Fin VMAMAX → Option (Fin NFILE)
  | .inl fd => pr.ofile fd
  | .inr i => (pr.vma i).held

theorem Proc.hold_ofile (pr : Proc) (fd : Fin NOFILE) (f : Option (Fin NFILE)) :
    ({ pr with ofile := update pr.ofile fd f } : Proc).hold =
      update pr.hold (.inl fd) f := by
  funext x
  cases x with
  | inl fd' =>
    show update pr.ofile fd f fd' = _
    by_cases h : fd' = fd
    · rw [h, update_self, update_self]
    · rw [update_of_ne h, update_of_ne (by simpa using h)]
      rfl
  | inr i => rw [update_of_ne (by simp)]; rfl

theorem Proc.hold_vma (pr : Proc) (i : Fin VMAMAX) (v : Vma) :
    ({ pr with vma := update pr.vma i v } : Proc).hold =
      update pr.hold (.inr i) v.held := by
  funext x
  cases x with
  | inl fd => rw [update_of_ne (by simp)]; rfl
  | inr j =>
    show (update pr.vma i v j).held = _
    by_cases h : j = i
    · rw [h, update_self, update_self]
    · rw [update_of_ne h, update_of_ne (by simpa using h)]
      rfl

/-- The references to the file table, the counters, and the processes that can run. -/
@[ext] structure Refs where
  hold : Holder → Option (Fin NFILE)
  ref : Fin NFILE → ℕ
  live : Fin NPROC → Prop

namespace Refs

/-- A reference changes. -/
def put (r : Refs) (x : Holder) (v : Option (Fin NFILE)) : Refs :=
  { r with hold := update r.hold x v }

/-- The counter of a file changes. -/
def count (r : Refs) (f : Fin NFILE) (n : ℕ) : Refs := { r with ref := update r.ref f n }

/-- A process becomes able to run, or ceases to be. -/
def turn (r : Refs) (p : Fin NPROC) (live : Prop) : Refs :=
  { r with live := update r.live p live }

variable (r : Refs) (x y : Holder) (f g : Fin NFILE)

@[simp] theorem put_ref (v : Option (Fin NFILE)) : (r.put x v).ref = r.ref := rfl
@[simp] theorem put_live (v : Option (Fin NFILE)) : (r.put x v).live = r.live := rfl
@[simp] theorem count_hold (n : ℕ) : (r.count f n).hold = r.hold := rfl
@[simp] theorem count_live (n : ℕ) : (r.count f n).live = r.live := rfl
@[simp] theorem put_hold_self (v : Option (Fin NFILE)) : (r.put x v).hold x = v :=
  update_self ..
@[simp] theorem count_ref_self (n : ℕ) : (r.count f n).ref f = n := update_self ..

variable {r x y f g}

theorem count_ref_of_ne (h : g ≠ f) (n : ℕ) : (r.count f n).ref g = r.ref g :=
  update_of_ne h ..

@[simp] theorem put_put (v w : Option (Fin NFILE)) : (r.put x v).put x w = r.put x w := by
  unfold put
  dsimp only
  rw [update_idem]

@[simp] theorem count_count (m n : ℕ) : (r.count f m).count f n = r.count f n := by
  unfold count
  dsimp only
  rw [update_idem]

theorem put_comm (h : x ≠ y) (v w : Option (Fin NFILE)) :
    (r.put x v).put y w = (r.put y w).put x v := by
  unfold put
  dsimp only
  rw [update_comm h]

theorem count_comm (h : f ≠ g) (m n : ℕ) : (r.count f m).count g n = (r.count g n).count f m := by
  unfold count
  dsimp only
  rw [update_comm h]

theorem put_eq_self {v : Option (Fin NFILE)} (h : r.hold x = v) : r.put x v = r := by
  unfold put
  rw [← h, update_eq_self]

theorem count_eq_self {n : ℕ} (h : r.ref f = n) : r.count f n = r := by
  unfold count
  rw [← h, update_eq_self]

theorem turn_eq_self {p : Fin NPROC} {live : Prop} (h : r.live p = live) : r.turn p live = r := by
  unfold turn
  rw [← h, update_eq_self]

end Refs

/-- The file table is not to blame. -/
def RefSafe (w : Stop) : Prop := w ≠ .panic "filedup" ∧ w ≠ .panic "fileclose"

theorem RefSafe.vm {w : Stop} (h : VmPanic w) : RefSafe w := by
  obtain ⟨msg, hmsg, rfl⟩ := h
  unfold RefSafe
  constructor <;> · rintro ⟨⟩; revert hmsg; decide

theorem RefSafe.fs {w : Stop} (h : FsPanic w) : RefSafe w := by
  obtain ⟨msg, hmsg, rfl⟩ := h
  unfold RefSafe
  constructor <;> · rintro ⟨⟩; revert hmsg; decide

namespace Kernel

variable {α : Type}

/-- What the kernel shows of the references. -/
def refs (s : Kernel) : Refs where
  hold := fun h => (s.proc h.1).hold h.2
  ref := fun f => (s.file f).ref
  live := fun p => (s.proc p).state = .runnable

/-! ### Updates -/

/-- A process keeps its references and may change its state. -/
theorem refs_updProc_live {g : Proc → Proc} {p : Fin NPROC} {s : Kernel}
    (h : (g (s.proc p)).hold = (s.proc p).hold) :
    (s.updProc p g).refs = s.refs.turn p ((g (s.proc p)).state = .runnable) := by
  ext x
  · show _ ∈ (update s.proc p (g (s.proc p)) x.1).hold x.2 ↔ _ ∈ (s.proc x.1).hold x.2
    by_cases hx : x.1 = p
    · rw [hx, update_self, h]
    · rw [update_of_ne hx]
  · rfl
  · show (update s.proc p (g (s.proc p)) x).state = .runnable ↔
      update s.refs.live p ((g (s.proc p)).state = .runnable) x
    by_cases hx : x = p
    · rw [hx, update_self, update_self]
    · rw [update_of_ne hx, update_of_ne hx]
      rfl

theorem refs_updProc {g : Proc → Proc} {p : Fin NPROC} {s : Kernel}
    (h : (g (s.proc p)).hold = (s.proc p).hold)
    (hs : (g (s.proc p)).state = .runnable ↔ (s.proc p).state = .runnable) :
    (s.updProc p g).refs = s.refs := by
  rw [refs_updProc_live h, hs]
  exact Refs.turn_eq_self rfl

theorem refs_reparent (s : Kernel) (p q : Fin NPROC) :
    ({ s with proc := fun r =>
        if (s.proc r).parent = some p then { s.proc r with parent := some q } else s.proc r } :
      Kernel).refs = s.refs := by
  ext x
  · show _ ∈ Proc.hold (if (s.proc x.1).parent = some p then _ else s.proc x.1) x.2 ↔ _
    split_ifs <;> rfl
  · rfl
  · show Proc.state (if (s.proc x).parent = some p then _ else s.proc x) = .runnable ↔ _
    split_ifs <;> rfl

theorem refs_updProc_update {g : Proc → Proc} {p : Fin NPROC} {s : Kernel}
    {x : Fin NOFILE ⊕ Fin VMAMAX} {v : Option (Fin NFILE)}
    (h : (g (s.proc p)).hold = update (s.proc p).hold x v)
    (hs : (g (s.proc p)).state = (s.proc p).state) :
    (s.updProc p g).refs = s.refs.put (p, x) v := by
  ext y
  · obtain ⟨q, y⟩ := y
    show _ ∈ (update s.proc p (g (s.proc p)) q).hold y ↔
      _ ∈ update s.refs.hold (p, x) v (q, y)
    by_cases hq : q = p
    · subst hq
      rw [update_self, h]
      by_cases hy : y = x
      · rw [hy, update_self, update_self]
      · rw [update_of_ne hy, update_of_ne (by simpa using hy)]
        rfl
    · rw [update_of_ne hq, update_of_ne (fun h => hq (congrArg Prod.fst h))]
      rfl
  · rfl
  · show (update s.proc p (g (s.proc p)) y).state = .runnable ↔ (s.proc y).state = .runnable
    by_cases hy : y = p
    · rw [hy, update_self, hs]
    · rw [update_of_ne hy]

theorem refs_setOfile (s : Kernel) (p : Fin NPROC) (fd : Fin NOFILE) (f : Option (Fin NFILE)) :
    (s.setOfile p fd f).refs = s.refs.put (p, .inl fd) f :=
  refs_updProc_update (Proc.hold_ofile _ fd f) rfl

theorem refs_updVma (s : Kernel) (p : Fin NPROC) (i : Fin VMAMAX) (g : Vma → Vma) :
    (s.updVma p i g).refs = s.refs.put (p, .inr i) (g ((s.proc p).vma i)).held :=
  refs_updProc_update (Proc.hold_vma _ i _) rfl

theorem refs_updFile (s : Kernel) (f : Fin NFILE) (g : File → File) :
    (s.updFile f g).refs = s.refs.count f (g (s.file f)).ref := by
  ext x
  · rfl
  · show (update s.file f (g (s.file f)) x).ref = update s.refs.ref f _ x
    by_cases hx : x = f
    · rw [hx, update_self, update_self]
    · rw [update_of_ne hx, update_of_ne hx]
      rfl
  · rfl

theorem refs_updFile_same {s : Kernel} {f : Fin NFILE} {g : File → File}
    (h : (g (s.file f)).ref = (s.file f).ref) : (s.updFile f g).refs = s.refs := by
  rw [refs_updFile, h]
  exact Refs.count_eq_self rfl

/-! ### Programs that leave the references as they are -/

/-- The processes, and the files without their offsets. -/
def core (s : Kernel) : (Fin NPROC → Proc) × (Fin NFILE → File) :=
  (s.proc, fun f => { s.file f with off := 0 })

/-- A view that looks at processes and files only. -/
class View {ν : Type} (v : Kernel → ν) : Prop where
  same : ∀ {s t : Kernel}, s.core = t.core → v s = v t

instance : View core := ⟨id⟩

instance : View refs where
  same := fun {s t} h => by
    have hproc : s.proc = t.proc := congrArg Prod.fst h
    have hfile : ∀ f, (s.core.2 f).ref = (t.core.2 f).ref := fun f => by rw [h]
    ext x
    · show _ ∈ (s.proc x.1).hold x.2 ↔ _ ∈ (t.proc x.1).hold x.2
      rw [hproc]
    · exact hfile x
    · show (s.proc x).state = .runnable ↔ (t.proc x).state = .runnable
      rw [hproc]

variable {ν : Type} {view : Kernel → ν} [View view]

/-- The program leaves the references as they are. -/
abbrev Quiet (x : Prog Kernel α) : Prop := Keeps refs RefSafe x

theorem quiet_onMem {x : Prog Mem α} (h : Stops VmPanic x) : Keeps view RefSafe (onMem x) :=
  keeps_zoom (fun _ _ => View.same rfl) (h.mono fun _ => RefSafe.vm)

theorem quiet_onFs {x : Prog Fs α} (h : Stops FsPanic x) : Keeps view RefSafe (onFs x) :=
  keeps_zoom (fun _ _ => View.same rfl) (h.mono fun _ => RefSafe.fs)

omit [View view] in
theorem quiet_panic {msg : String} (h : RefSafe (.panic msg)) :
    Keeps view RefSafe (Prog.panic msg : Prog Kernel α) := keeps_panic h

omit [View view] in
theorem quiet_kerneltrap : Keeps view RefSafe (Prog.panic "kerneltrap" : Prog Kernel α) :=
  quiet_panic (by simp [RefSafe])

theorem quiet_updProc {g : Proc → Proc} (p : Fin NPROC) (h : ∀ pr, (g pr).hold = pr.hold)
    (hs : ∀ pr, (g pr).state = pr.state) : Quiet (Prog.modify fun s => s.updProc p g) :=
  keeps_modify fun s => refs_updProc (h _) (by rw [hs])

theorem quiet_updFile {g : File → File} (f : Fin NFILE) (h : ∀ fl, (g fl).ref = fl.ref) :
    Quiet (Prog.modify fun s => s.updFile f g) := keeps_modify fun _ => refs_updFile_same (h _)

theorem core_off (s : Kernel) (f : Fin NFILE) (g : File → BitVec 32) :
    (s.updFile f fun fl => { fl with off := g fl }).core = s.core := by
  refine Prod.ext rfl (funext fun f' => ?_)
  show ({ update s.file f _ f' with off := 0 } : File) = { s.file f' with off := 0 }
  by_cases hf : f' = f
  · rw [hf, update_self]
  · rw [update_of_ne hf]

theorem quiet_off (f : Fin NFILE) (g : File → BitVec 32) :
    Keeps view RefSafe (Prog.modify fun s => s.updFile f fun fl => { fl with off := g fl }) :=
  keeps_modify fun s => View.same (core_off s f g)

theorem quiet_setReg (trapframe : ℕ) (r : Fin NPTE) (v : ℕ) : Keeps view RefSafe (setReg trapframe r v) :=
  quiet_onMem (stops_modify _)

omit [View view] in
theorem quiet_deref (ip : Option (Fin NINODE)) : Keeps view RefSafe (deref ip) := by
  cases ip with
  | none => exact quiet_kerneltrap
  | some e => exact keeps_pure e

theorem quiet_lockFile (f : Fin NFILE) : Keeps view RefSafe (lockFile f) := by
  unfold lockFile
  refine keeps_bind keeps_get fun s => ?_
  cases (s.file f).ip with
  | none => exact quiet_panic (by simp [RefSafe])
  | some e => exact keeps_bind (quiet_onFs (Fs.ilock_stops e)) fun _ => keeps_pure e

theorem quiet_pipeclose (pi : ℕ) (writable : Bool) : Keeps view RefSafe (pipeclose pi writable) := by
  constructor
  intro s
  have hfree : ∀ t : Kernel, t.core = s.core → wp (onMem (kfree pi)) (fun _ u => view u = view s)
      (fun w _ => RefSafe w) t := fun t ht =>
    wp_post ((quiet_onMem (kfree_stops pi)).wp_keeps t) fun _ u hu => hu.trans (View.same ht)
  unfold pipeclose
  rw [wp_bind, wp_get]
  dsimp only
  split_ifs with h
  · rw [wp_bind, wp_set]
    exact hfree _ rfl
  · rw [wp_set]
    exact View.same rfl
  · rw [wp_bind, wp_set]
    exact hfree _ rfl
  · rw [wp_set]
    exact View.same rfl

theorem quiet_writeLoop (p : Fin NPROC) (f : Fin NFILE) (addr n fuel i : ℕ) :
    Keeps view RefSafe (writeLoop p f addr n fuel i) := by
  induction fuel generalizing i with
  | zero => exact keeps_pure _
  | succ fuel ih =>
    rw [writeLoop]
    refine keeps_when fun _ => ?_
    refine keeps_bind (quiet_lockFile f) fun e => keeps_bind keeps_get fun s =>
      keeps_bind (quiet_onFs (Fs.writei_stops _ _ _ _)) fun r => ?_
    have hrest : Keeps view RefSafe (if r ≠ BitVec.ofNat 32 (min (n - i) MAXWRITE) then pure false
        else writeLoop p f addr n fuel (i + min (n - i) MAXWRITE)) :=
      keeps_unless fun _ => ih _
    exact keeps_ite (fun _ => keeps_bind (quiet_off f _) fun _ => hrest) fun _ => hrest

theorem quiet_filewrite (p : Fin NPROC) (f : Fin NFILE) (addr : ℕ) (n : BitVec 32) :
    Keeps view RefSafe (filewrite p f addr n) := by
  unfold filewrite
  refine keeps_bind keeps_get fun s => keeps_unless fun _ => ?_
  cases (s.file f).type with
  | pipe => exact keeps_pure _
  | device => exact keeps_pure _
  | inode => exact keeps_unless fun _ => quiet_writeLoop p f addr _ _ _
  | none => exact quiet_panic (by simp [RefSafe])

theorem quiet_fileread (p : Fin NPROC) (f : Fin NFILE) (addr : ℕ) (n : BitVec 32) :
    Keeps view RefSafe (fileread p f addr n) := by
  unfold fileread
  refine keeps_bind keeps_get fun s => keeps_when fun _ => ?_
  refine keeps_bind (quiet_lockFile f) fun e => keeps_bind keeps_get fun t =>
    keeps_bind (quiet_onFs (Fs.readi_stops _ _ _ _ _)) fun r => ?_
  exact keeps_bind (keeps_modify fun _ => View.same rfl) fun _ => keeps_when fun _ => quiet_off f _

theorem procPagetable_stops (trapframe : ℕ) : Stops VmPanic (procPagetable trapframe) := by
  unfold procPagetable
  refine keeps_bind uvmcreate_stops fun pagetable => keeps_unless fun _ => ?_
  refine keeps_bind keeps_get fun m => keeps_bind (mappages_stops _ _ _ _ _) fun ok =>
    keeps_ite (fun _ => keeps_bind (uvmfree_stops _ _) fun _ => keeps_pure _) fun _ => ?_
  refine keeps_bind (mappages_stops _ _ _ _ _) fun ok => keeps_when fun _ => ?_
  exact keeps_bind (uvmunmap_stops _ _ _ _) fun _ => keeps_bind (uvmfree_stops _ _) fun _ =>
    keeps_pure _

theorem quiet_procFreepagetable (pagetable sz : ℕ) : Keeps view RefSafe
    (procFreepagetable pagetable sz) := by
  unfold procFreepagetable
  exact keeps_bind (keeps_modify fun _ => View.same rfl) fun _ => quiet_onMem
    (keeps_bind (uvmunmap_stops _ _ _ _) fun _ => keeps_bind (uvmunmap_stops _ _ _ _) fun _ =>
      uvmfree_stops _ _)

theorem quiet_growproc (p : Fin NPROC) (n : BitVec 32) : Quiet (growproc p n) := by
  unfold growproc
  refine keeps_bind keeps_get fun s => keeps_ite (fun _ => ?_) fun _ => keeps_when fun _ => ?_
  · exact keeps_bind (quiet_onMem (uvmalloc_stops _ _ _ _)) fun sz => keeps_unless fun _ =>
      keeps_bind (quiet_updProc p (fun _ => rfl) fun _ => rfl)
      fun _ => keeps_pure _
  · exact keeps_bind (quiet_onMem (uvmdealloc_stops _ _ _)) fun sz => keeps_bind
      (quiet_updProc p (fun _ => rfl) fun _ => rfl) fun _ => keeps_pure _

theorem quiet_sweep (p : Fin NPROC) (v : Vma) (bound fuel addr : ℕ) :
    Keeps view RefSafe (sweep p v bound fuel addr) := by
  induction fuel generalizing addr with
  | zero => exact keeps_pure _
  | succ fuel ih =>
    rw [sweep]
    refine keeps_when fun _ => keeps_bind keeps_get fun s => ?_
    have hun : Keeps view RefSafe (do
        onMem (uvmunmap (s.proc p).pagetable addr 1 true)
        sweep p v bound fuel (add64 addr PGSIZE)) :=
      keeps_bind (quiet_onMem (uvmunmap_stops _ _ _ _)) fun _ => ih _
    refine keeps_ite (fun _ => keeps_ite (fun _ => ?_) fun _ => hun) fun _ => ih _
    cases v.f with
    | none => exact keeps_bind quiet_kerneltrap fun _ => hun
    | some f => exact keeps_bind (quiet_filewrite p f addr _) fun _ => hun

/-! ### `exec` -/

theorem quiet_readStruct (e : Fin NINODE) (off : BitVec 32) (len : ℕ) :
    Keeps view RefSafe (readStruct e off len) := by
  unfold readStruct
  exact keeps_bind (quiet_onFs (Fs.readi_stops _ _ _ _ _)) fun _ => keeps_pure _

theorem quiet_readPage (e : Fin NINODE) (pa : ℕ) (off n : BitVec 32) :
    Keeps view RefSafe (readPage e pa off n) := by
  unfold readPage
  exact keeps_bind keeps_get fun s => keeps_bind (quiet_onFs (Fs.readi_stops _ _ _ _ _)) fun _ =>
    keeps_bind (keeps_modify fun _ => View.same rfl) fun _ => keeps_pure _

theorem quiet_loadsegLoop (pagetable va : ℕ) (e : Fin NINODE) (offset sz fuel i : ℕ) :
    Keeps view RefSafe (loadsegLoop pagetable va e offset sz fuel i) := by
  induction fuel generalizing i with
  | zero => exact keeps_pure _
  | succ fuel ih =>
    rw [loadsegLoop]
    refine keeps_when fun _ => keeps_bind keeps_get fun s => ?_
    have hread : ∀ pa n, Keeps view RefSafe (do
        let r ← readPage e pa (BitVec.ofNat 32 (offset + i)) (BitVec.ofNat 32 n)
        if r ≠ BitVec.ofNat 32 n then
          return false
        loadsegLoop pagetable va e offset sz fuel (i + PGSIZE)) := fun pa n =>
      keeps_bind (quiet_readPage _ _ _ _) fun r => keeps_unless fun _ => ih _
    exact keeps_ite (fun _ => keeps_bind (quiet_panic (by simp [RefSafe])) fun _ => hread _ _)
      fun _ => hread _ _

theorem quiet_loadSegments (pagetable : ℕ) (e : Fin NINODE) (phnum : ℕ) (off : BitVec 32) (sz : ℕ) :
    Keeps view RefSafe (loadSegments pagetable e phnum off sz) := by
  induction phnum generalizing off sz with
  | zero => exact keeps_pure _
  | succ phnum ih =>
    rw [loadSegments]
    refine keeps_bind (quiet_readStruct _ _ _) fun r => ?_
    cases r with
    | none => exact keeps_pure _
    | some bytes =>
      refine keeps_ite (fun _ => ih _ _) fun _ => keeps_unless fun _ => ?_
      refine keeps_bind (quiet_onMem (uvmalloc_stops _ _ _ _)) fun sz1 => keeps_unless fun _ => ?_
      exact keeps_bind (quiet_loadsegLoop _ _ _ _ _ _ _) fun ok => keeps_unless fun _ => ih _ _

theorem quiet_copyOut (pagetable dstva : ℕ) (bytes : List Byte) :
    Keeps view RefSafe (copyOut pagetable dstva bytes) := by
  unfold copyOut
  exact keeps_bind keeps_get fun s => keeps_bind (keeps_modify fun _ => View.same rfl) fun _ => keeps_pure _

theorem quiet_pushStrings (pagetable stackbase : ℕ) (argv : List (List Byte)) (sp : ℕ)
    (ustack : List ℕ) : Keeps view RefSafe (pushStrings pagetable stackbase argv sp ustack) := by
  induction argv generalizing sp ustack with
  | nil => exact keeps_pure _
  | cons arg argv ih =>
    rw [pushStrings]
    exact keeps_unless fun _ => keeps_unless fun _ =>
      keeps_bind (quiet_copyOut _ _ _) fun ok => keeps_unless fun _ => ih _ _

theorem quiet_pushArgs (pagetable stackbase sp : ℕ) (argv : List (List Byte)) :
    Keeps view RefSafe (pushArgs pagetable stackbase sp argv) := by
  unfold pushArgs
  refine keeps_bind (quiet_pushStrings _ _ _ _ _) fun r => ?_
  cases r with
  | none => exact keeps_pure _
  | some r =>
    exact keeps_unless fun _ => keeps_bind (quiet_copyOut _ _ _) fun _ =>
      keeps_pure _

/-- The end of `bad:` in `exec`, where the inode is put. -/
theorem quiet_execBad_iput (ip : Option (Fin NINODE)) : Keeps view RefSafe (do
    match ip with
    | none => pure ()
    | some e => onFs (Fs.iput e)
    return false) := by
  cases ip with
  | none => exact keeps_bind (keeps_pure _) fun _ => keeps_pure _
  | some e => exact keeps_bind (quiet_onFs (Fs.iput_stops e)) fun _ => keeps_pure _

theorem quiet_execBad (pagetable sz : ℕ) (ip : Option (Fin NINODE)) :
    Keeps view RefSafe (execBad pagetable sz ip) := by
  unfold execBad
  exact keeps_ite (fun _ => keeps_bind (quiet_procFreepagetable _ _) fun _ => quiet_execBad_iput ip)
    fun _ => quiet_execBad_iput ip

theorem quiet_execCommit (p : Fin NPROC) (pagetable sz entry : ℕ) (argv : List (List Byte)) :
    Quiet (execCommit p pagetable sz entry argv) := by
  unfold execCommit
  refine keeps_bind keeps_get fun s => keeps_bind (quiet_onMem (uvmalloc_stops _ _ _ _)) fun sz1 =>
    keeps_ite (fun _ => quiet_execBad _ _ _) fun _ => ?_
  refine keeps_bind (quiet_onMem (uvmclear_stops _ _)) fun _ => keeps_bind (quiet_pushArgs _ _ _ _)
    fun r => ?_
  cases r with
  | none => exact quiet_execBad _ _ _
  | some sp =>
    exact keeps_bind (quiet_setReg _ _ _) fun _ => keeps_bind
      (quiet_updProc p (fun _ => rfl) fun _ => rfl) fun _ => keeps_bind (quiet_setReg _ _ _) fun _ =>
      keeps_bind (quiet_setReg _ _ _) fun _ => keeps_bind (quiet_procFreepagetable _ _) fun _ =>
      keeps_pure _

theorem quiet_execProg (p : Fin NPROC) (path : Option ℕ) (argv : List (List Byte)) :
    Quiet (execProg p path argv) := by
  unfold execProg
  cases path with
  | none => exact keeps_pure _
  | some inum =>
    refine keeps_bind (quiet_onFs (Fs.iget_stops _)) fun e => keeps_bind
      (quiet_onFs (Fs.ilock_stops _)) fun _ => keeps_bind (quiet_readStruct _ _ _) fun r => ?_
    cases r with
    | none => exact quiet_execBad _ _ _
    | some bytes =>
      refine keeps_ite (fun _ => quiet_execBad _ _ _) fun _ => keeps_bind keeps_get fun s =>
        keeps_bind (quiet_onMem (procPagetable_stops _)) fun pagetable => keeps_ite
        (fun _ => quiet_execBad _ _ _) fun _ => ?_
      exact keeps_bind (quiet_loadSegments _ _ _ _ _) fun r => keeps_ite
        (fun _ => quiet_execBad _ _ _) fun _ => keeps_bind (quiet_onFs (Fs.iput_stops _)) fun _ =>
        quiet_execCommit _ _ _ _ _

theorem quiet_fetchArgs (p : Fin NPROC) (uargv fuel i : ℕ) (pages : List ℕ)
    (argv : List (List Byte)) : Keeps view RefSafe (fetchArgs p uargv fuel i pages argv) := by
  induction fuel generalizing i pages argv with
  | zero => exact keeps_pure _
  | succ fuel ih =>
    rw [fetchArgs]
    refine keeps_bind keeps_get fun s => keeps_unless fun _ => keeps_unless fun _ =>
      keeps_unless fun _ => ?_
    refine keeps_bind (quiet_onMem kalloc_stops) fun page => keeps_unless fun _ =>
      keeps_bind keeps_get fun t => ?_
    split
    · exact keeps_pure _
    · exact ih _ _ _

theorem quiet_freeArgs (pages : List ℕ) : Keeps view RefSafe (freeArgs pages) := by
  induction pages with
  | nil => exact keeps_pure _
  | cons page pages ih => exact keeps_bind (quiet_onMem (kfree_stops page)) fun _ => ih

theorem quiet_sysExec (p : Fin NPROC) (path : Option ℕ) (uargv : ℕ) : Quiet (sysExec p path uargv) := by
  unfold sysExec
  refine keeps_bind (quiet_fetchArgs _ _ _ _ _ _) fun r => ?_
  obtain ⟨pages, argv⟩ := r
  cases argv with
  | none => exact quiet_freeArgs pages
  | some argv => exact keeps_bind (quiet_execProg p path argv) fun _ => quiet_freeArgs pages

theorem quiet_openFile (f : Fin NFILE) (e : Fin NINODE) (ip : Inode) (omode : BitVec 32) :
    Quiet (openFile f e ip omode) := by
  unfold openFile
  exact keeps_bind (quiet_updFile f fun _ => rfl) fun _ => keeps_when fun _ =>
    quiet_onFs (Fs.itrunc_stops e)

end Kernel

end Xv6
