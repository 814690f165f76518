import Xv6.Proc.Memory
import Xv6.Proc.Read

/-!
# The heap (`growproc` of `proc.c`)

A process whose mapped user pages are exactly those below its size keeps that through any calls of
`growproc`, whatever the signed argument and wherever `kalloc` fails.  The memory bounds the size, so the
heap never reaches the pages above it, and no panic is reached.

* `HeapOk`: the mapped pages of the user are those below the size;
* `Grew`: what one call does to the size and to the pages;
* `wp_growproc_heap`: one call;
* `growproc_heap`: **any calls, one after another**.
-/

namespace Xv6

open Stateful Kernel

attribute [local irreducible] wp

variable {s t : Kernel} {S S' : KMap} {p : Fin NPROC}

/-- A size of the user plus an `int`, which may be negative beyond the size. -/
theorem add64_sext64 {sz : ℕ} (h : sz < 2 ^ 63) (n : BitVec 32) :
    (add64 sz (sext64 n) : ℤ) = if 0 ≤ (sz : ℤ) + n.toInt then sz + n.toInt else sz + n.toInt + 2 ^ 64 := by
  have hlo := BitVec.le_toInt n
  have hhi := BitVec.toInt_lt (x := n)
  unfold add64 sext64
  rw [BitVec.signExtend, BitVec.toNat_ofInt]
  split_ifs <;> omega

namespace Kernel

/-- What the process maps at a virtual page: the entry and the contents of the page. -/
def userCell (s : Kernel) (p : Fin NPROC) (v : Vpn) : Option (BitVec 64 × Page) :=
  cellAt s.mem (some (s.proc p).pagetable) v

/-- In a memory that represents `S`, the mapped user pages of the process are exactly those below its
size. -/
structure HeapOk (s : Kernel) (p : Fin NPROC) (S : KMap) : Prop where
  rep : Rep s.mem S
  root : S.root (some p) = some (s.proc p).pagetable
  hand : S.box .hand = none
  below : ∀ v, ¬ Reserved v → v.val < pages (s.proc p).sz →
    ∃ pte pg, s.userCell p v = some (pte, pg) ∧ pteFlags pte ≠ PTEV
  above : ∀ v, ¬ Reserved v → pages (s.proc p).sz ≤ v.val → s.userCell p v = none

/-- What a call of `growproc` with the argument `n` and the result `ok` does to the heap. -/
structure Grew (p : Fin NPROC) (n : BitVec 32) (ok : Bool) (s t : Kernel) : Prop where
  size : ok = true → ((t.proc p).sz : ℤ) =
    if 0 ≤ ((s.proc p).sz : ℤ) + n.toInt then (s.proc p).sz + n.toInt else (s.proc p).sz
  failed : ok = false → (t.proc p).sz = (s.proc p).sz ∧ t.userCell p = s.userCell p
  kept : ∀ v, v.val < pages (s.proc p).sz → v.val < pages (t.proc p).sz → t.userCell p v = s.userCell p v
  zeroed : ∀ v, pages (s.proc p).sz ≤ v.val → v.val < pages (t.proc p).sz →
    ∃ pte, t.userCell p v = some (pte, Words.fill 0)

namespace HeapOk

theorem cell (h : HeapOk s p S) : S.cell (some p) = s.userCell p := by
  funext v
  have hc := h.rep.cell (some p) v
  rw [h.root] at hc
  exact hc.symm

theorem small (h : HeapOk s p S) : pages (s.proc p).sz ≤ PHYSTOP / 4096 := by
  have hbound : min (pages (s.proc p).sz) (2 ^ 26 - 2) ≤ PHYSTOP / 4096 := by
    refine h.rep.heap_bound (q := some p) fun v hv => ?_
    obtain ⟨pte, pg, hc, -⟩ := h.below v (not_reserved_of_lt (by omega)) (by omega)
    rw [h.cell, hc]
    simp
  have hphys : PHYSTOP / 4096 = 0x88000 := rfl
  omega

theorem mapped (h : HeapOk s p S) {v : Vpn} (hv : v.val < pages (s.proc p).sz) :
    ∃ pte pg, S.cell (some p) v = some (pte, pg) ∧ pteFlags pte ≠ PTEV := by
  have hsmall := h.small
  have hphys : PHYSTOP / 4096 = 0x88000 := rfl
  rw [h.cell]
  exact h.below v (not_reserved_of_lt (by omega)) hv

theorem change (h : HeapOk s p S) (hrep : Rep t.mem S')
    (hpt : (t.proc p).pagetable = (s.proc p).pagetable) (hroot : S'.root = S.root) (hbox : S'.box = S.box)
    (hbelow : ∀ v, ¬ Reserved v → v.val < pages (t.proc p).sz →
      ∃ pte pg, S'.cell (some p) v = some (pte, pg) ∧ pteFlags pte ≠ PTEV)
    (habove : ∀ v, ¬ Reserved v → pages (t.proc p).sz ≤ v.val → S'.cell (some p) v = none) :
    HeapOk t p S' := by
  have hr : S'.root (some p) = some (t.proc p).pagetable := by rw [hroot, hpt, h.root]
  have hcell : ∀ v, t.userCell p v = S'.cell (some p) v := fun v => by
    rw [← hrep.cell (some p) v, hr]
    rfl
  constructor
  case rep => exact hrep
  case root => exact hr
  case hand => rw [hbox, h.hand]
  case below =>
    intro v hv hlt
    rw [hcell]
    exact hbelow v hv hlt
  case above =>
    intro v hv hle
    rw [hcell]
    exact habove v hv hle

/-- The memory changes, and what the process maps and its size do not. -/
theorem still (h : HeapOk s p S) (hrep : Rep t.mem S)
    (hpt : (t.proc p).pagetable = (s.proc p).pagetable) (hsz : (t.proc p).sz = (s.proc p).sz) :
    HeapOk t p S := by
  refine h.change hrep hpt rfl rfl (fun v _ hlt => ?_) fun v hv hle => ?_
  · rw [hsz] at hlt
    exact h.mapped hlt
  · rw [hsz] at hle
    rw [h.cell]
    exact h.above v hv hle

end HeapOk

theorem Grew.same {n : BitVec 32} {ok : Bool} (hs : HeapOk s p S) (ht : HeapOk t p S)
    (hsz : (t.proc p).sz = (s.proc p).sz)
    (hok : ok = true → ((s.proc p).sz : ℤ) = if 0 ≤ ((s.proc p).sz : ℤ) + n.toInt then
      (s.proc p).sz + n.toInt else (s.proc p).sz) : Grew p n ok s t := by
  have hcell : t.userCell p = s.userCell p := ht.cell.symm.trans hs.cell
  constructor
  case size =>
    rwa [hsz]
  case failed => exact fun _ => ⟨hsz, hcell⟩
  case kept =>
    intro v _ _
    rw [hcell]
  case zeroed =>
    intro v hle hlt
    rw [hsz] at hlt
    omega

theorem Grew.up {n : BitVec 32} (hs : HeapOk s p S) (ht : HeapOk t p S')
    (hg : Grown S S' (some p) (pages (s.proc p).sz) (pages (t.proc p).sz) (heapPerm 4#32))
    (hsz : ((t.proc p).sz : ℤ) = (s.proc p).sz + n.toInt) : Grew p n true s t := by
  constructor
  case size =>
    intro _
    rw [hsz, if_pos (by omega)]
  case failed => simp
  case kept =>
    intro v hlt _
    rw [← ht.cell, ← hs.cell]
    exact hg.frame (some p) v fun hc => by omega
  case zeroed =>
    intro v hle hlt
    obtain ⟨pte, hc, -⟩ := hg.new v hle hlt
    exact ⟨pte, by rw [← ht.cell, hc]⟩

theorem Grew.down {n : BitVec 32} {lo hi : ℕ} (hs : HeapOk s p S)
    (ht : HeapOk t p (S.clearRange (some p) lo hi)) (hlo : pages (t.proc p).sz ≤ lo)
    (hle : (t.proc p).sz ≤ (s.proc p).sz)
    (hsz : ((t.proc p).sz : ℤ) = (s.proc p).sz + n.toInt) : Grew p n true s t := by
  constructor
  case size =>
    intro _
    rw [hsz, if_pos (by omega)]
  case failed => simp
  case kept =>
    intro v _ hlt
    rw [← ht.cell, ← hs.cell]
    exact if_neg fun hc => by omega
  case zeroed =>
    intro v h1 h2
    have : pages (t.proc p).sz ≤ pages (s.proc p).sz := Nat.div_le_div_right (by omega)
    omega

/-- The state after a call that changes the memory and the size. -/
def resized (s : Kernel) (p : Fin NPROC) (m : Mem) (sz : ℕ) : Kernel :=
  { s with mem := m }.updProc p fun pr => { pr with sz := sz }

theorem sz_resized (s : Kernel) (p : Fin NPROC) (m : Mem) (sz : ℕ) :
    ((s.resized p m sz).proc p).sz = sz := by
  unfold resized
  rw [proc_updProc_self]

theorem pagetable_resized (s : Kernel) (p : Fin NPROC) (m : Mem) (sz : ℕ) :
    ((s.resized p m sz).proc p).pagetable = (s.proc p).pagetable := by
  unfold resized
  rw [proc_updProc_self]

theorem HeapOk.up {m' : Mem} {new : ℕ} (h : HeapOk s p S) (hm' : Rep m' S')
    (hg : Grown S S' (some p) (pages (s.proc p).sz) (pages new) (heapPerm 4#32))
    (hle : (s.proc p).sz ≤ new) :
    HeapOk (s.resized p m' new) p S' := by
  have hpages : pages (s.proc p).sz ≤ pages new := Nat.div_le_div_right (by omega)
  refine h.change hm' (pagetable_resized s p m' new) hg.root hg.box ?_ ?_ <;> rw [sz_resized]
  · intro v hv hlt
    by_cases hold : v.val < pages (s.proc p).sz
    · rw [hg.frame (some p) v fun hc => by omega]
      exact h.mapped hold
    · obtain ⟨pte, hc, hf⟩ := hg.new v (by omega) hlt
      exact ⟨pte, _, hc, by rw [hf]; decide⟩
  · intro v hv hlt
    rw [hg.frame (some p) v fun hc => by omega, h.cell]
    exact h.above v hv (by omega)

theorem HeapOk.down {m' : Mem} {new : ℕ} (h : HeapOk s p S)
    (hm' : Rep m' (S.clearRange (some p) (pages new) (pages (s.proc p).sz))) (hle : new ≤ (s.proc p).sz) :
    HeapOk (s.resized p m' new) p (S.clearRange (some p) (pages new) (pages (s.proc p).sz)) := by
  have hpages : pages new ≤ pages (s.proc p).sz := Nat.div_le_div_right (by omega)
  refine h.change hm' (pagetable_resized s p m' new) rfl rfl ?_ ?_ <;> rw [sz_resized]
  · intro v hv hlt
    obtain ⟨pte, pg, hc, hf⟩ := h.mapped (v := v) (by omega)
    refine ⟨pte, pg, ?_, hf⟩
    rw [← hc]
    exact if_neg fun hr => by omega
  · intro v hv hlt
    by_cases hold : v.val < pages (s.proc p).sz
    · exact if_pos ⟨rfl, hlt, hold⟩
    · rw [← h.above v hv (by omega), ← h.cell]
      exact if_neg fun hr => hold hr.2.2

/-- **One call of `growproc`.** -/
theorem wp_growproc_heap (h : HeapOk s p S) (n : BitVec 32) :
    wp (growproc p n) (fun ok t => Grew p n ok s t ∧ ∃ S', HeapOk t p S') (fun _ _ => False) s := by
  have hsmall := h.small
  have hphys : PHYSTOP / 4096 = 0x88000 := rfl
  have hsz : (s.proc p).sz ≤ 0x88000000 := by
    unfold pages at hsmall
    omega
  have hsum := add64_sext64 (lt_of_le_of_lt hsz (by decide)) n
  have hint := BitVec.toInt_lt (x := n)
  unfold growproc
  rw [wp_bind, wp_get]
  dsimp only
  by_cases hpos : 0 < n.toInt
  · rw [if_pos hpos, wp_bind]
    unfold onMem
    rw [wp_zoom]
    rw [if_pos (by omega)] at hsum
    refine wp_uvmalloc h.rep h.root h.hand (by decide) (by decide) (by omega) ?_ ?_ (fun hlt => ?_)
      (fun m' hm' => ?_) fun hle m' S' hm' hg => ?_
    · intro v hv
      obtain ⟨pte, pg, hc, -⟩ := h.mapped hv
      rw [hc]
      simp
    · -- the new pages are below the trapframe, where nothing is mapped
      intro v hlo hhi hc
      unfold pages at hhi
      refine absurd ?_ hc
      rw [h.cell]
      exact h.above v (not_reserved_of_lt (by omega)) hlo
    · omega
    · rw [if_pos rfl, wp_pure]
      have ht : HeapOk { s with mem := m' } p S := h.still hm' rfl rfl
      exact ⟨Grew.same h ht rfl (by simp), S, ht⟩
    · rw [if_neg (by omega), wp_bind, wp_modify, wp_pure]
      have ht := h.up hm' hg hle
      have hgrew : Grew p n true s (s.resized p m' (add64 (s.proc p).sz (sext64 n))) := by
        refine Grew.up h ht ?_ ?_ <;> rw [sz_resized]
        · exact hg
        · exact hsum
      exact ⟨hgrew, S', ht⟩
  · rw [if_neg hpos]
    by_cases hneg : n.toInt < 0
    · rw [if_pos hneg, wp_bind]
      unfold onMem
      rw [wp_zoom]
      refine wp_uvmdealloc h.rep h.root (by rw [pageAddr_TRAPFRAME]; omega) ?_ fun m' hm' => ?_
      · intro v _ hv hbad
        obtain ⟨pte, pg, hc, hne⟩ := h.mapped hv
        exact absurd (hbad pte pg hc) hne
      · rw [wp_bind, wp_modify, wp_pure]
        by_cases hwrap : 0 ≤ ((s.proc p).sz : ℤ) + n.toInt
        · rw [if_pos hwrap] at hsum
          rw [if_neg (by omega)]
          have ht := h.down hm' (by omega)
          have hgrew : Grew p n true s (s.resized p m' (add64 (s.proc p).sz (sext64 n))) := by
            refine Grew.down h ht ?_ ?_ ?_ <;> rw [sz_resized]
            · omega
            · exact hsum
          exact ⟨hgrew, _, ht⟩
        · -- the sum wraps around: the size stays
          rw [if_neg hwrap] at hsum
          have hlo := BitVec.le_toInt n
          rw [if_pos (by omega)]
          have hnone : S.clearRange (some p) (pages (add64 (s.proc p).sz (sext64 n)))
              (pages (s.proc p).sz) = S := by
            refine MemMap.ext rfl ?_ rfl
            funext q v
            refine if_neg fun hc => ?_
            have : pages (s.proc p).sz ≤ pages (add64 (s.proc p).sz (sext64 n)) :=
              Nat.div_le_div_right (by omega)
            omega
          rw [hnone] at hm'
          have ht : HeapOk (s.resized p m' (s.proc p).sz) p S :=
            h.still hm' (pagetable_resized s p m' _) (sz_resized s p m' _)
          refine ⟨Grew.same h ht (sz_resized s p m' _) fun _ => ?_, S, ht⟩
          rw [if_neg hwrap]
    · rw [if_neg hneg, wp_pure]
      exact ⟨Grew.same h h rfl fun _ => by rw [if_pos (by omega)]; omega, S, h⟩

/-- Calls of `growproc`, one after another: each returns, does to the heap what it should, and leaves the
mapped pages exactly those below the size. -/
inductive HeapRun (p : Fin NPROC) : Kernel → List (BitVec 32) → Kernel → Prop
  | nil (s : Kernel) : HeapRun p s [] s
  | cons {s t u : Kernel} {n : BitVec 32} {ns : List (BitVec 32)} (ok : Bool)
      (call : growproc p n s = .ok ok t) (grew : Grew p n ok s t) (heap : ∃ S, HeapOk t p S)
      (rest : HeapRun p t ns u) : HeapRun p s (n :: ns) u

/-- **The heap is exactly what is mapped**, after each of any calls of `growproc`: with any arguments, and
with as few free pages as there may be. -/
theorem growproc_heap (h : HeapOk s p S) (ns : List (BitVec 32)) : ∃ u, HeapRun p s ns u := by
  induction ns generalizing s S with
  | nil => exact ⟨s, .nil s⟩
  | cons n ns ih =>
    obtain ⟨ok, t, hcall, hgrew, S', ht⟩ := wp_returns (wp_growproc_heap h n) fun _ _ => id
    obtain ⟨u, hrest⟩ := ih ht
    exact ⟨u, .cons ok hcall hgrew ⟨S', ht⟩ hrest⟩

/-- The process with one page. -/
theorem growproc_heap_reader : ∃ u, HeapRun 0 reader [4097, -1, -10000, 2147483647] u := by
  obtain ⟨S, hrep, hroot, hbox, hwr, hnone⟩ := rep_pageMem
  have hcell : ∀ v, reader.userCell 0 v = S.cell (some 0) v := fun v => by
    rw [← hrep.cell (some 0) v, hroot]
    rfl
  have hone : pages (reader.proc 0).sz = 1 := rfl
  refine growproc_heap (S := S) ⟨hrep, hroot, by rw [hbox], fun v _ hv => ?_, fun v _ hv => ?_⟩ _
  · have hv0 : vpn 0 = v := Fin.ext (by rw [vpn_val (by decide)]; omega)
    obtain ⟨⟨pte, pg⟩, hup, hw⟩ := hwr 0 (by decide)
    obtain ⟨-, hc, -⟩ := userPage_eq_some.1 hup
    refine ⟨pte, pg, by rw [hcell, ← hv0, hc], fun hf => ?_⟩
    rw [← hasFlag_pteFlags (by decide), hf] at hw
    exact absurd hw (by decide)
  · rw [hcell]
    exact hnone v hv

end Kernel

end Xv6
