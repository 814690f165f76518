import Xv6.Lib.Ownership
import Xv6.Fs.Volume

/-!
# The slots of the inodes

An inode has a slot for each direct block, one for the indirect block, and one for each entry of the
indirect block.  `own` reads the slots of all allocated inodes off the inodes and the data blocks.
The lemmas say which slot changes when an address is stored, and that no slot changes when a block
is written that is not an indirect block.
-/

namespace Xv6

open Stateful Function

/-- The places of an inode that hold a block number. -/
inductive Slot
  | direct (k : Fin NDIRECT)
  | indirect
  | entry (j : Fin NINDIRECT)
  deriving DecidableEq

namespace Dinode

/-- The number of the indirect block. -/
def ind (d : Dinode) : ℕ := (d.addrs Fs.indirectSlot).toNat

/-- The block number in a slot; 0 when there is none. -/
def slot (d : Dinode) (data : ℕ → Block) : Slot → ℕ
  | .direct k => (d.addrs k.castSucc).toNat
  | .indirect => d.ind
  | .entry j => if d.ind = 0 then 0 else (data d.ind).getLE 4 (4 * j.val)

/-- The slot of the nth block of a file. -/
def blockSlot (bn : ℕ) : Option Slot :=
  if h : bn < NDIRECT then some (.direct ⟨bn, h⟩)
  else if h : bn - NDIRECT < NINDIRECT then some (.entry ⟨bn - NDIRECT, h⟩)
  else none

/-- The nth block of a file; 0 when it is not allocated. -/
def fileBlock (d : Dinode) (data : ℕ → Block) (bn : ℕ) : ℕ :=
  match blockSlot bn with
  | some k => d.slot data k
  | none => 0

/-- Store an address in the inode. -/
def setAddr (d : Dinode) (k : Fin (NDIRECT + 1)) (x : ℕ) : Dinode :=
  { d with addrs := update d.addrs k (BitVec.ofNat 32 x) }

/-- A file has all its blocks, and no more than fit an inode. -/
def Below (d : Dinode) (data : ℕ → Block) : Prop :=
  d.type ≠ 0 → d.size.toNat ≤ MAXFILE * BSIZE ∧
    ∀ bn, bn * BSIZE < d.size.toNat → d.fileBlock data bn ≠ 0

theorem blockSlot_ne_indirect {bn : ℕ} {k : Slot} (h : blockSlot bn = some k) : k ≠ .indirect := by
  unfold blockSlot at h
  split_ifs at h <;> cases h <;> simp

theorem blockSlot_inj {m n : ℕ} {k : Slot} (hm : blockSlot m = some k) (hn : blockSlot n = some k) :
    m = n := by
  unfold blockSlot at hm hn
  split_ifs at hm hn with h1 h2 h3 h4
  · cases hm
    cases hn
    rfl
  · cases hm
    cases hn
  · cases hm
    cases hn
  · cases hm
    simp only [Option.some.injEq, Slot.entry.injEq, Fin.mk.injEq] at hn
    omega

theorem blockSlot_of_lt {bn : ℕ} (h : bn < MAXFILE) : ∃ k, blockSlot bn = some k := by
  have hM : MAXFILE = 268 := rfl
  have hD : NDIRECT = 12 := rfl
  have hI : NINDIRECT = 256 := rfl
  unfold blockSlot
  split_ifs with h1 h2
  · exact ⟨_, rfl⟩
  · exact ⟨_, rfl⟩
  · omega

section Slots

variable {d : Dinode} {data data' : ℕ → Block} {x : ℕ}

theorem toNat_ofNat32 (hx : x < 2 ^ 32) : (BitVec.ofNat 32 x).toNat = x := by
  rw [BitVec.toNat_ofNat, Nat.mod_eq_of_lt hx]

theorem slot_congr (h : d.ind ≠ 0 → data' d.ind = data d.ind) (k : Slot) :
    d.slot data' k = d.slot data k := by
  cases k with
  | direct k => rfl
  | indirect => rfl
  | entry j =>
    unfold slot
    split_ifs with hi
    · rfl
    · rw [h hi]

theorem slot_setAddr_direct (k : Fin NDIRECT) (hx : x < 2 ^ 32) (k' : Slot) :
    (d.setAddr k.castSucc x).slot data k' = update (d.slot data) (.direct k) x k' := by
  have hne : Fs.indirectSlot ≠ k.castSucc := (Fin.castSucc_lt_last k).ne'
  have hind : (d.setAddr k.castSucc x).ind = d.ind := by
    simp only [ind, setAddr, update_of_ne hne]
  cases k' with
  | direct l =>
    by_cases hl : l = k
    · subst hl
      rw [update_self]
      simp only [slot, setAddr, update_self]
      exact toNat_ofNat32 hx
    · have h1 : l.castSucc ≠ k.castSucc := fun h => hl (Fin.castSucc_injective _ h)
      rw [update_of_ne (by simpa using hl)]
      simp only [slot, setAddr, update_of_ne h1]
  | indirect =>
    rwa [update_of_ne (by simp)]
  | entry j =>
    rw [update_of_ne (by simp)]
    simp only [slot, hind]

theorem slot_setAddr_indirect (hx : x < 2 ^ 32) (hind : d.ind = 0) (hdata : data x = fun _ => 0)
    (k' : Slot) :
    (d.setAddr Fs.indirectSlot x).slot data k' =
      update (d.slot data) .indirect x k' := by
  have hx' : (d.setAddr Fs.indirectSlot x).ind = x := by
    simp only [ind, setAddr, update_self, toNat_ofNat32 hx]
  cases k' with
  | direct l =>
    have h1 : l.castSucc ≠ Fs.indirectSlot := (Fin.castSucc_lt_last l).ne
    rw [update_of_ne (by simp)]
    simp only [slot, setAddr, update_of_ne h1]
  | indirect =>
    rwa [update_self]
  | entry j =>
    -- a fresh indirect block is zero, so the entries stay empty
    rw [update_of_ne (by simp)]
    simp only [slot, hx', hind, if_true, hdata, Bytes.getLE_zero, ite_self]

theorem slot_putLE (hind : d.ind ≠ 0) (j : Fin NINDIRECT) (hx : x < 2 ^ 32) (k' : Slot) :
    d.slot (update data d.ind ((data d.ind).putLE 4 (4 * j.val) x)) k' =
      update (d.slot data) (.entry j) x k' := by
  have hB : BSIZE = 1024 := rfl
  have hI : NINDIRECT = 256 := rfl
  have hj := j.isLt
  cases k' with
  | direct l => rw [update_of_ne (by simp)]; rfl
  | indirect => rw [update_of_ne (by simp)]; rfl
  | entry l =>
    simp only [slot, if_neg hind, update_self]
    by_cases hl : l = j
    · subst hl
      rw [update_self, Bytes.getLE_putLE_self _ _ (by omega)]
      exact Nat.mod_eq_of_lt (by simpa using hx)
    · have hne : l.val ≠ j.val := fun h => hl (Fin.ext h)
      rw [update_of_ne (by simpa using hl), Bytes.getLE_putLE_of_disjoint _ _ (by omega)]
      simp only [slot, if_neg hind]

end Slots

end Dinode

/-! ### All inodes -/

/-- The block numbers in the slots of the allocated inodes. -/
def own (ino : ℕ → Dinode) (data : ℕ → Block) (p : ℕ × Slot) : ℕ :=
  if (ino p.1).type = 0 then 0 else (ino p.1).slot data p.2

section Own

variable {ino : ℕ → Dinode} {data data' : ℕ → Block} {i x : ℕ}

theorem own_of_type (h : (ino i).type ≠ 0) (k : Slot) :
    own ino data (i, k) = (ino i).slot data k := if_neg h

theorem own_congr_data (h : ∀ i, (ino i).type ≠ 0 → (ino i).ind ≠ 0 →
    data' (ino i).ind = data (ino i).ind) : own ino data' = own ino data := by
  funext p
  unfold own
  split_ifs with ht
  · rfl
  · exact Dinode.slot_congr (h p.1 ht) p.2

theorem own_update_inode {d : Dinode} (hd : d.type = (ino i).type) (k : Slot)
    (ht : (ino i).type ≠ 0)
    (hslot : ∀ k', d.slot data k' = update ((ino i).slot data) k x k') :
    own (update ino i d) data = update (own ino data) (i, k) x := by
  funext p
  obtain ⟨j, k'⟩ := p
  by_cases hj : j = i
  · subst hj
    have h1 : own (update ino j d) data (j, k') = d.slot data k' := by
      unfold own
      rw [update_self, if_neg (by rwa [hd])]
    rw [h1, hslot]
    by_cases hk : k' = k
    · subst hk
      rw [update_self, update_self]
    · rw [update_of_ne hk, update_of_ne (by simp [hk]), own_of_type ht]
  · rw [update_of_ne (by simp [hj])]
    unfold own
    simp only [update_of_ne hj]

/-- Storing an entry in the indirect block of one inode changes that slot, when no other inode has
the same indirect block. -/
theorem own_update_entry (ht : (ino i).type ≠ 0) (hind : (ino i).ind ≠ 0)
    (hinj : ∀ j, j ≠ i → (ino j).type ≠ 0 → (ino j).ind ≠ (ino i).ind) (j : Fin NINDIRECT)
    (hx : x < 2 ^ 32) :
    own ino (update data (ino i).ind ((data (ino i).ind).putLE 4 (4 * j.val) x)) =
      update (own ino data) (i, .entry j) x := by
  funext p
  obtain ⟨l, k⟩ := p
  by_cases hl : l = i
  · subst hl
    rw [own_of_type ht, Dinode.slot_putLE hind j hx]
    by_cases hk : k = .entry j
    · subst hk
      rw [update_self, update_self]
    · rw [update_of_ne hk, update_of_ne (by simp [hk]), own_of_type ht]
  · rw [update_of_ne (by simp [hl])]
    unfold own
    split_ifs with htl
    · rfl
    · exact Dinode.slot_congr (fun _ => update_of_ne (hinj l hl htl) _ _) k

end Own

end Xv6
