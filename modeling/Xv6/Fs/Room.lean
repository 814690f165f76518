import Mathlib.Tactic.DeriveFintype
import Xv6.Fs.Contents

/-!
# Room on the disk

`writei` stops early when `balloc` finds no block.  An inode has `Room` up to an offset when the disk has
a free block for every empty slot that the bytes below the offset need: allocating a block for one of
them uses up one of each, so that `writei` below the offset keeps the room and writes everything.

* `Fs.Room`: the free blocks are enough for the empty slots;
* `Fs.Reached.room`: `bmap` finds a block and keeps the room;
* `Fs.wp_writei_full`: `writei` writes all its bytes when there is room for them.
-/

namespace Xv6

open Stateful Function

deriving instance Fintype for Slot

/-- The first byte of a file that needs the slot. -/
def Slot.start : Slot → ℕ
  | .direct k => k * BSIZE
  | .indirect => NDIRECT * BSIZE
  | .entry j => (NDIRECT + j) * BSIZE

theorem Slot.start_of_blockSlot {bn : ℕ} {k : Slot} (h : Dinode.blockSlot bn = some k) :
    k.start = bn * BSIZE := by
  unfold Dinode.blockSlot at h
  split_ifs at h with h1 h2
  · cases h
    rfl
  · cases h
    show (NDIRECT + (bn - NDIRECT)) * BSIZE = _
    rw [Nat.add_sub_cancel' (by omega)]

theorem Slot.start_indirect_le (j : Fin NINDIRECT) : Slot.indirect.start ≤ (Slot.entry j).start :=
  Nat.mul_le_mul_right _ (Nat.le_add_right _ _)

namespace Fs

variable {s t u : Fs} {e : Fin NINODE} {k : Slot} {x hi : ℕ}

/-- The empty slots of an inode that the bytes below `hi` need. -/
def missing (s : Fs) (e : Fin NINODE) (hi : ℕ) : Finset Slot :=
  Finset.univ.filter fun k => k.start < hi ∧ s.slots (some e) ((s.inode e).inum, k) = 0

/-- The free blocks. -/
def freeBlocks (s : Fs) : Finset ℕ := (Finset.range s.sb.size).filter fun x => s.vol.used x = false

/-- The free blocks are enough for the bytes below `hi`. -/
def Room (s : Fs) (e : Fin NINODE) (hi : ℕ) : Prop := (s.missing e hi).card ≤ s.freeBlocks.card

theorem mem_missing : k ∈ s.missing e hi ↔
    k.start < hi ∧ s.slots (some e) ((s.inode e).inum, k) = 0 := by
  simp [missing]

theorem mem_freeBlocks : x ∈ s.freeBlocks ↔ x < s.sb.size ∧ s.vol.used x = false := by
  simp [freeBlocks]

theorem Room.mono {hi' : ℕ} (h : s.Room e hi') (hle : hi ≤ hi') : s.Room e hi := by
  refine (Finset.card_le_card fun k hk => ?_).trans h
  obtain ⟨h1, h2⟩ := mem_missing.1 hk
  exact mem_missing.2 ⟨h1.trans_le hle, h2⟩

/-- The room depends on the slots of the inode and the bitmap. -/
theorem Room.congr (h : s.Room e hi) (hsb : t.sb = s.sb) (hused : t.vol.used = s.vol.used)
    (hinum : (t.inode e).inum = (s.inode e).inum) (hslots : t.slots (some e) = s.slots (some e)) :
    t.Room e hi := by
  unfold Room missing freeBlocks at h ⊢
  rwa [hsb, hused, hinum, hslots]

theorem Assign.missing (h : Assign e k x s t) (hx : x ≠ 0) (hi : ℕ) :
    t.missing e hi = (s.missing e hi).erase k := by
  have hinum : (t.inode e).inum = (s.inode e).inum := by
    obtain ⟨a, ha⟩ := h.self
    rw [ha]
  ext k'
  rw [Finset.mem_erase, mem_missing, mem_missing, hinum, h.slots]
  rcases eq_or_ne k' k with rfl | hne
  · simp [hx]
  · rw [update_of_ne (by simpa using hne)]
    simp [hne]

/-- A block for one of the missing slots leaves enough for the others. -/
theorem Assign.room (h : Assign e k x s t) (hk : s.slots (some e) ((s.inode e).inum, k) = 0)
    (hx : x ≠ 0) (h2 : x < s.sb.size) (hu : s.vol.used x = false) (hin : k.start < hi)
    (hr : s.Room e hi) : t.Room e hi := by
  have hfree : t.freeBlocks = s.freeBlocks.erase x := by
    ext y
    rw [Finset.mem_erase, mem_freeBlocks, mem_freeBlocks, h.sb, h.used]
    rcases eq_or_ne y x with rfl | hne
    · simp
    · rw [update_of_ne hne]
      simp [hne]
  unfold Room at hr ⊢
  rw [h.missing hx, hfree, Finset.card_erase_of_mem (mem_missing.2 ⟨hin, hk⟩),
    Finset.card_erase_of_mem (mem_freeBlocks.2 ⟨h2, hu⟩)]
  omega

theorem Found.room (hs : FsInv s (some e)) (h : Found e k s x t) (hin : k.start < hi) (hr : s.Room e hi) :
    t.Room e hi ∧ x ≠ 0 := by
  cases h with
  | there hk hx => exact ⟨hr, hx⟩
  | full hk hfull =>
    have hpos : 0 < (s.missing e hi).card := Finset.card_pos.2 ⟨k, mem_missing.2 ⟨hin, hk⟩⟩
    obtain ⟨y, hy⟩ := Finset.card_pos.1 (hpos.trans_le hr)
    obtain ⟨h1, h2⟩ := mem_freeBlocks.1 hy
    rw [hfull y h1] at h2
    cases h2
  | fresh hk h1 h2 hu h =>
    have hx : x ≠ 0 := by
      have := hs.sb.dataStart_pos
      omega
    exact ⟨h.room hk hx h2 hu hin hr, hx⟩

/-- **`bmap`** finds a block when there is room for it. -/
theorem Reached.room (hs : FsInv s (some e)) (h : Reached e k s x t) (hin : k.start < hi)
    (hr : s.Room e hi) : t.Room e hi ∧ x ≠ 0 := by
  cases h with
  | direct h => exact h.room hs hin hr
  | noIndirect h => exact absurd rfl (h.room hs ((Slot.start_indirect_le _).trans_lt hin) hr).2
  | entry h hne h' =>
    have hm := (h.room hs ((Slot.start_indirect_le _).trans_lt hin) hr).1
    exact h'.room (h.mapped hs).1 hin hm

theorem Room.write {bn : ℕ} {v : Block} (hs : FsInv s (some e)) (hk : Dinode.blockSlot bn = some k)
    (hx : x ≠ 0) (hp : s.slots (some e) ((s.inode e).inum, k) = x) (hr : s.Room e hi) :
    (s.write x v).Room e hi := by
  obtain ⟨hlo, hhi⟩ := hs.block_range hx hp
  have hvol : (s.write x v).vol = s.vol.setData x v := vol_write_data hs.sb hlo hhi
  have hne : ∀ i, (s.ino (some e) i).type ≠ 0 → (s.ino (some e) i).ind ≠ x := by
    intro i ht
    have := hs.ind_ne_data (p := ((s.inode e).inum, k)) (by rwa [hp])
      (Dinode.blockSlot_ne_indirect hk) ht
    rwa [hp] at this
  have hdirty : ∀ c, c ≠ x → (s.write x v).dirty c = s.dirty c := fun c hc => update_of_ne hc _ _
  obtain ⟨-, hslots⟩ := hs.of_data (t := s.write x v) rfl rfl (w := Function.update s.vol.data x v) hvol
    (fun i ht _ => update_of_ne (hne i ht) _ _)
    (fun b hb h => by rwa [hdirty b (by omega)])
    (fun i ht _ h => by rwa [hdirty _ (hne i ht)])
  exact hr.congr rfl (by rw [hvol]; rfl) rfl hslots

variable {src : Source} {f : ℕ → Byte} {n tot off : ℕ}

/-- With room the loop of `writei` comes to its end. -/
theorem wp_writeiLoop_room (hs : FsInv s (some e)) (he : s.Live e) {fuel : ℕ} (htot : tot ≤ n)
    (hfuel : n - tot ≤ fuel) (hmax : off + (n - tot) ≤ MAXFILE * BSIZE) (hhi : off + (n - tot) ≤ hi)
    (hcopy : ∀ a m, a + m ≤ n → (src.copyin a m).2 = true) (hr : s.Room e hi) :
    wp (writeiLoop src e n fuel tot off) (fun r t => r.1 = n ∧ t.Room e hi) (fun _ _ => False) s := by
  -- a round finds its block, because the block starts below `hi`
  have hroom : ∀ {tot off m k x s t}, Round e n tot off m k x s t → off + (n - tot) ≤ hi → s.Room e hi →
      t.Room e hi ∧ x ≠ 0 := by
    intro tot off m k x s t h hhi hr
    have hblock := Nat.div_mul_le_self off BSIZE
    have hlt := h.lt
    exact h.reached.room h.inv (by rw [Slot.start_of_blockSlot h.slot]; omega) hr
  refine wp_writeiLoop_rule (I := fun tot off s => off + (n - tot) ≤ hi ∧ s.Room e hi)
    (Q := fun tot s => tot = n ∧ s.Room e hi) ?_ ?_ ?_ ?_ hs he htot hfuel hmax ⟨hhi, hr⟩
  · rintro off t ⟨-, hr⟩
    exact ⟨rfl, hr⟩
  · rintro tot off m k s t h ⟨hhi, hr⟩
    exact absurd rfl (hroom h hhi hr).2
  · rintro tot off m k x s t h hx hfail -
    rw [hcopy tot m h.le_n] at hfail
    cases hfail
  · rintro tot off m k x s t h hx - ⟨hhi, hr⟩
    have hle := h.le_n
    exact ⟨by omega, (hroom h hhi hr).1.write h.mapped.1 h.slot hx (h.slot_eq hx)⟩

/-- The end of `writei` keeps the room. -/
theorem Room.update {sz : ℕ} (ht : FsInv (t.setSize e sz) (some e)) (he : t.Live e) (hr : t.Room e hi) :
    ((t.setSize e sz).update e).Room e hi := by
  have hself := setSize_self t e sz
  have href : 0 < ((t.setSize e sz).inode e).ref := by
    rw [hself]
    exact he.1
  have hinode : ((t.setSize e sz).update e).inode e = { t.inode e with size := BitVec.ofNat 32 sz } := hself
  have hlive : ((t.setSize e sz).update e).Live e := by
    rwa [Live, hinode]
  refine hr.congr rfl ?_ (by rw [hinode]) ?_
  · rw [vol_update ht.sb (ht.inum e href).2]
    rfl
  · rw [(ht.update href).lock_slots hlive, ht.update_slots href, setSize_slots]

/-- **`writei`** writes all its bytes when there is room for them, and keeps the room. -/
theorem wp_writei_full (hs : FsInv s none) (he : s.Live e) {off n : BitVec 32}
    (hoff : off.toNat ≤ (s.inode e).size.toNat) (hmax : off.toNat + n.toNat ≤ MAXFILE * BSIZE)
    (hhi : off.toNat + n.toNat ≤ hi) (hcopy : ∀ a m, a + m ≤ n.toNat → (src.copyin a m).2 = true)
    (hr : s.Room e hi) :
    wp (writei src e off n)
      (fun r t => r = n ∧ FsInv t none ∧ t.Room e hi ∧ Written src f e off.toNat n.toNat n.toNat s t)
      (fun _ _ => False) s := by
  have hM : MAXFILE * BSIZE < 2 ^ 32 := by decide
  have hadd : (off + n).toNat = off.toNat + n.toNat := by
    rw [BitVec.toNat_add, Nat.mod_eq_of_lt (by omega)]
  have hgood : ¬ s.BadRange e off n := by
    unfold BadRange
    rw [gt_iff_lt, BitVec.lt_def, BitVec.lt_def, hadd]
    omega
  have hloop : ¬ s.BadRange e off n → wp (writeiLoop src e n.toNat n.toNat 0 off.toNat)
      (fun r t => r.1 = n.toNat ∧ t.Room e hi) (fun _ _ => True) s := by
    intro _
    exact wp_mono (wp_writeiLoop_room (hs.lock he) he (Nat.zero_le _) le_rfl hmax hhi hcopy hr)
      (fun _ _ h => h) (fun _ _ _ => trivial)
  refine wp_post (wp_writei_loop (f := f) hs he off n
    (P := fun tot t => tot = n.toNat ∧ t.Room e hi) hloop) ?_
  rintro r t ⟨hinv, ⟨hbad, -⟩ | ⟨-, tot, t₀, ⟨rfl, hrt⟩, ht, rfl, rfl, hw⟩⟩
  · exact absurd hbad hgood
  have hret : BitVec.ofNat 32 n.toNat = n := by rw [BitVec.ofNat_toNat, BitVec.setWidth_eq]
  exact ⟨hret, hinv, Room.update (ht.setSize_inv hs he hoff hmax rfl) ((ht.wrote.live e).2 he) hrt, hw⟩

end Fs

end Xv6
