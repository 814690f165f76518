import Xv6.Fs.Fs

/-!
# The volume: inodes, bitmap and data blocks

The blocks of a file system hold three things that do not overlap: the on-disk inodes, the bitmap
and the data blocks.  `Fs.vol` reads them off the blocks, and the lemmas of this module say what
each kind of block write does to them.  The functions above the allocator are then followed on the
volume, without looking into blocks again.
-/

namespace Xv6

open Stateful Function List

/-! ### Inode blocks -/

section Codec

variable (b : Block) (d : Dinode) {slot slot' : ℕ}

theorem length_addrs : ((List.ofFn d.addrs).map BitVec.toNat).length = 13 := by simp

theorem addrs_lt : ∀ x ∈ (List.ofFn d.addrs).map BitVec.toNat, x < 2 ^ 32 := by
  intro x hx
  obtain ⟨y, -, rfl⟩ := mem_map.1 hx
  exact y.isLt

theorem ofNat_mod_two_pow {w : ℕ} (x : BitVec w) : BitVec.ofNat w (x.toNat % 2 ^ w) = x := by
  rw [Nat.mod_eq_of_lt x.isLt, BitVec.ofNat_toNat, BitVec.setWidth_eq]

theorem decodeDinode_encodeDinode_self (hs : slot < IPB) :
    decodeDinode (encodeDinode b slot d) slot = d := by
  have hs' : slot < 16 := hs
  have hB : BSIZE = 1024 := rfl
  have hlen := length_addrs d
  unfold decodeDinode encodeDinode
  simp only [DINODESIZE]
  ext1
  · simp only
    rw [Bytes.getLE_putWords_of_disjoint _ _ (by omega), Bytes.getLE_putLE_of_disjoint _ _ (by omega),
      Bytes.getLE_putLE_of_disjoint _ _ (by omega), Bytes.getLE_putLE_of_disjoint _ _ (by omega),
      Bytes.getLE_putLE_of_disjoint _ _ (by omega), Bytes.getLE_putLE_self _ _ (by omega)]
    exact ofNat_mod_two_pow d.type
  · simp only
    rw [Bytes.getLE_putWords_of_disjoint _ _ (by omega), Bytes.getLE_putLE_of_disjoint _ _ (by omega),
      Bytes.getLE_putLE_of_disjoint _ _ (by omega), Bytes.getLE_putLE_of_disjoint _ _ (by omega),
      Bytes.getLE_putLE_self _ _ (by omega)]
    exact ofNat_mod_two_pow d.major
  · simp only
    rw [Bytes.getLE_putWords_of_disjoint _ _ (by omega), Bytes.getLE_putLE_of_disjoint _ _ (by omega),
      Bytes.getLE_putLE_of_disjoint _ _ (by omega), Bytes.getLE_putLE_self _ _ (by omega)]
    exact ofNat_mod_two_pow d.minor
  · simp only
    rw [Bytes.getLE_putWords_of_disjoint _ _ (by omega), Bytes.getLE_putLE_of_disjoint _ _ (by omega),
      Bytes.getLE_putLE_self _ _ (by omega)]
    exact ofNat_mod_two_pow d.nlink
  · simp only
    rw [Bytes.getLE_putWords_of_disjoint _ _ (by omega), Bytes.getLE_putLE_self _ _ (by omega)]
    exact ofNat_mod_two_pow d.size
  · funext k
    have hk : k.val < ((List.ofFn d.addrs).map BitVec.toNat).length := by rw [hlen]; exact k.isLt
    simp only
    rw [Bytes.getLE_putWords _ _ (addrs_lt d) (by omega) hk, getElem_map, List.getElem_ofFn,
      BitVec.ofNat_toNat, BitVec.setWidth_eq]

theorem decodeDinode_encodeDinode_of_ne (hne : slot' ≠ slot) :
    decodeDinode (encodeDinode b slot d) slot' = decodeDinode b slot' := by
  have hlen := length_addrs d
  have key : ∀ {k off}, DINODESIZE * slot' ≤ off → off + k ≤ DINODESIZE * slot' + 64 →
      (encodeDinode b slot d).getLE k off = b.getLE k off := by
    intro k off h1 h2
    simp only [DINODESIZE] at h1 h2
    unfold encodeDinode
    simp only [DINODESIZE]
    rw [Bytes.getLE_putWords_of_disjoint _ _ (by omega), Bytes.getLE_putLE_of_disjoint _ _ (by omega),
      Bytes.getLE_putLE_of_disjoint _ _ (by omega), Bytes.getLE_putLE_of_disjoint _ _ (by omega),
      Bytes.getLE_putLE_of_disjoint _ _ (by omega), Bytes.getLE_putLE_of_disjoint _ _ (by omega)]
  unfold decodeDinode
  ext1
  · simp only
    rw [key (by omega) (by omega)]
  · simp only
    rw [key (by omega) (by omega)]
  · simp only
    rw [key (by omega) (by omega)]
  · simp only
    rw [key (by omega) (by omega)]
  · simp only
    rw [key (by omega) (by omega)]
  · funext k
    have hk := k.isLt
    have hD : NDIRECT = 12 := rfl
    simp only
    rw [key (by omega) (by omega)]

end Codec

/-! ### The volume -/

namespace Superblock

/-- The first data block. -/
def dataStart (sb : Superblock) : ℕ := sb.size - sb.nblocks

/-- The layout `mkfs` gives a disk: boot block, superblock and log, then inode blocks, bitmap and
data blocks. -/
structure Ok (sb : Superblock) : Prop where
  size_lt : sb.size < 2 ^ 31
  inode : sb.inodestart + (sb.ninodes / IPB + 1) ≤ sb.bmapstart
  bmap : sb.bmapstart + (sb.size / BPB + 1) ≤ sb.dataStart

variable {sb : Superblock} {i j x y : ℕ}

theorem Ok.bmapstart_lt (h : sb.Ok) : sb.bmapstart < sb.dataStart := by
  have h1 := h.bmap
  have h2 := Nat.zero_le (sb.size / BPB)
  omega

theorem Ok.dataStart_pos (h : sb.Ok) : 0 < sb.dataStart := by
  have := h.bmapstart_lt
  omega

theorem Ok.iblock_lt (h : sb.Ok) (hi : i < sb.ninodes) : sb.iblock i < sb.bmapstart := by
  have h1 := h.inode
  have h2 : i / IPB ≤ sb.ninodes / IPB := Nat.div_le_div_right hi.le
  unfold iblock
  omega

theorem Ok.bblock_lt (h : sb.Ok) (hx : x < sb.size) :
    sb.bmapstart ≤ sb.bblock x ∧ sb.bblock x < sb.dataStart := by
  have h1 := h.bmap
  have h2 : x / BPB ≤ sb.size / BPB := Nat.div_le_div_right hx.le
  have h3 := Nat.zero_le (x / BPB)
  unfold bblock
  omega

theorem eq_of_iblock (h : sb.iblock i = sb.iblock j) (hm : i % IPB = j % IPB) : i = j := by
  have h1 : i / IPB = j / IPB := by
    unfold iblock at h
    omega
  rw [← Nat.div_add_mod i IPB, ← Nat.div_add_mod j IPB, h1, hm]

/-- Blocks whose bits are in one bitmap block differ in the place of their bits. -/
theorem eq_of_bblock (h : sb.bblock x = sb.bblock y) (hm : x % BPB = y % BPB) : x = y := by
  have h1 : x / BPB = y / BPB := by
    unfold bblock at h
    omega
  rw [← Nat.div_add_mod x BPB, ← Nat.div_add_mod y BPB, h1, hm]

end Superblock

/-- The on-disk inodes, the bitmap, and the data blocks. -/
@[ext] structure Vol where
  dinode : ℕ → Dinode
  used : ℕ → Bool
  data : ℕ → Block

namespace Vol

/-- One inode changes. -/
def setDinode (v : Vol) (i : ℕ) (d : Dinode) : Vol := { v with dinode := Function.update v.dinode i d }

/-- One bit changes. -/
def setUsed (v : Vol) (x : ℕ) (u : Bool) : Vol := { v with used := Function.update v.used x u }

/-- One data block changes. -/
def setData (v : Vol) (x : ℕ) (b : Block) : Vol := { v with data := Function.update v.data x b }

end Vol

namespace Fs

/-- The volume on the blocks of a file system. -/
def vol (s : Fs) : Vol where
  dinode := fun i =>
    if i < s.sb.ninodes then decodeDinode (s.view (s.sb.iblock i)) (i % IPB) else Dinode.zero
  used := fun x => decide (x < s.sb.size) && (s.view (s.sb.bblock x)).getBit (x % BPB)
  data := fun x => if s.sb.dataStart ≤ x ∧ x < s.sb.size then s.view x else fun _ => 0

variable {s : Fs} {i x b : ℕ} {e : Fin NINODE} {v : Block}

@[simp] theorem bread_run (s : Fs) (b : ℕ) : bread b s = .ok (s.view b) s := rfl

@[simp] theorem wp_read {Q : Block → Fs → Prop} {A : Stop → Fs → Prop} :
    wp (bread b) Q A s ↔ Q (s.view b) s := Iff.rfl

@[simp] theorem wp_log {Q : Unit → Fs → Prop} {A : Stop → Fs → Prop} :
    wp (logWrite b v) Q A s ↔ Q () (s.write b v) := Iff.rfl

@[simp] theorem write_sb : (s.write b v).sb = s.sb := rfl
@[simp] theorem write_inode : (s.write b v).inode = s.inode := rfl

theorem view_write (c : ℕ) : (s.write b v).view c = if c = b then v else s.view c := by
  unfold view write
  by_cases hc : c = b
  · subst hc
    simp
  · simp [hc]

theorem vol_dinode (hi : i < s.sb.ninodes) :
    s.vol.dinode i = decodeDinode (s.view (s.sb.iblock i)) (i % IPB) := if_pos hi

theorem vol_dinode_of_not (hi : ¬ i < s.sb.ninodes) : s.vol.dinode i = Dinode.zero := if_neg hi

theorem vol_used (hx : x < s.sb.size) :
    s.vol.used x = (s.view (s.sb.bblock x)).getBit (x % BPB) := by
  simp [vol, hx]

theorem vol_used_of_not (hx : ¬ x < s.sb.size) : s.vol.used x = false := by
  simp [vol, hx]

theorem vol_data (hx : s.sb.dataStart ≤ x ∧ x < s.sb.size) : s.vol.data x = s.view x := if_pos hx

theorem vol_data_of_not (hx : ¬ (s.sb.dataStart ≤ x ∧ x < s.sb.size)) :
    s.vol.data x = fun _ => 0 := if_neg hx

section Parts

variable {t : Fs} (hsb : t.sb = s.sb)
include hsb

theorem vol_dinode_congr
    (h : i < s.sb.ninodes → t.view (s.sb.iblock i) = s.view (s.sb.iblock i)) :
    t.vol.dinode i = s.vol.dinode i := by
  by_cases hi : i < s.sb.ninodes
  · rw [vol_dinode hi, vol_dinode (by rwa [hsb]), hsb, h hi]
  · rw [vol_dinode_of_not hi, vol_dinode_of_not (by rwa [hsb])]

theorem vol_used_congr
    (h : x < s.sb.size → t.view (s.sb.bblock x) = s.view (s.sb.bblock x)) :
    t.vol.used x = s.vol.used x := by
  by_cases hx : x < s.sb.size
  · rw [vol_used hx, vol_used (by rwa [hsb]), hsb, h hx]
  · rw [vol_used_of_not hx, vol_used_of_not (by rwa [hsb])]

theorem vol_data_congr (h : s.sb.dataStart ≤ x ∧ x < s.sb.size → t.view x = s.view x) :
    t.vol.data x = s.vol.data x := by
  by_cases hx : s.sb.dataStart ≤ x ∧ x < s.sb.size
  · rw [vol_data hx, vol_data (by rwa [hsb]), h hx]
  · rw [vol_data_of_not hx, vol_data_of_not (by rwa [hsb])]

end Parts

/-- Two states that differ in the view of one data block. -/
theorem vol_of_view_data {t : Fs} (h : s.sb.Ok) (hsb : t.sb = s.sb) (h1 : s.sb.dataStart ≤ b)
    (h2 : b < s.sb.size) (hview : ∀ c, t.view c = if c = b then v else s.view c) :
    t.vol = s.vol.setData b v := by
  have hb := h.bmapstart_lt
  refine Vol.ext (funext fun i => ?_) (funext fun x => ?_) (funext fun x => ?_)
  · refine vol_dinode_congr hsb fun hi => ?_
    have hlt := h.iblock_lt hi
    rw [hview, if_neg (by omega)]
  · refine vol_used_congr hsb fun hx => ?_
    have hlt := (h.bblock_lt hx).2
    rw [hview, if_neg (by omega)]
  · show t.vol.data x = Function.update s.vol.data b v x
    by_cases hx : x = b
    · subst hx
      rw [update_self, vol_data (by rw [hsb]; exact ⟨h1, h2⟩), hview, if_pos rfl]
    · rw [update_of_ne hx]
      exact vol_data_congr hsb fun _ => by rw [hview, if_neg hx]

/-- **Writing a data block.** -/
theorem vol_write_data (h : s.sb.Ok) (h1 : s.sb.dataStart ≤ b) (h2 : b < s.sb.size) :
    (s.write b v).vol = s.vol.setData b v :=
  vol_of_view_data h rfl h1 h2 view_write

/-- **Writing an inode.** -/
theorem vol_write_dinode (h : s.sb.Ok) (hi : i < s.sb.ninodes) (d : Dinode) :
    (s.write (s.sb.iblock i) (encodeDinode (s.view (s.sb.iblock i)) (i % IPB) d)).vol =
      s.vol.setDinode i d := by
  have hlt := h.iblock_lt hi
  have hbmap := h.bmapstart_lt
  refine Vol.ext (funext fun j => ?_) (funext fun x => ?_) (funext fun x => ?_)
  · show (Fs.vol _).dinode j = Function.update s.vol.dinode i d j
    by_cases hji : j = i
    · subst hji
      rw [update_self, vol_dinode (s := s.write _ _) hi, write_sb, view_write, if_pos rfl,
        decodeDinode_encodeDinode_self _ _ (Nat.mod_lt _ (by decide))]
    · rw [update_of_ne hji]
      by_cases hblk : s.sb.iblock j = s.sb.iblock i
      · by_cases hj : j < s.sb.ninodes
        · rw [vol_dinode (s := s.write _ _) hj, vol_dinode hj, write_sb, view_write, if_pos hblk, hblk,
            decodeDinode_encodeDinode_of_ne _ _ fun hm => hji (Superblock.eq_of_iblock hblk hm)]
        · rw [vol_dinode_of_not (s := s.write _ _) hj, vol_dinode_of_not hj]
      · exact vol_dinode_congr rfl fun _ => by rw [view_write, if_neg hblk]
  · refine vol_used_congr rfl fun hx => ?_
    have := (h.bblock_lt hx).1
    rw [view_write, if_neg (by omega)]
  · exact vol_data_congr rfl fun hx => by rw [view_write, if_neg (by omega)]

/-- The bits after a change of one bitmap block that changes one bit. -/
theorem used_write_bit (hx : x < s.sb.size) (u : Bool)
    (hv : ∀ y, y < BPB → v.getBit y =
      if y = x % BPB then u else (s.view (s.sb.bblock x)).getBit y) :
    (s.write (s.sb.bblock x) v).vol.used = Function.update s.vol.used x u := by
  funext y
  have hy : y % BPB < BPB := Nat.mod_lt _ (by decide)
  by_cases hyx : y = x
  · subst hyx
    rw [update_self, vol_used (s := s.write _ _) hx, write_sb, view_write, if_pos rfl,
      hv _ hy, if_pos rfl]
  · rw [update_of_ne hyx]
    by_cases hblk : s.sb.bblock y = s.sb.bblock x
    · by_cases hys : y < s.sb.size
      · rw [vol_used (s := s.write _ _) hys, vol_used hys, write_sb, view_write, if_pos hblk, hv _ hy,
          if_neg fun hm => hyx (Superblock.eq_of_bblock hblk hm), hblk]
      · rw [vol_used_of_not (s := s.write _ _) hys, vol_used_of_not hys]
    · exact vol_used_congr rfl fun _ => by rw [view_write, if_neg hblk]

/-- What a change of one bitmap block does, when it changes one bit. -/
theorem vol_write_bit (h : s.sb.Ok) (hx : x < s.sb.size) (u : Bool)
    (hv : ∀ y, y < BPB → v.getBit y =
      if y = x % BPB then u else (s.view (s.sb.bblock x)).getBit y) :
    (s.write (s.sb.bblock x) v).vol = s.vol.setUsed x u := by
  obtain ⟨hlo, hhi⟩ := h.bblock_lt hx
  refine Vol.ext (funext fun j => ?_) (used_write_bit hx u hv) (funext fun y => ?_)
  · refine vol_dinode_congr rfl fun hj => ?_
    have := h.iblock_lt hj
    rw [view_write, if_neg (by omega)]
  · exact vol_data_congr rfl fun hy => by rw [view_write, if_neg (by omega)]

theorem getBit_mark (data : Block) (x y : ℕ) :
    (data.setBit (x % BPB)).getBit y = if y = x % BPB then true else data.getBit y := by
  have hm : x % BPB < 8 * BSIZE := Nat.mod_lt _ (by decide)
  rw [Bytes.getBit_setBit _ hm]
  split_ifs with hy <;> simp [hy]

theorem getBit_unmark (data : Block) (x y : ℕ) :
    (data.clearBit (x % BPB)).getBit y = if y = x % BPB then false else data.getBit y := by
  have hm : x % BPB < 8 * BSIZE := Nat.mod_lt _ (by decide)
  rw [Bytes.getBit_clearBit _ hm]
  split_ifs with hy <;> simp [hy]

theorem vol_write_setBit (h : s.sb.Ok) (hx : x < s.sb.size) :
    (s.write (s.sb.bblock x) ((s.view (s.sb.bblock x)).setBit (x % BPB))).vol =
      s.vol.setUsed x true :=
  vol_write_bit h hx true fun y _ => getBit_mark _ x y

theorem vol_write_clearBit (h : s.sb.Ok) (hx : x < s.sb.size) :
    (s.write (s.sb.bblock x) ((s.view (s.sb.bblock x)).clearBit (x % BPB))).vol =
      s.vol.setUsed x false :=
  vol_write_bit h hx false fun y _ => getBit_unmark _ x y

/-! ### The allocator -/

theorem findBit_eq_some {data : Block} {b size fuel bi k : ℕ}
    (h : findBit data b size fuel bi = some k) :
    k < BPB ∧ b + k < size ∧ data.getBit k = false := by
  induction fuel generalizing bi with
  | zero => cases h
  | succ fuel ih =>
    rw [findBit] at h
    split_ifs at h with h1 h2
    · exact ih h
    · cases h
      exact ⟨h1.1, h1.2, by simpa using h2⟩

theorem findBit_least {data : Block} {b size fuel bi j k : ℕ} (h : findBit data b size fuel bi = some k)
    (hj : bi ≤ j) (hk : j < k) : data.getBit j = true := by
  induction fuel generalizing bi with
  | zero => cases h
  | succ fuel ih =>
    rw [findBit] at h
    split_ifs at h with h1 h2
    · rcases Nat.eq_or_lt_of_le hj with rfl | hlt
      · exact h2
      · exact ih h hlt
    · cases h
      omega

theorem findBit_eq_none {data : Block} {b size fuel bi k : ℕ}
    (h : findBit data b size fuel bi = none) (hf : BPB ≤ fuel + bi) (hk : bi ≤ k) (hk' : k < BPB)
    (hs : b + k < size) : data.getBit k = true := by
  induction fuel generalizing bi with
  | zero => omega
  | succ fuel ih =>
    rw [findBit, if_pos ⟨by omega, by omega⟩] at h
    split_ifs at h with h2
    rcases Nat.eq_or_lt_of_le hk with rfl | hlt
    · exact h2
    · exact ih h (by omega) hlt

/-- The state after block `x` was marked in use and zeroed. -/
def alloc (s : Fs) (x : ℕ) : Fs :=
  (s.write (s.sb.bblock x) ((s.view (s.sb.bblock x)).setBit (x % BPB))).write x fun _ => 0

theorem vol_alloc (h : s.sb.Ok) (h1 : s.sb.dataStart ≤ x) (h2 : x < s.sb.size) :
    (s.alloc x).vol = (s.vol.setUsed x true).setData x fun _ => 0 := by
  rw [alloc, vol_write_data (s := s.write _ _) h h1 h2, vol_write_setBit h h2]

/-- The outer loop, when the bits before the current bitmap block are set, finds the first clear one. -/
theorem wp_ballocLoop {fuel q : ℕ} (hq : s.sb.size / BPB + 1 ≤ fuel + q)
    (hall : ∀ y < s.sb.size, y < BPB * q → s.vol.used y = true) :
    wp (ballocLoop s.sb fuel (BPB * q))
      (fun x t => (x = 0 ∧ t = s ∧ ∀ y < s.sb.size, s.vol.used y = true) ∨
        (x < s.sb.size ∧ s.vol.used x = false ∧ (∀ y < x, s.vol.used y = true) ∧ t = s.alloc x))
      (fun _ _ => False) s := by
  induction fuel generalizing q with
  | zero =>
    refine Or.inl ⟨rfl, rfl, fun y hy => hall y hy ?_⟩
    have h1 : y / BPB ≤ s.sb.size / BPB := Nat.div_le_div_right hy.le
    exact (Nat.div_lt_iff_lt_mul (by decide)).1 (by omega) |>.trans_eq (Nat.mul_comm _ _)
  | succ fuel ih =>
    rw [ballocLoop]
    split_ifs with hlt
    swap
    · exact Or.inl ⟨rfl, rfl, fun y hy => hall y hy (by omega)⟩
    rw [wp_bind, wp_read]
    have hplace : ∀ k, k < BPB → (BPB * q + k) / BPB = q ∧ (BPB * q + k) % BPB = k := by
      intro k hk
      constructor
      · rw [Nat.mul_add_div (by decide), Nat.div_eq_of_lt hk, Nat.add_zero]
      · rw [Nat.mul_add_mod, Nat.mod_eq_of_lt hk]
    have hblock : ∀ k, k < BPB → s.sb.bblock (BPB * q + k) = s.sb.bblock (BPB * q) := by
      intro k hk
      rw [Superblock.bblock, Superblock.bblock, (hplace k hk).1,
        Nat.mul_div_cancel_left _ (by decide)]
    have hused : ∀ y < s.sb.size, BPB * q ≤ y → y < BPB * (q + 1) →
        s.vol.used y = (s.view (s.sb.bblock (BPB * q))).getBit (y - BPB * q) := by
      intro y hy h1 h2
      have hk : y - BPB * q < BPB := by
        rw [Nat.mul_succ] at h2
        omega
      have hblk := hblock _ hk
      have hmod := (hplace _ hk).2
      rw [Nat.add_sub_cancel' h1] at hblk hmod
      rw [vol_used hy, hblk, hmod]
    cases hfind : findBit (s.view (s.sb.bblock (BPB * q))) (BPB * q) s.sb.size BPB 0 with
    | some k =>
      obtain ⟨hk, hks, hbit⟩ := findBit_eq_some hfind
      simp only [wp_bind, wp_log, bzero, wp_read, wp_pure]
      refine Or.inr ⟨hks, ?_, fun y hy => ?_, ?_⟩
      · rwa [vol_used hks, hblock k hk, (hplace k hk).2]
      · by_cases hyq : y < BPB * q
        · exact hall y (hy.trans hks) hyq
        · rw [hused y (hy.trans hks) (by omega) (by rw [Nat.mul_succ]; omega)]
          exact findBit_least hfind (Nat.zero_le _) (by omega)
      · rw [alloc, hblock k hk, (hplace k hk).2]
    | none =>
      simp only
      rw [← Nat.mul_succ]
      refine ih (by omega) fun y hy hyq => ?_
      by_cases hyq' : y < BPB * q
      · exact hall y hy hyq'
      · rw [hused y hy (by omega) hyq]
        rw [Nat.mul_succ] at hyq
        exact findBit_eq_none hfind (Nat.le_refl _) (Nat.zero_le _) (by omega) (by omega)

theorem wp_balloc_least :
    wp balloc
      (fun x t => (x = 0 ∧ t = s ∧ ∀ y < s.sb.size, s.vol.used y = true) ∨
        (x < s.sb.size ∧ s.vol.used x = false ∧ (∀ y < x, s.vol.used y = true) ∧ t = s.alloc x))
      (fun _ _ => False) s := by
  unfold balloc
  rw [wp_bind, wp_get]
  exact wp_ballocLoop (q := 0) (by omega) fun y _ hy => absurd hy (by omega)

/-- **`balloc`** returns a free data block, marked in use and zeroed, or 0 when there is none. -/
theorem wp_balloc (hmeta : ∀ x < s.sb.dataStart, s.vol.used x = true) :
    wp balloc
      (fun x t => (x = 0 ∧ t = s ∧ ∀ y < s.sb.size, s.vol.used y = true) ∨
        (s.sb.dataStart ≤ x ∧ x < s.sb.size ∧ s.vol.used x = false ∧ t = s.alloc x))
      (fun _ _ => False) s := by
  refine wp_post wp_balloc_least fun x t h => h.imp_right ?_
  rintro ⟨hlt, hfree, -, ht⟩
  refine ⟨not_lt.1 fun hm => ?_, hlt, hfree, ht⟩
  rw [hmeta x hm] at hfree
  cases hfree

/-- The state after block `x` was marked free. -/
def release (s : Fs) (x : ℕ) : Fs :=
  s.write (s.sb.bblock x) ((s.view (s.sb.bblock x)).clearBit (x % BPB))

theorem vol_release (h : s.sb.Ok) (hx : x < s.sb.size) :
    (s.release x).vol = s.vol.setUsed x false := vol_write_clearBit h hx

theorem used_release (hx : x < s.sb.size) : (s.release x).vol.used = Function.update s.vol.used x false :=
  used_write_bit hx false fun y _ => getBit_unmark _ x y

/-- **`bfree`** of a block in use. -/
theorem bfree_run (hx : x < s.sb.size) (hu : s.vol.used x = true) :
    bfree x s = .ok () (s.release x) := by
  rw [vol_used hx] at hu
  unfold bfree
  rw [Prog.bind_of_ok (Prog.get_run s), Prog.bind_of_ok (bread_run s _)]
  simp only [hu]
  rfl

/-- **The block bitmap.**  When the first block and the blocks of the bitmap are marked in use, `balloc`
takes the lowest free block of the device, sets its bit only and zeroes that block only, and `bfree` brings
the bitmap back; or no block is free, and nothing changes.  `bfree` of a block in use clears its bit
only. -/
theorem balloc_exact (h0 : s.vol.used 0 = true)
    (hmap : ∀ y < s.sb.size, s.vol.used (s.sb.bblock y) = true) :
    (∃ x t, balloc s = .ok x t ∧
      ((x = 0 ∧ t = s ∧ ∀ y < s.sb.size, s.vol.used y = true) ∨
        (x ≠ 0 ∧ x < s.sb.size ∧ s.vol.used x = false ∧ (∀ y < x, s.vol.used y = true) ∧
          t.vol.used = Function.update s.vol.used x true ∧
          (∀ b, t.view b = if b = x then fun _ => 0
            else if b = s.sb.bblock x then (s.view b).setBit (x % BPB) else s.view b) ∧
          ∃ u, bfree x t = .ok () u ∧ u.vol.used = s.vol.used))) ∧
    ∀ x < s.sb.size, s.vol.used x = true → ∃ t, bfree x s = .ok () t ∧
      t.vol.used = Function.update s.vol.used x false ∧
      ∀ b, t.view b = if b = s.sb.bblock x then (s.view b).clearBit (x % BPB) else s.view b := by
  constructor
  · obtain ⟨x, t, hrun, hall | ⟨hlt, hfree, hleast, rfl⟩⟩ := wp_returns wp_balloc_least fun _ _ hf => hf
    · exact ⟨x, t, hrun, .inl hall⟩
    have hne : ∀ y, s.vol.used y = true → y ≠ x := by
      rintro y hy rfl
      rw [hfree] at hy
      cases hy
    have hview : ∀ b, (s.alloc x).view b = if b = x then fun _ => 0
        else if b = s.sb.bblock x then (s.view b).setBit (x % BPB) else s.view b := by
      intro b
      rw [alloc, view_write, view_write]
      split_ifs with h1 h2
      · rfl
      · rw [h2]
      · rfl
    have hused : (s.alloc x).vol.used = Function.update s.vol.used x true := by
      rw [← used_write_bit hlt true fun y _ => getBit_mark _ x y]
      funext y
      -- the block zeroed holds no bits
      refine vol_used_congr rfl fun hy => ?_
      exact (view_write _).trans (if_neg (hne _ (hmap y hy)))
    refine ⟨x, _, hrun, .inr ⟨(hne 0 h0).symm, hlt, hfree, hleast, hused, hview, _,
      bfree_run hlt (by rw [hused, update_self]), ?_⟩⟩
    rw [used_release (s := s.alloc x) hlt, hused, update_idem, ← hfree, update_eq_self]
  · intro x hx hu
    refine ⟨_, bfree_run hx hu, used_release hx, fun b => ?_⟩
    rw [release, view_write]
    split_ifs with h
    · rw [h]
    · rfl

/-- A device of three blocks with its bitmap in block 1. -/
def threeBlocks (bits : Byte) : Fs where
  sb := ⟨3, 1, 0, 0, 0, 0, 1⟩
  disk := fun b k => if b = 1 ∧ k.val = 0 then bits else 0
  dirty := fun _ => none
  logged := []
  inode := fun _ => ⟨Dinode.zero, 0, 0, 0, false⟩

/-- The first two blocks are in use. -/
theorem balloc_exact_three : ∃ x t, balloc (threeBlocks 3) = .ok x t := by
  have hmap : ∀ y < 3, (threeBlocks 3).vol.used ((threeBlocks 3).sb.bblock y) = true := by decide
  obtain ⟨x, t, hrun, -⟩ := (balloc_exact (s := threeBlocks 3) (by decide) hmap).1
  exact ⟨x, t, hrun⟩

/-- A bitmap that marks its own block free is handed out and zeroed: all bits are lost. -/
theorem balloc_bitmap : (threeBlocks 1).vol.used 0 = true ∧
    ∃ t, balloc (threeBlocks 1) = .ok 1 t ∧ t.vol.used 0 = false ∧ t.vol.used 1 = false :=
  ⟨by decide, _, rfl, by decide, by decide⟩

/-- The state after an in-memory inode was copied to disk. -/
def update (s : Fs) (e : Fin NINODE) : Fs :=
  s.write (s.sb.iblock (s.inode e).inum) (encodeDinode (s.view (s.sb.iblock (s.inode e).inum))
    ((s.inode e).inum % IPB) (s.inode e).toDinode)

theorem iupdate_run (s : Fs) (e : Fin NINODE) : iupdate e s = .ok () (s.update e) := rfl

theorem vol_update (h : s.sb.Ok) (hi : (s.inode e).inum < s.sb.ninodes) :
    (s.update e).vol = s.vol.setDinode (s.inode e).inum (s.inode e).toDinode :=
  vol_write_dinode h hi _

end Fs

end Xv6
