import Xv6.Fs.Room

/-!
# What `readi` delivers

`readi` copies the bytes of a file block by block to a destination, which may be kernel memory, a page or
a user buffer.  The destination is described by what it has got after a number of bytes (`Fs.Takes`), and
`readi` then ends with what it has got after the bytes from the offset to the end of the file, or to the
end of the request (`Fs.readCount`).

* `Fs.Starts`: `bmap` finds the blocks of a file, which begins with given bytes, without a change;
* `Fs.bytes`: the bytes of a file, up to its size;
* `Fs.readiLoop_takes`, `Fs.readi_takes`: the destination gets the bytes;
* `Fs.readi_starts`: the bytes that a kernel destination gets.
-/

namespace Xv6

open Stateful List

namespace Fs

variable {s t : Fs} {e : Fin NINODE} {cs : List Byte}

/-- `readi` to a kernel address: the bytes so far, and the next ones. -/
def memmove (dst : List Byte) (_tot : ℕ) (bytes : List Byte) : List Byte × Bool := (dst ++ bytes, true)

/-! ### Reading -/

theorem bmap_of_slot {bn : ℕ} {k : Slot} (hk : Dinode.blockSlot bn = some k)
    (hne : (s.inode e).toDinode.slot s.view k ≠ 0) :
    bmap e bn s = .ok ((s.inode e).toDinode.slot s.view k) s := by
  have hmap : ∀ i, ((s.inode e).addrs i).toNat ≠ 0 →
      mapSlot e i s = .ok ((s.inode e).addrs i).toNat s := by
    intro i hi
    unfold mapSlot
    rw [Prog.bind_of_ok (Prog.get_run s), if_neg hi]
    rfl
  unfold Dinode.blockSlot at hk
  unfold bmap
  split_ifs at hk with hd hi
  · cases hk
    rw [dif_pos hd]
    exact hmap _ hne
  · cases hk
    have hind : (s.inode e).ind ≠ 0 := by
      intro h0
      exact hne (if_pos h0)
    have hslot : (s.inode e).slot s.view (.entry ⟨bn - NDIRECT, hi⟩)
        = (s.view (s.inode e).ind).getLE 4 (4 * (bn - NDIRECT)) := if_neg hind
    rw [hslot] at hne ⊢
    have haddr : ¬ ((s.inode e).addrs indirectSlot).toNat = 0 := hind
    rw [dif_neg hd, if_pos hi, Prog.bind_of_ok (hmap indirectSlot hind), if_neg haddr,
      Prog.bind_of_ok (bread_run s _)]
    dsimp only
    rw [if_neg (by exact hne)]
    rfl

/-- `bmap` finds the blocks of the file of an entry without a change, and it begins with these bytes. -/
def Starts (s : Fs) (e : Fin NINODE) (cs : List Byte) : Prop :=
  ∀ k b, cs[k]? = some b → ∃ x, x ≠ 0 ∧ bmap e (k / BSIZE) s = .ok x s ∧ (s.view x).get (k % BSIZE) = b

theorem Starts.slice (h : Starts s e cs) {off m x : ℕ} (hbmap : bmap e (off / BSIZE) s = .ok x s)
    (hm : m ≤ BSIZE - off % BSIZE) (hend : off + m ≤ cs.length) :
    (s.view x).slice (off % BSIZE) m = (cs.drop off).take m := by
  have hB : 0 < BSIZE := by decide
  refine ext_getElem? fun k => ?_
  rw [Bytes.getElem?_slice]
  split_ifs with hk
  · have hlt : off % BSIZE + k < BSIZE := by omega
    have hsplit : off + k = off % BSIZE + k + BSIZE * (off / BSIZE) := by
      have := Nat.mod_add_div off BSIZE
      omega
    have hdiv : (off + k) / BSIZE = off / BSIZE := by
      rw [hsplit, Nat.add_mul_div_left _ _ hB, Nat.div_eq_of_lt hlt, Nat.zero_add]
    have hmod : (off + k) % BSIZE = off % BSIZE + k := by
      rw [hsplit, Nat.add_mul_mod_self_left, Nat.mod_eq_of_lt hlt]
    have hlen : off + k < cs.length := by omega
    obtain ⟨y, -, hy, hget⟩ := h (off + k) cs[off + k] (getElem?_eq_getElem hlen)
    rw [hdiv, hbmap] at hy
    cases hy
    rw [getElem?_take_of_lt hk, getElem?_drop, getElem?_eq_getElem hlen, ← hget, hmod]
  · rw [getElem?_take, if_neg hk]

/-- A destination that takes the bytes of a file from `base` on: after `tot` of them it is `I tot`. -/
def Takes {τ : Type} (sink : τ → ℕ → List Byte → τ × Bool) (I : ℕ → τ → Prop) (cs : List Byte)
    (base n : ℕ) : Prop :=
  ∀ a tot m, I tot a → tot + m ≤ n → (sink a tot ((cs.drop (base + tot)).take m)).2 = true ∧
    I (tot + m) (sink a tot ((cs.drop (base + tot)).take m)).1

section Takes

variable {τ : Type} {sink : τ → ℕ → List Byte → τ × Bool} {I : ℕ → τ → Prop}

/-- **The loop of `readi`** hands on the bytes. -/
theorem readiLoop_takes (h : Starts s e cs) {base n fuel tot : ℕ} {a : τ} (hI : Takes sink I cs base n)
    (ha : I tot a) (htot : tot ≤ n) (hfuel : n - tot ≤ fuel) (hend : base + n ≤ cs.length) :
    ∃ a', readiLoop sink e n fuel tot (base + tot) a s = .ok (a', BitVec.ofNat 32 n) s ∧ I n a' := by
  -- induction on the rounds: each takes the rest of one block, at least a byte
  induction fuel generalizing tot a with
  | zero =>
    obtain rfl : tot = n := by omega
    exact ⟨a, rfl, ha⟩
  | succ fuel ih =>
    rw [readiLoop]
    by_cases hlt : tot < n
    swap
    · obtain rfl : tot = n := by omega
      rw [if_neg hlt]
      exact ⟨a, rfl, ha⟩
    have hlen : base + tot < cs.length := by omega
    obtain ⟨x, hx, hbmap, -⟩ := h (base + tot) cs[base + tot] (getElem?_eq_getElem hlen)
    have hB : (base + tot) % BSIZE < BSIZE := Nat.mod_lt _ (by decide)
    rw [if_pos hlt, Prog.bind_of_ok hbmap, if_neg hx, Prog.bind_of_ok (bread_run s x)]
    set m := min (n - tot) (BSIZE - (base + tot) % BSIZE) with hm
    have hslice := h.slice (m := m) hbmap (by omega) (by omega)
    obtain ⟨hok, hnext⟩ := hI a tot m ha (by omega)
    dsimp only
    rw [hslice, hok, if_neg (by decide), Nat.add_assoc]
    exact ih hnext (by omega) (by omega)

/-- The number of bytes that `readi` copies. -/
def readCount (size off n : BitVec 32) : ℕ :=
  if off > size ∨ off + n < off then 0 else min n.toNat (size.toNat - off.toNat)

/-- A request that does not wrap around is cut at the end of the file. -/
theorem readCount_eq {size off n : BitVec 32} (h : off.toNat + n.toNat < 2 ^ 32) :
    readCount size off n = min n.toNat (size.toNat - off.toNat) := by
  have hsum : (off + n).toNat = off.toNat + n.toNat := by
    rw [BitVec.toNat_add]
    exact Nat.mod_eq_of_lt h
  unfold readCount
  split_ifs with hbad
  · rw [gt_iff_lt, BitVec.lt_def, BitVec.lt_def, hsum] at hbad
    omega
  · rfl

/-- `readi` is its loop over the bytes that there are. -/
theorem readi_eq_loop (sink : τ → ℕ → List Byte → τ × Bool) (a : τ) (e : Fin NINODE) (off n : BitVec 32)
    (s : Fs) : readi sink a e off n s = readiLoop sink e (readCount (s.inode e).size off n)
      (readCount (s.inode e).size off n) 0 off.toNat a s := by
  unfold readi
  rw [Prog.bind_of_ok (Prog.get_run s)]
  by_cases hbad : off > (s.inode e).size ∨ off + n < off
  · have hcount : readCount (s.inode e).size off n = 0 := if_pos hbad
    rw [if_pos hbad, hcount]
    rfl
  have hcount : readCount (s.inode e).size off n = min n.toNat ((s.inode e).size.toNat - off.toNat) :=
    if_neg hbad
  obtain ⟨h1, h2⟩ := not_or.1 hbad
  rw [gt_iff_lt, BitVec.not_lt, BitVec.le_def] at h1
  rw [BitVec.not_lt, BitVec.le_def] at h2
  have hn : (if off + n > (s.inode e).size then (s.inode e).size - off else n).toNat =
      readCount (s.inode e).size off n := by
    have hsum := BitVec.toNat_add off n
    have hlt := off.isLt
    have hlt' := n.isLt
    rw [hcount]
    split_ifs with hcut
    · rw [gt_iff_lt, BitVec.lt_def] at hcut
      rw [BitVec.toNat_sub_of_le (BitVec.le_def.2 h1)]
      omega
    · rw [gt_iff_lt, BitVec.not_lt, BitVec.le_def] at hcut
      omega
  rw [if_neg hbad, hn]

theorem readCount_le (size off n : BitVec 32) : readCount size off n ≤ size.toNat - off.toNat := by
  unfold readCount
  split_ifs <;> omega

/-- **`readi`** hands on the bytes of the file from the offset on. -/
theorem readi_takes (h : Starts s e cs) (hsize : cs.length = (s.inode e).size.toNat) {off n : BitVec 32}
    {a : τ} (hI : Takes sink I cs off.toNat (readCount (s.inode e).size off n)) (ha : I 0 a) :
    ∃ a', readi sink a e off n s = .ok (a', BitVec.ofNat 32 (readCount (s.inode e).size off n)) s ∧
      I (readCount (s.inode e).size off n) a' := by
  have hle := readCount_le (s.inode e).size off n
  rw [readi_eq_loop]
  by_cases h0 : readCount (s.inode e).size off n = 0
  · rw [h0]
    exact ⟨a, rfl, ha⟩
  · have hend : off.toNat + readCount (s.inode e).size off n ≤ cs.length := by omega
    exact readiLoop_takes h hI ha (Nat.zero_le _) le_rfl hend

/-- Whatever the destination does, the loop hands on all the bytes or returns -1. -/
theorem readiLoop_all_or_fails (h : Starts s e cs) {base n fuel tot : ℕ} (a : τ) (htot : tot ≤ n)
    (hfuel : n - tot ≤ fuel) (hend : base + n ≤ cs.length) :
    ∃ a' r, readiLoop sink e n fuel tot (base + tot) a s = .ok (a', r) s ∧
      (r = BitVec.ofNat 32 n ∨ r = -1) := by
  induction fuel generalizing tot a with
  | zero =>
    obtain rfl : tot = n := by omega
    exact ⟨a, _, rfl, .inl rfl⟩
  | succ fuel ih =>
    rw [readiLoop]
    by_cases hlt : tot < n
    swap
    · obtain rfl : tot = n := by omega
      rw [if_neg hlt]
      exact ⟨a, _, rfl, .inl rfl⟩
    have hlen : base + tot < cs.length := by omega
    obtain ⟨x, hx, hbmap, -⟩ := h (base + tot) cs[base + tot] (getElem?_eq_getElem hlen)
    have hB : (base + tot) % BSIZE < BSIZE := Nat.mod_lt _ (by decide)
    rw [if_pos hlt, Prog.bind_of_ok hbmap, if_neg hx, Prog.bind_of_ok (bread_run s x)]
    dsimp only
    split_ifs
    · exact ⟨_, _, rfl, .inr rfl⟩
    · rw [Nat.add_assoc]
      exact ih _ (by omega) (by omega)

theorem readi_all_or_fails (h : Starts s e cs) (hsize : cs.length = (s.inode e).size.toNat)
    (sink : τ → ℕ → List Byte → τ × Bool) (a : τ) (off n : BitVec 32) :
    ∃ a' r, readi sink a e off n s = .ok (a', r) s ∧
      (r = BitVec.ofNat 32 (readCount (s.inode e).size off n) ∨ r = -1) := by
  have hle := readCount_le (s.inode e).size off n
  rw [readi_eq_loop]
  by_cases h0 : readCount (s.inode e).size off n = 0
  · rw [h0]
    exact ⟨a, _, rfl, .inl rfl⟩
  · have hend : off.toNat + readCount (s.inode e).size off n ≤ cs.length := by omega
    exact readiLoop_all_or_fails h a (Nat.zero_le _) le_rfl hend

end Takes

theorem takes_memmove (cs : List Byte) (base n : ℕ) :
    Takes memmove (fun tot dst => dst = (cs.drop base).take tot) cs base n := by
  intro a tot m ha _
  refine ⟨rfl, ?_⟩
  subst ha
  show (cs.drop base).take tot ++ _ = _
  rw [take_add, drop_drop]

/-- **`readi`** returns the bytes of the file. -/
theorem readi_starts (h : Starts s e cs) {off n : BitVec 32} (hend : off.toNat + n.toNat ≤ cs.length)
    (hsize : cs.length ≤ (s.inode e).size.toNat) :
    readi memmove [] e off n s = .ok ((cs.drop off.toNat).take n.toNat, n) s := by
  have hlt := (s.inode e).size.isLt
  have hcount : readCount (s.inode e).size off n = n.toNat := by
    rw [readCount_eq (by omega)]
    omega
  obtain ⟨a, hrun, rfl⟩ := readiLoop_takes h (takes_memmove cs off.toNat n.toNat) take_zero.symm
    (Nat.zero_le _) (Nat.sub_le n.toNat 0) hend
  rw [readi_eq_loop, hcount]
  rwa [BitVec.ofNat_toNat, BitVec.setWidth_eq] at hrun

/-! ### The bytes of a file -/

/-- The bytes of the file of an inode, up to its size. -/
def bytes (s : Fs) (i : ℕ) : List Byte :=
  (List.range (s.vol.dinode i).size.toNat).map fun k => s.byte none i k

@[simp] theorem length_bytes (s : Fs) (i : ℕ) : (s.bytes i).length = (s.vol.dinode i).size.toNat := by
  simp [bytes]

theorem getElem?_bytes (s : Fs) (i k : ℕ) :
    (s.bytes i)[k]? = if k < (s.vol.dinode i).size.toNat then some (s.byte none i k) else none := by
  unfold bytes
  rw [getElem?_map]
  split_ifs with hk
  · rw [getElem?_range hk]
    rfl
  · rw [getElem?_eq_none (by simpa using hk)]
    rfl

end Fs

namespace FsInv

variable {s : Fs} {e : Fin NINODE}

/-- An entry that was read has the size of the inode on disk. -/
theorem size_eq (hs : FsInv s none) (he : s.Live e) :
    (s.vol.dinode (s.inode e).inum).size = (s.inode e).size := by
  rw [← (hs.copy e he).2 (by simp)]

theorem length_bytes (hs : FsInv s none) (he : s.Live e) :
    (s.bytes (s.inode e).inum).length = (s.inode e).size.toNat := by
  rw [Fs.length_bytes, hs.size_eq he]

/-- **The bytes of a file are found** by `bmap`. -/
theorem starts (hs : FsInv s none) (he : s.Live e) : s.Starts e (s.bytes (s.inode e).inum) := by
  intro k b hb
  rw [Fs.getElem?_bytes, hs.size_eq he] at hb
  split_ifs at hb with hk
  cases hb
  have hs' := hs.lock he
  have hmax := hs'.size_le he
  obtain ⟨sl, hsl⟩ := Dinode.blockSlot_of_lt (div_lt_maxfile (show k < MAXFILE * BSIZE by omega))
  have hblock := Nat.div_mul_le_self k BSIZE
  have hne := hs'.slot_ne_zero he hsl (by omega)
  obtain ⟨x, t, hrun, -, -, hfill, hread⟩ := wp_returns (Fs.wp_bmap hs' he hsl) fun _ _ hf => hf
  obtain ⟨rfl, hx⟩ := hread hne
  have hrange := hs'.block_range hx (hfill hx)
  refine ⟨x, hx, hrun, ?_⟩
  unfold Fs.byte
  rw [hsl]
  show (t.view x).get _ = (t.vol.data (t.slots none _)).get _
  rw [← hs.lock_slots he, hfill hx, Fs.vol_data hrange]

end FsInv

end Xv6
