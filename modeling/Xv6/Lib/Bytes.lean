import Mathlib.Tactic

/-!
# Byte arrays of a fixed length, and little-endian words in them

* `Byte`, `Bytes n`, reading (`Bytes.get`, `Bytes.slice`) and overwriting a range
  (`Bytes.blit`, which drops what falls outside the array);
* `leBytes k v` and `ofLE`: the `k` little-endian bytes of a number and back;
* `Bytes.getLE`, `Bytes.putLE`: a `k`-byte word stored at an offset, with the two laws of a store
  (a word read where it was written, and a word read beside it);
* `Bytes.getBit`, `Bytes.setBit`: the same for single bits, eight to a byte.
-/

namespace Stateful

open List

/-- An eight-bit byte. -/
abbrev Byte := BitVec 8

/-- `n` bytes. -/
abbrev Bytes (n : ℕ) := Fin n → Byte

/-! ### Numbers as bytes -/

/-- The `k` low bytes of `v`, least significant first. -/
def leBytes : ℕ → ℕ → List Byte
  | 0, _ => []
  | k + 1, v => BitVec.ofNat 8 v :: leBytes k (v / 256)

/-- The number whose bytes, least significant first, are given. -/
def ofLE : List Byte → ℕ
  | [] => 0
  | x :: xs => x.toNat + 256 * ofLE xs

@[simp] theorem length_leBytes (k v : ℕ) : (leBytes k v).length = k := by
  induction k generalizing v with
  | zero => rfl
  | succ k ih => simp [leBytes, ih]

theorem ofLE_leBytes (k v : ℕ) : ofLE (leBytes k v) = v % 256 ^ k := by
  induction k generalizing v with
  | zero => simp [leBytes, ofLE, Nat.mod_one]
  | succ k ih =>
    have hp : 256 ^ (k + 1) = 256 * 256 ^ k := by rw [pow_succ, mul_comm]
    rw [leBytes, ofLE, ih, BitVec.toNat_ofNat, hp, Nat.mod_mul]

theorem ofLE_lt (l : List Byte) : ofLE l < 256 ^ l.length := by
  induction l with
  | nil => simp [ofLE]
  | cons x xs ih =>
    have hx := x.isLt
    simp only [ofLE, length_cons, pow_succ]
    omega

namespace Bytes

variable {n : ℕ}

/-- The byte at offset `i`, zero outside the array. -/
def get (b : Bytes n) (i : ℕ) : Byte := if h : i < n then b ⟨i, h⟩ else 0

/-- The `len` bytes from offset `off` on. -/
def slice (b : Bytes n) (off len : ℕ) : List Byte := (List.range len).map fun k => b.get (off + k)

/-- Overwrite the bytes from offset `off` on by those of a list. -/
def blit (b : Bytes n) (off : ℕ) (l : List Byte) : Bytes n := fun i =>
  if off ≤ i.val then (l[i.val - off]?).getD (b i) else b i

/-- The `k`-byte little-endian word at offset `off`. -/
def getLE (k : ℕ) (b : Bytes n) (off : ℕ) : ℕ := ofLE (b.slice off k)

/-- Store the low `k` bytes of `v` at offset `off`, little-endian. -/
def putLE (k : ℕ) (b : Bytes n) (off v : ℕ) : Bytes n := b.blit off (leBytes k v)

@[simp] theorem length_slice (b : Bytes n) (off len : ℕ) : (b.slice off len).length = len := by
  simp [slice]

theorem getElem?_slice (b : Bytes n) (off len k : ℕ) :
    (b.slice off len)[k]? = if k < len then some (b.get (off + k)) else none := by
  unfold slice
  rw [getElem?_map]
  split_ifs with h
  · rw [getElem?_range h]; rfl
  · rw [getElem?_eq_none (by simpa using Nat.le_of_not_lt h)]; rfl

theorem get_of_lt (b : Bytes n) {i : ℕ} (h : i < n) : b.get i = b ⟨i, h⟩ := dif_pos h

theorem get_of_ge (b : Bytes n) {i : ℕ} (h : n ≤ i) : b.get i = 0 := dif_neg (by omega)

section

variable (b : Bytes n)
include b

theorem get_blit (off : ℕ) (l : List Byte) (i : ℕ) :
    (b.blit off l).get i =
      if off ≤ i ∧ i < n then (l[i - off]?).getD (b.get i) else b.get i := by
  by_cases hi : i < n
  · rw [get_of_lt _ hi, get_of_lt _ hi]
    by_cases ho : off ≤ i <;> simp [blit, ho, hi]
  · rw [get_of_ge _ (by omega), get_of_ge _ (by omega), if_neg (by omega)]

theorem get_blit_of_not_mem {off i : ℕ} {l : List Byte}
    (h : i < off ∨ off + l.length ≤ i) : (b.blit off l).get i = b.get i := by
  rw [get_blit]
  split_ifs with hc
  · rw [getElem?_eq_none (by omega)]; rfl
  · rfl

theorem get_blit_of_mem {off k : ℕ} {l : List Byte} (hk : k < l.length)
    (hn : off + l.length ≤ n) : (b.blit off l).get (off + k) = l[k] := by
  rw [get_blit, if_pos ⟨by omega, by omega⟩, Nat.add_sub_cancel_left, getElem?_eq_getElem hk]
  rfl

theorem get_blit_singleton {k : ℕ} (v : Byte) (hk : k < n) :
    (b.blit k [v]).get k = v :=
  get_blit_of_mem b (k := 0) (by simp) (by simpa using hk)

/-- What was copied in is read back. -/
theorem slice_blit_self (off : ℕ) (l : List Byte) (h : off + l.length ≤ n) :
    (b.blit off l).slice off l.length = l := by
  apply ext_getElem (by simp)
  intro k h1 h2
  have hk : k < l.length := h2
  simp only [slice, getElem_map, getElem_range]
  exact get_blit_of_mem b hk h

/-- A range beside the one copied over keeps its bytes. -/
theorem slice_blit_of_disjoint {off off' len : ℕ} {l : List Byte}
    (h : off' + len ≤ off ∨ off + l.length ≤ off') :
    (b.blit off l).slice off' len = b.slice off' len := by
  unfold slice
  refine map_congr_left fun k hk => get_blit_of_not_mem b ?_
  have := mem_range.1 hk
  omega

end

/-! ### Words -/

/-- A word is read back where it was stored. -/
theorem getLE_putLE_self {k off : ℕ} (b : Bytes n) (v : ℕ) (h : off + k ≤ n) :
    getLE k (putLE k b off v) off = v % 256 ^ k := by
  have hs := slice_blit_self b off (leBytes k v) (by simpa using h)
  rw [length_leBytes] at hs
  rw [getLE, putLE, hs, ofLE_leBytes]

/-- Zeroed bytes hold zero words. -/
theorem getLE_zero (k off : ℕ) : getLE k (fun _ => 0 : Bytes n) off = 0 := by
  have hget : ∀ i, get (fun _ => 0 : Bytes n) i = 0 := by
    intro i
    unfold get
    split_ifs <;> rfl
  have key : ∀ l : List ℕ, ofLE (l.map fun _ => (0 : Byte)) = 0 := by
    intro l
    induction l with
    | nil => rfl
    | cons y l ih =>
      rw [map_cons, ofLE, ih]
      rfl
  unfold getLE slice
  simp only [hget]
  exact key _

/-- A word beside the one stored is unchanged. -/
theorem getLE_putLE_of_disjoint {k k' off off' : ℕ} (b : Bytes n) (v : ℕ)
    (h : off' + k' ≤ off ∨ off + k ≤ off') :
    getLE k' (putLE k b off v) off' = getLE k' b off' := by
  rw [getLE, getLE, putLE, slice_blit_of_disjoint b (by simpa using h)]

/-- The `m` four-byte words from offset `off` on. -/
def getWords (b : Bytes n) : ℕ → ℕ → List ℕ
  | _, 0 => []
  | off, m + 1 => getLE 4 b off :: getWords b (off + 4) m

/-- Store four-byte words one after the other from offset `off` on. -/
def putWords (b : Bytes n) : ℕ → List ℕ → Bytes n
  | _, [] => b
  | off, x :: xs => putWords (putLE 4 b off x) (off + 4) xs

@[simp] theorem length_getWords (b : Bytes n) (off m : ℕ) : (b.getWords off m).length = m := by
  induction m generalizing off with
  | zero => rfl
  | succ m ih => simp [getWords, ih]

theorem getLE_putWords_of_disjoint {k off off' : ℕ} (b : Bytes n) (l : List ℕ)
    (h : off' + k ≤ off ∨ off + 4 * l.length ≤ off') :
    getLE k (putWords b off l) off' = getLE k b off' := by
  induction l generalizing b off with
  | nil => rfl
  | cons x xs ih =>
    rw [length_cons] at h
    rw [putWords, ih _ (by omega), getLE_putLE_of_disjoint b x (by omega)]

/-- Words are read back where they were stored. -/
theorem getWords_putWords {off : ℕ} (b : Bytes n) (l : List ℕ) (hl : ∀ x ∈ l, x < 2 ^ 32)
    (h : off + 4 * l.length ≤ n) : getWords (putWords b off l) off l.length = l := by
  induction l generalizing b off with
  | nil => rfl
  | cons x xs ih =>
    rw [length_cons] at h
    have hx : x % 256 ^ 4 = x := Nat.mod_eq_of_lt (by simpa using hl x mem_cons_self)
    rw [length_cons, getWords, putWords, getLE_putWords_of_disjoint _ xs (by omega),
      getLE_putLE_self b x (by omega), hx,
      ih _ (fun y hy => hl y (mem_cons_of_mem _ hy)) (by omega)]

/-- The words read at their offsets. -/
theorem getElem_getWords (b : Bytes n) (off m : ℕ) {k : ℕ} (hk : k < (b.getWords off m).length) :
    (b.getWords off m)[k] = getLE 4 b (off + 4 * k) := by
  induction m generalizing off k with
  | zero => simp at hk
  | succ m ih =>
    cases k with
    | zero => rfl
    | succ k =>
      have hk' : k < (b.getWords (off + 4) m).length := by simpa using hk
      have := ih (off + 4) hk'
      simp only [getWords, getElem_cons_succ]
      rw [this]
      congr 1
      omega

/-- A word read where it was stored among others. -/
theorem getLE_putWords {off k : ℕ} (b : Bytes n) (l : List ℕ) (hl : ∀ x ∈ l, x < 2 ^ 32)
    (h : off + 4 * l.length ≤ n) (hk : k < l.length) :
    getLE 4 (putWords b off l) (off + 4 * k) = l[k] := by
  have hw := getWords_putWords b l hl h
  have hk' : k < ((putWords b off l).getWords off l.length).length := by simpa using hk
  rw [← getElem_getWords _ off l.length hk']
  simp only [hw]

/-! ### Bits -/

/-- The mask of bit `i` in its byte. -/
def bitMask (i : ℕ) : Byte := 1#8 <<< (i % 8)

/-- Bit `i` of an array of bytes. -/
def getBit (b : Bytes n) (i : ℕ) : Bool := b.get (i / 8) &&& bitMask i ≠ 0

/-- Set bit `i`. -/
def setBit (b : Bytes n) (i : ℕ) : Bytes n := b.blit (i / 8) [b.get (i / 8) ||| bitMask i]

/-- Clear bit `i`. -/
def clearBit (b : Bytes n) (i : ℕ) : Bytes n := b.blit (i / 8) [b.get (i / 8) &&& ~~~bitMask i]

theorem getLsbD_bitMask (i k : ℕ) : (bitMask i).getLsbD k = decide (k = i % 8) := by
  have hi : i % 8 < 8 := Nat.mod_lt _ (by decide)
  rw [bitMask, BitVec.getLsbD_shiftLeft, BitVec.getLsbD_one]
  rcases Nat.lt_trichotomy k (i % 8) with h | h | h
  · simp [h, h.ne]
  · simp [h, hi]
  · have h0 : k - i % 8 ≠ 0 := by omega
    simp [h.ne', h0]

theorem getBit_eq (b : Bytes n) (i : ℕ) : b.getBit i = (b.get (i / 8)).getLsbD (i % 8) := by
  have hi : i % 8 < 8 := Nat.mod_lt _ (by decide)
  have key : ∀ x : Byte, x &&& bitMask i ≠ 0 ↔ x.getLsbD (i % 8) = true := by
    intro x
    constructor
    · intro h
      by_contra hx
      refine h (BitVec.eq_of_getLsbD_eq fun k _ => ?_)
      rw [BitVec.getLsbD_and, getLsbD_bitMask]
      by_cases hk : k = i % 8
      · subst hk
        simpa using hx
      · simp [hk]
    · intro hx h
      have := congrArg (fun y : Byte => y.getLsbD (i % 8)) h
      simp [getLsbD_bitMask, hx] at this
  rw [getBit, Bool.eq_iff_iff, decide_eq_true_iff]
  exact key _

theorem getLsbD_or_bitMask (x : Byte) (i k : ℕ) :
    (x ||| bitMask i).getLsbD k = (x.getLsbD k || decide (k = i % 8)) := by
  rw [BitVec.getLsbD_or, getLsbD_bitMask]

theorem getLsbD_and_not_bitMask (x : Byte) (i j : ℕ) :
    (x &&& ~~~bitMask i).getLsbD (j % 8) = (x.getLsbD (j % 8) && !decide (j % 8 = i % 8)) := by
  have hj : j % 8 < 8 := Nat.mod_lt _ (by decide)
  rw [BitVec.getLsbD_and, BitVec.getLsbD_not, getLsbD_bitMask]
  simp [hj]

theorem getBit_setBit (b : Bytes n) {i j : ℕ} (hi : i < 8 * n) :
    (b.setBit i).getBit j = (decide (j = i) || b.getBit j) := by
  rw [getBit_eq, getBit_eq, setBit]
  by_cases hb : j / 8 = i / 8
  · rw [hb, get_blit_singleton b _ (by omega), getLsbD_or_bitMask, Bool.or_comm]
    congr 1
    exact decide_eq_decide.2 (by omega)
  · rw [get_blit_of_not_mem b (by simp; omega), show decide (j = i) = false by simp; omega]
    simp

theorem getBit_clearBit (b : Bytes n) {i j : ℕ} (hi : i < 8 * n) :
    (b.clearBit i).getBit j = (!decide (j = i) && b.getBit j) := by
  rw [getBit_eq, getBit_eq, clearBit]
  by_cases hb : j / 8 = i / 8
  · rw [hb, get_blit_singleton b _ (by omega), getLsbD_and_not_bitMask, Bool.and_comm]
    congr 2
    exact decide_eq_decide.2 (by omega)
  · rw [get_blit_of_not_mem b (by simp; omega), show decide (j = i) = false by simp; omega]
    simp

end Bytes

end Stateful
