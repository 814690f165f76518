import Xv6.Lib.Bytes

/-!
# Arrays of 64-bit words that are also arrays of bytes

* `wordByte w i` and `ofWordBytes f`: the eight bytes of a word, least significant first, and back;
* `Words n`, the byte at an offset (`Words.byte`), and overwriting a range of bytes (`Words.blit`), with
  the law that says which bytes change.
-/

namespace Stateful

open List

/-- The `i`th byte of a word, least significant first. -/
def wordByte (w : BitVec 64) (i : ℕ) : Byte := BitVec.ofNat 8 (w.toNat / 256 ^ i)

/-- The word with the given bytes. -/
def ofWordBytes (f : Fin 8 → Byte) : BitVec 64 := BitVec.ofNat 64 (ofLE (List.ofFn f))

theorem ofLE_div_pow (l : List Byte) {i : ℕ} (hi : i < l.length) :
    BitVec.ofNat 8 (ofLE l / 256 ^ i) = l[i] := by
  induction l generalizing i with
  | nil => exact absurd hi (Nat.not_lt_zero _)
  | cons x xs ih =>
    have hx := x.isLt
    cases i with
    | zero =>
      apply BitVec.eq_of_toNat_eq
      rw [BitVec.toNat_ofNat, ofLE, pow_zero, Nat.div_one, getElem_cons_zero]
      omega
    | succ i =>
      have hdiv : ofLE (x :: xs) / 256 ^ (i + 1) = ofLE xs / 256 ^ i := by
        rw [pow_succ', ← Nat.div_div_eq_div_mul, ofLE]
        congr 1
        omega
      rw [hdiv, getElem_cons_succ]
      exact ih (by simpa using hi)

theorem wordByte_ofWordBytes (f : Fin 8 → Byte) (i : Fin 8) : wordByte (ofWordBytes f) i.val = f i := by
  have hlen : (List.ofFn f).length = 8 := length_ofFn
  have hlt : ofLE (List.ofFn f) < 2 ^ 64 := by
    have := ofLE_lt (List.ofFn f)
    rwa [hlen] at this
  unfold wordByte ofWordBytes
  rw [BitVec.toNat_ofNat, Nat.mod_eq_of_lt hlt, ofLE_div_pow _ (by rw [hlen]; exact i.isLt)]
  exact List.getElem_ofFn _

/-- `n` words. -/
abbrev Words (n : ℕ) := Fin n → BitVec 64

namespace Words

variable {n : ℕ}

/-- The byte at offset `k`, zero outside the array. -/
def byte (w : Words n) (k : ℕ) : Byte :=
  if h : k / 8 < n then wordByte (w ⟨k / 8, h⟩) (k % 8) else 0

/-- The `len` bytes from offset `off` on. -/
def slice (w : Words n) (off len : ℕ) : List Byte := (List.range len).map fun k => w.byte (off + k)

/-- Overwrite the bytes from offset `off` on by those of a list. -/
def blit (w : Words n) (off : ℕ) (l : List Byte) : Words n := fun i =>
  ofWordBytes fun j =>
    if off ≤ 8 * i.val + j.val then (l[8 * i.val + j.val - off]?).getD (w.byte (8 * i.val + j.val))
    else w.byte (8 * i.val + j.val)

/-- All bytes are `b`. -/
def fill (b : Byte) : Words n := fun _ => ofWordBytes fun _ => b

@[simp] theorem length_slice (w : Words n) (off len : ℕ) : (w.slice off len).length = len := by
  simp [slice]

/-- **What overwriting does to each byte.** -/
theorem byte_blit (w : Words n) (off : ℕ) (l : List Byte) (k : ℕ) :
    (w.blit off l).byte k =
      if off ≤ k ∧ k < 8 * n then (l[k - off]?).getD (w.byte k) else w.byte k := by
  by_cases hk : k / 8 < n
  · have hmod : k % 8 < 8 := Nat.mod_lt _ (by decide)
    have hdm : 8 * (k / 8) + k % 8 = k := Nat.div_add_mod k 8
    have hlt : k < 8 * n := by omega
    have hself : w.byte k = wordByte (w ⟨k / 8, hk⟩) (k % 8) := dif_pos hk
    have hword := wordByte_ofWordBytes (fun j => if off ≤ 8 * (k / 8) + j.val then
      (l[8 * (k / 8) + j.val - off]?).getD (w.byte (8 * (k / 8) + j.val))
      else w.byte (8 * (k / 8) + j.val)) ⟨k % 8, hmod⟩
    simp only [hdm] at hword
    have hblit : (w.blit off l).byte k = wordByte (w.blit off l ⟨k / 8, hk⟩) (k % 8) := dif_pos hk
    rw [hblit]
    refine hword.trans ?_
    by_cases ho : off ≤ k
    · rw [if_pos ho, if_pos ⟨ho, hlt⟩]
    · rw [if_neg ho, if_neg fun h => ho h.1]
  · have hge : ¬ k < 8 * n := by omega
    rw [if_neg fun h => hge h.2]
    unfold byte
    rw [dif_neg hk, dif_neg hk]

end Words

end Stateful
