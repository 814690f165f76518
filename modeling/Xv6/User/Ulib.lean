import Xv6.Lib.Bytes

/-!
# Moving memory (`string.c` of the kernel, `ulib.c`)

Both versions of `memmove` copy upwards or downwards, and choose by different tests.  Addresses are numbers
here: neither range passes the end of the address space.
-/

namespace Xv6

open Function Stateful

/-- The bytes of memory. -/
abbrev ByteMem := ℕ → Byte

/-- `while(n-- > 0) *d++ = *s++;` -/
def copyUp (m : ByteMem) (d s : ℕ) : ℕ → ByteMem
  | 0 => m
  | n + 1 => copyUp (update m d (m s)) (d + 1) (s + 1) n

/-- `while(n-- > 0) *--d = *--s;` -/
def copyDown (m : ByteMem) (d s : ℕ) : ℕ → ByteMem
  | 0 => m
  | n + 1 => copyDown (update m (d - 1) (m (s - 1))) (d - 1) (s - 1) n

/-- `memmove` of the kernel; `n` is unsigned. -/
def Kstring.memmove (m : ByteMem) (dst src : ℕ) (n : BitVec 32) : ByteMem :=
  if n = 0 then m
  else if src < dst ∧ src + n.toNat > dst then copyDown m (dst + n.toNat) (src + n.toNat) n.toNat
  else copyUp m dst src n.toNat

/-- `memmove` of the user library; `n` is an `int`, and nothing is copied if it is negative. -/
def Ulib.memmove (m : ByteMem) (dst src : ℕ) (n : BitVec 32) : ByteMem :=
  if src > dst then copyUp m dst src n.toInt.toNat
  else copyDown m (dst + n.toInt.toNat) (src + n.toInt.toNat) n.toInt.toNat

/-- The memory in which `n` bytes from `dst` on are those that were at `src`. -/
def moved (m : ByteMem) (dst src n : ℕ) : ByteMem := fun a =>
  if dst ≤ a ∧ a < dst + n then m (src + (a - dst)) else m a

variable {m : ByteMem} {d s : ℕ}

/-- Upwards, a source byte is overwritten only after it was copied. -/
theorem copyUp_eq {n : ℕ} (h : d ≤ s ∨ s + n ≤ d) : copyUp m d s n = moved m d s n := by
  induction n generalizing m d s with
  | zero =>
    funext a
    exact (if_neg (by omega)).symm
  | succ n ih =>
    rw [copyUp, ih (by omega)]
    funext a
    unfold moved
    by_cases ha : a = d
    · subst ha
      rw [if_neg (by omega), if_pos (by omega), update_self, Nat.sub_self, Nat.add_zero]
    by_cases hin : d + 1 ≤ a ∧ a < d + 1 + n
    · rw [if_pos hin, if_pos (by omega), update_of_ne (by omega)]
      congr 1
      omega
    · rw [if_neg hin, if_neg (by omega), update_of_ne ha]

theorem copyDown_eq {n : ℕ} (h : s ≤ d ∨ d + n ≤ s) : copyDown m (d + n) (s + n) n = moved m d s n := by
  induction n generalizing m with
  | zero =>
    funext a
    exact (if_neg (by omega)).symm
  | succ n ih =>
    rw [copyDown]
    show copyDown (update m (d + n) (m (s + n))) (d + n) (s + n) n = _
    rw [ih (by omega)]
    funext a
    unfold moved
    by_cases ha : a = d + n
    · subst ha
      rw [if_neg (by omega), if_pos (by omega), update_self, Nat.add_sub_cancel_left]
    by_cases hin : d ≤ a ∧ a < d + n
    · rw [if_pos hin, if_pos (by omega), update_of_ne (by omega)]
    · rw [if_neg hin, if_neg (by omega), update_of_ne ha]

/-- **Both versions of `memmove` move the bytes**, however the ranges overlap, and change nothing else. -/
theorem memmove_moves (m : ByteMem) (dst src : ℕ) (n : BitVec 32) :
    Kstring.memmove m dst src n = moved m dst src n.toNat ∧
    (0 ≤ n.toInt → Ulib.memmove m dst src n = Kstring.memmove m dst src n) := by
  have hk : Kstring.memmove m dst src n = moved m dst src n.toNat := by
    unfold Kstring.memmove
    split_ifs with h0 hdown
    · subst h0
      funext a
      exact (if_neg (by simp)).symm
    · exact copyDown_eq (by omega)
    · exact copyUp_eq (by omega)
  refine ⟨hk, fun hn => ?_⟩
  have hto : n.toInt.toNat = n.toNat := by
    have := BitVec.toInt_eq_toNat_cond n
    omega
  rw [hk]
  unfold Ulib.memmove
  rw [hto]
  split_ifs with hup
  · exact copyUp_eq (by omega)
  · exact copyDown_eq (by omega)

/-- Two bytes are moved by one. -/
theorem memmove_moves_two :
    Ulib.memmove (fun a => .ofNat 8 a) 1 0 2 = Kstring.memmove (fun a => .ofNat 8 a) 1 0 2 :=
  (memmove_moves _ 1 0 2).2 (by decide)

end Xv6
