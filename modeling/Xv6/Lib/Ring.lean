import Mathlib.Tactic

/-!
# Ring buffers with free-running counters

A buffer of `c` cells with two counters of `w` bits that count the elements ever stored and ever
taken and are never brought back into range: they wrap modulo `2 ^ w`, and the cell of an element is
its number modulo `c`.

* `RingBuffer`, `full`, `empty`, `push`, `front`, `pop`;
* `Holds b taken stored`: the buffer `b` is what storing `stored` and taking `taken` leaves;
* `Contains b q`: the buffer holds the elements of the queue `q`;
* one rule for each operation and each of the two.  They ask that `c` divides `2 ^ w`, and nothing of
  how often the counters have wrapped.
-/

/-- `c` cells and the two counters. -/
structure RingBuffer (α : Type) (w c : ℕ) where
  data : Fin c → α
  nread : BitVec w
  nwrite : BitVec w

namespace RingBuffer

open Function List

variable {α : Type} {w c : ℕ} [NeZero c]

/-- The counters are the capacity apart. -/
def full (b : RingBuffer α w c) : Bool := b.nwrite = b.nread + BitVec.ofNat w c

/-- The counters are equal. -/
def empty (b : RingBuffer α w c) : Bool := b.nread = b.nwrite

/-- Store an element in the cell of the next number. -/
def push (b : RingBuffer α w c) (x : α) : RingBuffer α w c :=
  { b with data := update b.data (Fin.ofNat c b.nwrite.toNat) x, nwrite := b.nwrite + 1 }

/-- The cell of the next element to take. -/
def front (b : RingBuffer α w c) : α := b.data (Fin.ofNat c b.nread.toNat)

/-- Take the next element. -/
def pop (b : RingBuffer α w c) : RingBuffer α w c := { b with nread := b.nread + 1 }

/-- The buffer is what storing `stored` and taking `taken` leaves. -/
structure Holds (b : RingBuffer α w c) (taken stored : List α) : Prop where
  nread : b.nread = BitVec.ofNat w taken.length
  nwrite : b.nwrite = BitVec.ofNat w stored.length
  /-- Elements are taken in the order in which they were stored. -/
  order : taken <+: stored
  room : stored.length ≤ taken.length + c
  /-- Every element not yet taken is in its cell. -/
  cell : ∀ (i : ℕ) (x : α), taken.length ≤ i → stored[i]? = some x → b.data (Fin.ofNat c i) = x

/-- Reducing a number modulo a multiple of the capacity leaves its cell. -/
theorem ofNat_mod (hc : c ∣ 2 ^ w) (n : ℕ) : Fin.ofNat c (n % 2 ^ w) = Fin.ofNat c n := by
  apply Fin.ext
  show n % 2 ^ w % c = n % c
  exact Nat.mod_mod_of_dvd n hc

/-- Two numbers less than the capacity apart have different cells. -/
theorem ofNat_ne {i n : ℕ} (hlt : i < n) (hn : n < i + c) : Fin.ofNat c i ≠ Fin.ofNat c n := by
  intro h
  have hm : i % c = n % c := congrArg Fin.val h
  have hdvd : c ∣ n - i := (Nat.modEq_iff_dvd' hlt.le).1 hm
  have := Nat.le_of_dvd (by omega) hdvd
  omega

namespace Holds

variable {b : RingBuffer α w c} {taken stored : List α}

theorem length_le (h : Holds b taken stored) : taken.length ≤ stored.length := h.order.length_le

/-- A buffer with equal counters holds nothing. -/
theorem init (data : Fin c → α) : Holds (⟨data, 0, 0⟩ : RingBuffer α w c) [] [] where
  nread := rfl
  nwrite := rfl
  order := prefix_rfl
  room := Nat.zero_le _
  cell i x _ hx := by simp at hx

/-- A buffer that is not full has room for an element. -/
theorem lt_of_not_full (h : Holds b taken stored) (hf : b.full = false) :
    stored.length < taken.length + c := by
  refine lt_of_le_of_ne h.room fun he => ?_
  simp only [full, h.nread, h.nwrite, he, decide_eq_false_iff_not] at hf
  exact hf (BitVec.ofNat_add _ _)

/-- A buffer that is not empty has an element to take. -/
theorem lt_of_not_empty (h : Holds b taken stored) (he : b.empty = false) :
    taken.length < stored.length := by
  refine lt_of_le_of_ne h.length_le fun hl => ?_
  simp [empty, h.nread, h.nwrite, hl] at he

/-- **Storing**: an element stored in a buffer that is not full comes after those stored before. -/
theorem push (hc : c ∣ 2 ^ w) (h : Holds b taken stored) (hf : b.full = false) (x : α) :
    Holds (b.push x) taken (stored ++ [x]) := by
  have hlt := h.lt_of_not_full hf
  have hcell : Fin.ofNat c b.nwrite.toNat = Fin.ofNat c stored.length := by
    rw [h.nwrite, BitVec.toNat_ofNat, ofNat_mod hc]
  refine ⟨h.nread, ?_, h.order.trans (prefix_append _ _), ?_, ?_⟩
  · show b.nwrite + 1 = _
    rw [h.nwrite, length_append, BitVec.ofNat_add]
    rfl
  · rwa [length_append]
  · intro i y hi hy
    show update b.data _ x _ = y
    rw [hcell]
    rcases lt_trichotomy i stored.length with hl | rfl | hl
    · -- the cell of an older element is another one: fewer than `c` elements are in the buffer
      rw [update_of_ne (ofNat_ne hl (by omega))]
      rw [getElem?_append_left hl] at hy
      exact h.cell i y hi hy
    · rw [update_self]
      simpa using hy
    · have : (stored ++ [x])[i]? = none := getElem?_eq_none (by simp; omega)
      simp [this] at hy

/-- **Taking**: the element taken from a buffer that is not empty is the oldest one in it. -/
theorem pop (hc : c ∣ 2 ^ w) (h : Holds b taken stored) (he : b.empty = false) :
    Holds b.pop (taken ++ [b.front]) stored := by
  have hlt := h.lt_of_not_empty he
  have hfront : b.front = stored[taken.length] := by
    show b.data _ = _
    rw [h.nread, BitVec.toNat_ofNat, ofNat_mod hc]
    exact h.cell _ _ le_rfl (getElem?_eq_getElem hlt)
  refine ⟨?_, h.nwrite, ?_, ?_, ?_⟩
  · show b.nread + 1 = _
    rw [h.nread, length_append, BitVec.ofNat_add]
    rfl
  · obtain ⟨rest, hrest⟩ := h.order
    rw [hfront]
    subst hrest
    cases rest with
    | nil => simp at hlt
    | cons y ys => exact ⟨ys, by simp⟩
  · have := h.room
    rw [length_append]
    omega
  · intro i x hi hx
    refine h.cell i x (le_trans ?_ hi) hx
    simp

end Holds

/-- The buffer holds the elements of `q`, the oldest first. -/
def Contains (b : RingBuffer α w c) (q : List α) : Prop := ∃ taken, Holds b taken (taken ++ q)

namespace Contains

variable {b : RingBuffer α w c} {q : List α}

/-- A buffer with equal counters is empty. -/
theorem init (data : Fin c → α) : Contains (⟨data, 0, 0⟩ : RingBuffer α w c) [] := ⟨[], Holds.init data⟩

/-- A buffer that holds fewer elements than it has cells is not full. -/
theorem not_full (h : Contains b q) (hw : c < 2 ^ w) (hq : q.length < c) : b.full = false := by
  obtain ⟨taken, h⟩ := h
  rw [full, decide_eq_false_iff_not, h.nread, h.nwrite, length_append, BitVec.ofNat_add]
  intro he
  have heq := congrArg BitVec.toNat ((BitVec.add_right_inj _).1 he)
  rw [BitVec.toNat_ofNat, BitVec.toNat_ofNat, Nat.mod_eq_of_lt (by omega), Nat.mod_eq_of_lt hw] at heq
  omega

theorem push (hc : c ∣ 2 ^ w) (h : Contains b q) (hf : b.full = false) (x : α) :
    Contains (b.push x) (q ++ [x]) := by
  obtain ⟨taken, h⟩ := h
  refine ⟨taken, ?_⟩
  rw [← append_assoc]
  exact h.push hc hf x

/-- A buffer with different counters holds something, and its oldest element is taken. -/
theorem pop (hc : c ∣ 2 ^ w) (h : Contains b q) (he : b.empty = false) :
    ∃ r, q = b.front :: r ∧ Contains b.pop r := by
  obtain ⟨taken, h⟩ := h
  have hpop := h.pop hc he
  cases q with
  | nil =>
    have hlt := h.lt_of_not_empty he
    simp at hlt
  | cons x r =>
    have hfront : b.front = x := by
      obtain ⟨rest, hrest⟩ := hpop.order
      have := congrArg (fun l => l[taken.length]?) hrest
      simpa using this
    refine ⟨r, by rw [hfront], taken ++ [x], ?_⟩
    rw [hfront] at hpop
    simpa using hpop

end Contains

end RingBuffer
