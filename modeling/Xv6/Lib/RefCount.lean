import Mathlib.Tactic

/-!
# Reference counts

Holders refer to one object each, or to none, and every object has a counter.

* `Counted hold cnt`: each counter is the number of holders that refer to its object;
* `Counted.of_none`, `Counted.acquire`, `Counted.drop`, `Counted.move`: nobody refers to anything, a holder
  takes or gives up a reference and the counter follows, or hands it over;
* `Counted.pos`, `Counted.ne_of_zero`: an object somebody refers to has a positive counter.
-/

namespace Stateful

open Function

variable {ι κ : Type} [Fintype ι] [DecidableEq κ]

/-- The holders that refer to an object. -/
def holders (hold : ι → Option κ) (k : κ) : Finset ι := Finset.univ.filter fun i => hold i = some k

/-- Every counter is exact. -/
def Counted (hold : ι → Option κ) (cnt : κ → ℕ) : Prop := ∀ k, cnt k = (holders hold k).card

section

variable {hold : ι → Option κ} {cnt : κ → ℕ} {i : ι} {k : κ}

theorem mem_holders : i ∈ holders hold k ↔ hold i = some k := by
  simp [holders]

theorem holders_eq_empty (h : ∀ i, hold i ≠ some k) : holders hold k = ∅ := by
  rw [Finset.eq_empty_iff_forall_notMem]
  intro i hi
  exact h i (mem_holders.1 hi)

variable [DecidableEq ι]

/-- A holder changes and refers to `k` neither before nor after. -/
theorem holders_update_of_ne {v : Option κ} (h1 : hold i ≠ some k) (h2 : v ≠ some k) :
    holders (update hold i v) k = holders hold k := by
  ext j
  rw [mem_holders, mem_holders]
  by_cases hj : j = i
  · subst hj
    rw [update_self]
    exact ⟨fun h => absurd h h2, fun h => absurd h h1⟩
  · rw [update_of_ne hj]

/-- A holder takes a reference. -/
theorem holders_update_some (i : ι) (k : κ) :
    holders (update hold i (some k)) k = insert i (holders hold k) := by
  ext j
  rw [mem_holders, Finset.mem_insert, mem_holders]
  by_cases hj : j = i
  · subst hj
    rw [update_self]
    exact ⟨fun _ => Or.inl rfl, fun _ => rfl⟩
  · rw [update_of_ne hj]
    exact ⟨Or.inr, fun h => h.resolve_left hj⟩

/-- A holder gives up a reference. -/
theorem holders_update_none (i : ι) (k : κ) :
    holders (update hold i none) k = (holders hold k).erase i := by
  ext j
  rw [mem_holders, Finset.mem_erase, mem_holders]
  by_cases hj : j = i
  · subst hj
    rw [update_self]
    exact ⟨fun h => absurd h (by simp), fun h => absurd rfl h.1⟩
  · rw [update_of_ne hj]
    exact ⟨fun h => ⟨hj, h⟩, fun h => h.2⟩

end

namespace Counted

variable {hold : ι → Option κ} {cnt : κ → ℕ} {i : ι} {k : κ}

/-- Nobody refers to anything. -/
theorem of_none (h : ∀ i, hold i = none) (h0 : ∀ k, cnt k = 0) : Counted hold cnt := by
  intro k
  rw [h0 k, holders_eq_empty fun i => by rw [h i]; simp]
  rfl

/-- An object somebody refers to has a positive counter. -/
theorem pos (h : Counted hold cnt) (hi : hold i = some k) : 0 < cnt k := by
  rw [h k, Finset.card_pos]
  exact ⟨i, mem_holders.2 hi⟩

/-- Nobody refers to an object whose counter is zero. -/
theorem ne_of_zero (h : Counted hold cnt) (hk : cnt k = 0) (i : ι) : hold i ≠ some k := by
  intro hi
  have := h.pos hi
  omega

variable [DecidableEq ι]

theorem acquire (h : Counted hold cnt) (hi : hold i = none) (k : κ) :
    Counted (update hold i (some k)) (update cnt k (cnt k + 1)) := by
  intro k'
  by_cases hk : k' = k
  · subst hk
    have hnot : i ∉ holders hold k' := by
      rw [mem_holders, hi]
      simp
    rw [update_self, holders_update_some, Finset.card_insert_of_notMem hnot, h k']
  · rw [update_of_ne hk, holders_update_of_ne (by rw [hi]; simp) (by simpa using Ne.symm hk),
      h k']

theorem drop (h : Counted hold cnt) (hi : hold i = some k) :
    Counted (update hold i none) (update cnt k (cnt k - 1)) := by
  intro k'
  by_cases hk : k' = k
  · subst hk
    rw [update_self, holders_update_none, Finset.card_erase_of_mem (mem_holders.2 hi), h k']
  · rw [update_of_ne hk,
      holders_update_of_ne (by rw [hi]; simpa using Ne.symm hk) (by simp), h k']

/-- A reference is handed from one holder to another. -/
theorem move {j : ι} (h : Counted hold cnt) (hi : hold i = some k) (hj : hold j = none) :
    Counted (update (update hold i none) j (some k)) cnt := by
  have hpos := h.pos hi
  have hne : j ≠ i := by
    rintro rfl
    rw [hi] at hj
    cases hj
  have hmove := (h.drop hi).acquire ((update_of_ne hne _ _).trans hj) k
  rwa [update_self, update_idem, Nat.sub_add_cancel hpos, update_eq_self]
    at hmove

end Counted

end Stateful
