import Mathlib.Tactic

/-!
# Exclusive ownership of numbered cells

Cells `lo ≤ x < hi` are handed out to owners; an owner has one cell or none (0), and a marking says
which cells are taken, those below `lo` always.

* `Owns own used lo hi`: no cell has two owners, and the marking is exact;
* `Owns.assign`, `Owns.release`: handing a free cell out, and taking a cell back.
-/

namespace Stateful

open Function

/-- The owners have different cells, and exactly the cells below `lo` and theirs are marked. -/
structure Owns {ι : Type} (own : ι → ℕ) (used : ℕ → Bool) (lo hi : ℕ) : Prop where
  pos : 0 < lo
  range : ∀ p, own p ≠ 0 → lo ≤ own p ∧ own p < hi
  inj : ∀ p q, own p ≠ 0 → own p = own q → p = q
  exact : ∀ x < hi, used x = true ↔ x < lo ∨ ∃ p, own p = x

namespace Owns

variable {ι : Type} {own : ι → ℕ} {used : ℕ → Bool} {lo hi : ℕ} {p : ι} {x : ℕ}

theorem used_own (h : Owns own used lo hi) (hp : own p ≠ 0) : used (own p) = true :=
  (h.exact _ (h.range p hp).2).2 (Or.inr ⟨p, rfl⟩)

/-- Nobody owns a free cell. -/
theorem ne_of_free (h : Owns own used lo hi) (hx : x < hi) (hu : used x = false) (p : ι) :
    own p ≠ x := by
  rintro rfl
  rw [(h.exact _ hx).2 (Or.inr ⟨p, rfl⟩)] at hu
  cases hu

theorem used_of_lt (h : Owns own used lo hi) (hx : x < lo) (hlo : lo ≤ hi) : used x = true :=
  (h.exact x (by omega)).2 (Or.inl hx)

variable [DecidableEq ι]

/-- A free cell is handed out. -/
theorem assign (h : Owns own used lo hi) (hp : own p = 0) (h1 : lo ≤ x) (h2 : x < hi)
    (hu : used x = false) :
    Owns (update own p x) (update used x true) lo hi where
  pos := h.pos
  range := by
    intro q hq
    by_cases hqp : q = p
    · subst hqp
      rw [update_self]
      exact ⟨h1, h2⟩
    · rw [update_of_ne hqp] at hq ⊢
      exact h.range q hq
  inj := by
    intro q r hq heq
    have hfree := h.ne_of_free h2 hu
    by_cases hqp : q = p
    · subst hqp
      by_contra hr
      rw [update_self, update_of_ne (Ne.symm hr)] at heq
      exact hfree r heq.symm
    · rw [update_of_ne hqp] at hq heq
      by_cases hrp : r = p
      · subst hrp
        rw [update_self] at heq
        exact absurd heq (hfree q)
      · rw [update_of_ne hrp] at heq
        exact h.inj q r hq heq
  exact := by
    intro y hy
    by_cases hyx : y = x
    · subst hyx
      rw [update_self]
      exact ⟨fun _ => Or.inr ⟨p, update_self ..⟩, fun _ => rfl⟩
    · rw [update_of_ne hyx, h.exact y hy]
      refine or_congr_right' fun hlo => ?_
      constructor
      · rintro ⟨q, rfl⟩
        refine ⟨q, update_of_ne ?_ _ _⟩
        rintro rfl
        have := h.pos
        omega
      · rintro ⟨q, hq⟩
        by_cases hqp : q = p
        · subst hqp
          rw [update_self] at hq
          exact absurd hq.symm hyx
        · rw [update_of_ne hqp] at hq
          exact ⟨q, hq⟩

/-- A cell is taken back. -/
theorem release (h : Owns own used lo hi) (hp : own p ≠ 0) :
    Owns (update own p 0) (update used (own p) false) lo hi where
  pos := h.pos
  range := by
    intro q hq
    have hqp : q ≠ p := by
      rintro rfl
      simp at hq
    rw [update_of_ne hqp] at hq ⊢
    exact h.range q hq
  inj := by
    intro q r hq heq
    have hqp : q ≠ p := by
      rintro rfl
      simp at hq
    rw [update_of_ne hqp] at hq heq
    by_cases hrp : r = p
    · subst hrp
      rw [update_self] at heq
      exact absurd heq hq
    · rw [update_of_ne hrp] at heq
      exact h.inj q r hq heq
  exact := by
    intro y hy
    have hrange := h.range p hp
    by_cases hyp : y = own p
    · subst hyp
      rw [update_self]
      constructor
      · intro hf
        cases hf
      · rintro (hlo | ⟨q, hq⟩)
        · omega
        · by_cases hqp : q = p
          · subst hqp
            rw [update_self] at hq
            exact absurd hq.symm hp
          · rw [update_of_ne hqp] at hq
            exact absurd (h.inj p q hp hq.symm).symm hqp
    · rw [update_of_ne hyp, h.exact y hy]
      refine or_congr_right' fun hlo => ?_
      constructor
      · rintro ⟨q, rfl⟩
        refine ⟨q, update_of_ne ?_ _ _⟩
        rintro rfl
        exact hyp rfl
      · rintro ⟨q, hq⟩
        by_cases hqp : q = p
        · subst hqp
          rw [update_self] at hq
          have := h.pos
          omega
        · rw [update_of_ne hqp] at hq
          exact ⟨q, hq⟩

end Owns

end Stateful
