import Mathlib.Tactic

/-!
# Cells owned by names or free

A pool hands out cells from a free list.  A name owns one cell or none.

* `Pool own ok free`: no cell has two owners, no owned cell is free, and the free list has no cell
  twice; all of them are cells of the pool (`ok`);
* `Pool.take`, `Pool.put`: a cell leaves the free list, or returns to it.
-/

namespace Stateful

open Function List

/-- Every cell of the pool is in at most one place: owned by one name, or once in the free list. -/
structure Pool {ι α : Type} (own : ι → Option α) (ok : α → Prop) (free : List α) : Prop where
  nodup : free.Nodup
  ok_free : ∀ a ∈ free, ok a
  ok_own : ∀ x a, own x = some a → ok a
  inj : ∀ x y a, own x = some a → own y = some a → x = y
  apart : ∀ x a, own x = some a → a ∉ free

namespace Pool

variable {ι α : Type} {own : ι → Option α} {ok : α → Prop} {free : List α} {x y : ι} {a : α}

/-- The owners may be renamed, and some may lose their cells. -/
theorem comap {κ : Type} {own' : κ → Option α} (h : Pool own ok free) (f : κ → ι)
    (hf : ∀ x y a, own' x = some a → own' y = some a → f x = f y → x = y)
    (ho : ∀ x a, own' x = some a → own (f x) = some a) : Pool own' ok free where
  nodup := h.nodup
  ok_free := h.ok_free
  ok_own := fun x a hx => h.ok_own (f x) a (ho x a hx)
  inj := fun x y a hx hy => hf x y a hx hy (h.inj _ _ a (ho x a hx) (ho y a hy))
  apart := fun x a hx => h.apart (f x) a (ho x a hx)

/-- Some owners may lose their cells. -/
theorem sub {own' : ι → Option α} (h : Pool own ok free)
    (ho : ∀ x a, own' x = some a → own x = some a) : Pool own' ok free :=
  h.comap id (fun _ _ _ _ _ hxy => hxy) ho

/-- The first free cell may be lost. -/
theorem tail (h : Pool own ok (a :: free)) : Pool own ok free where
  nodup := h.nodup.of_cons
  ok_free := fun b hb => h.ok_free b (mem_cons_of_mem a hb)
  ok_own := h.ok_own
  inj := h.inj
  apart := fun x b hx hb => h.apart x b hx (mem_cons_of_mem a hb)

variable [DecidableEq ι]

/-- The first free cell is handed out. -/
theorem take (h : Pool own ok (a :: free)) (x : ι) :
    Pool (update own x (some a)) ok free where
  nodup := h.nodup.of_cons
  ok_free := fun b hb => h.ok_free b (mem_cons_of_mem a hb)
  ok_own := by
    intro y b hy
    by_cases hyx : y = x
    · rw [hyx, update_self, Option.some_inj] at hy
      exact hy ▸ h.ok_free a mem_cons_self
    · rw [update_of_ne hyx] at hy
      exact h.ok_own y b hy
  inj := by
    intro y z b hy hz
    -- nobody owned the cell while it was free
    have hnot : ∀ w, own w ≠ some a := fun w hw => h.apart w a hw mem_cons_self
    by_cases hyx : y = x <;> by_cases hzx : z = x
    · rw [hyx, hzx]
    · rw [hyx, update_self, Option.some_inj] at hy
      rw [update_of_ne hzx, ← hy] at hz
      exact absurd hz (hnot z)
    · rw [hzx, update_self, Option.some_inj] at hz
      rw [update_of_ne hyx, ← hz] at hy
      exact absurd hy (hnot y)
    · rw [update_of_ne hyx] at hy
      rw [update_of_ne hzx] at hz
      exact h.inj y z b hy hz
  apart := by
    intro y b hy hb
    by_cases hyx : y = x
    · rw [hyx, update_self, Option.some_inj] at hy
      exact (nodup_cons.1 h.nodup).1 (hy ▸ hb)
    · rw [update_of_ne hyx] at hy
      exact h.apart y b hy (mem_cons_of_mem a hb)

/-- A cell returns to the free list. -/
theorem put (h : Pool own ok free) (hx : own x = some a) :
    Pool (update own x none) ok (a :: free) := by
  have hsub : ∀ y b, update own x none y = some b → own y = some b ∧ y ≠ x := by
    intro y b hy
    by_cases hyx : y = x
    · rw [hyx, update_self] at hy
      cases hy
    · rw [update_of_ne hyx] at hy
      exact ⟨hy, hyx⟩
  constructor
  · exact nodup_cons.2 ⟨h.apart x a hx, h.nodup⟩
  · intro b hb
    rcases mem_cons.1 hb with rfl | hb
    · exact h.ok_own x b hx
    · exact h.ok_free b hb
  · exact fun y b hy => h.ok_own y b (hsub y b hy).1
  · exact fun y z b hy hz => h.inj y z b (hsub y b hy).1 (hsub z b hz).1
  · intro y b hy hb
    obtain ⟨hyb, hyx⟩ := hsub y b hy
    rcases mem_cons.1 hb with rfl | hb
    · exact hyx (h.inj y x b hyb hx)
    · exact h.apart y b hyb hb

end Pool

end Stateful
