import Mathlib.Tactic

/-!
# Trees kept in addressed cells

A tree is kept in cells that point to each other: `kid a i` is the cell that entry `i` of the cell `a`
points to, if it points to one.

* `descendant kid r path`: the cell at the end of a path of entries from a root;
* `descendant_congr`: what happens outside a tree does not change it;
* `descendant_set`: **changing one entry of a tree changes one path**, when nothing hangs below that
  entry.
-/

namespace Stateful

open List

variable {α β : Type} {kid kid' : α → β → Option α} {r : Option α} {a : α} {i : β} {D : ℕ}

/-- The cell at the end of a path. -/
def descendant (kid : α → β → Option α) (r : Option α) (path : List β) : Option α :=
  path.foldl (fun o i => o.bind fun a => kid a i) r

@[simp] theorem descendant_nil (kid : α → β → Option α) (r : Option α) : descendant kid r [] = r := rfl

theorem descendant_append (kid : α → β → Option α) (r : Option α) (p q : List β) :
    descendant kid r (p ++ q) = descendant kid (descendant kid r p) q :=
  foldl_append

theorem descendant_snoc (kid : α → β → Option α) (r : Option α) (p : List β) (i : β) :
    descendant kid r (p ++ [i]) = (descendant kid r p).bind fun a => kid a i :=
  descendant_append kid r p [i]

theorem descendant_cons (kid : α → β → Option α) (r : Option α) (i : β) (p : List β) :
    descendant kid r (i :: p) = descendant kid (r.bind fun a => kid a i) p := rfl

@[simp] theorem descendant_none (kid : α → β → Option α) (p : List β) : descendant kid none p = none := by
  induction p with
  | nil => rfl
  | cons i p ih => exact ih

/-- Two memories that agree on the cells of a tree have the same tree, down to a depth. -/
theorem descendant_congr
    (h : ∀ path b, path.length < D → descendant kid r path = some b → ∀ j, kid' b j = kid b j)
    (path : List β) (hp : path.length ≤ D) : descendant kid' r path = descendant kid r path := by
  induction path using List.reverseRecOn with
  | nil => rfl
  | append_singleton path j ih =>
    rw [length_append, length_singleton] at hp
    rw [descendant_snoc, descendant_snoc, ih (by omega)]
    cases hb : descendant kid r path with
    | none => rfl
    | some b => exact h path b (by omega) hb j

/-- **One entry changed.**  The changed entry is at the end of exactly one path of the tree, and
nothing hangs below what it pointed to or points to now, so only that path ends elsewhere. -/
theorem descendant_set [DecidableEq β] {p : List β} (hp : descendant kid r p = some a)
    (hlen : p.length < D) (hk : ∀ b j, (b ≠ a ∨ j ≠ i) → kid' b j = kid b j)
    (huniq : ∀ path, path.length < D → descendant kid r path = some a → path = p)
    (hold : p.length + 1 < D → ∀ c, kid a i = some c → ∀ j, kid c j = none)
    (hnew : p.length + 1 < D → ∀ c, kid' a i = some c → ∀ j, kid' c j = none)
    (path : List β) (hD : path.length ≤ D) :
    descendant kid' r path = if path = p ++ [i] then kid' a i else descendant kid r path := by
  induction path using List.reverseRecOn with
  | nil => rw [if_neg (by simp), descendant_nil, descendant_nil]
  | append_singleton path j ih =>
    rw [length_append, length_singleton] at hD
    rw [descendant_snoc, ih (by omega)]
    by_cases hext : path = p ++ [i]
    · -- below the changed entry there is nothing, before and after
      have hshort : p.length + 1 < D := by
        rw [hext, length_append, length_singleton] at hD
        omega
      have hne : path ++ [j] ≠ p ++ [i] := by
        intro h
        have := congrArg List.length h
        rw [hext] at this
        simp at this
      rw [if_pos hext, if_neg hne, descendant_snoc, hext, descendant_snoc, hp, Option.bind_some]
      have h1 : (kid' a i).bind (fun c => kid' c j) = none := by
        cases hc : kid' a i with
        | none => rfl
        | some c => exact hnew hshort c hc j
      have h2 : (kid a i).bind (fun c => kid c j) = none := by
        cases hc : kid a i with
        | none => rfl
        | some c => exact hold hshort c hc j
      rw [h1, h2]
    · rw [if_neg hext]
      by_cases hlast : path ++ [j] = p ++ [i]
      · obtain ⟨rfl, hji⟩ := append_inj' hlast rfl
        rw [if_pos hlast, hp, Option.bind_some, singleton_inj.1 hji]
      · rw [if_neg hlast, descendant_snoc]
        cases hb : descendant kid r path with
        | none => rfl
        | some b =>
          apply hk
          by_contra hcon
          obtain ⟨hba, hji⟩ := not_or.1 hcon
          rw [not_not] at hba hji
          rw [hba] at hb
          rw [huniq path (by omega) hb, hji] at hlast
          exact hlast rfl

end Stateful
