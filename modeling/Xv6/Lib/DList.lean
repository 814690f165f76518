import Mathlib.Tactic

/-!
# Circular doubly linked lists with a head

The nodes are the elements of a type and one head, `none`.  The links are two functions, and taking a
node out and putting one in at the front are the usual assignments, in their usual order.

* `Links`, `Links.Circ`: the two functions describe one and the same circular list that visits the head
  and each element of a list once;
* `Circ.unlink`, `Circ.pushFront`: what the assignments do to that list;
* `Circ.find_next`, `Circ.find_prev`: walking either way around is searching the list or its reverse.
-/

/-- Where the links of each node lead to; `none` is the head. -/
@[ext] structure Links (α : Type) where
  next : Option α → Option α
  prev : Option α → Option α

namespace Links

open Function List

variable {α : Type}

/-- Take `x` out: `x->next->prev = x->prev; x->prev->next = x->next`. -/
def unlink [DecidableEq α] (p : Links α) (x : α) : Links α :=
  let p₁ := { p with prev := update p.prev (p.next (some x)) (p.prev (some x)) }
  { p₁ with next := update p₁.next (p₁.prev (some x)) (p₁.next (some x)) }

/-- Put `x` in at the front: `x->next = head.next; x->prev = &head; head.next->prev = x;
head.next = x`. -/
def pushFront [DecidableEq α] (p : Links α) (x : α) : Links α :=
  let p₁ := { p with next := update p.next (some x) (p.next none) }
  let p₂ := { p₁ with prev := update p₁.prev (some x) none }
  let p₃ := { p₂ with prev := update p₂.prev (p₂.next none) (some x) }
  { p₃ with next := update p₃.next none (some x) }

/-- Follow links from a node to the first element that satisfies `P`, or back to the head. -/
def find (step : Option α → Option α) (P : α → Bool) : ℕ → Option α → Option α
  | 0, _ => none
  | _ + 1, none => none
  | n + 1, some x => if P x then some x else find step P n (step (some x))

/-- The links lead from `a` through the elements of the list to `b`, and back. -/
def Path (p : Links α) : Option α → List α → Option α → Prop
  | a, [], b => p.next a = b ∧ p.prev b = a
  | a, x :: l, b => (p.next a = some x ∧ p.prev (some x) = a) ∧ Path p (some x) l b

/-- The links lead from the head once through the elements of the list, and back. -/
structure Circ (p : Links α) (l : List α) : Prop where
  path : p.Path none l none
  nodup : l.Nodup

variable {p p' : Links α} {a b : Option α} {x : α} {l l₁ l₂ : List α}

/-! ### Paths -/

theorem Path.append (h : p.Path a (l₁ ++ x :: l₂) b) : p.Path a l₁ (some x) ∧ p.Path (some x) l₂ b := by
  induction l₁ generalizing a with
  | nil => exact ⟨h.1, h.2⟩
  | cons y l₁ ih => exact ⟨⟨h.1, (ih h.2).1⟩, (ih h.2).2⟩

theorem Path.concat (h₁ : p.Path a l₁ (some x)) (h₂ : p.Path (some x) l₂ b) :
    p.Path a (l₁ ++ x :: l₂) b := by
  induction l₁ generalizing a with
  | nil => exact ⟨h₁, h₂⟩
  | cons y l₁ ih => exact ⟨h₁.1, ih h₁.2⟩

/-- A path depends on the links of its own nodes only. -/
theorem Path.congr (h : p.Path a l b) (hn : ∀ c, c = a ∨ c ∈ l.map some → p'.next c = p.next c)
    (hp : ∀ c, c = b ∨ c ∈ l.map some → p'.prev c = p.prev c) : p'.Path a l b := by
  induction l generalizing a with
  | nil => exact ⟨(hn a (.inl rfl)).trans h.1, (hp b (.inl rfl)).trans h.2⟩
  | cons y l ih =>
    refine ⟨⟨(hn a (.inl rfl)).trans h.1.1, (hp _ (.inr (by simp))).trans h.1.2⟩, ih h.2 ?_ ?_⟩
    · rintro c (rfl | hc)
      · exact hn _ (.inr (by simp))
      · exact hn c (.inr (by simp [mem_map.1 hc]))
    · rintro c (rfl | hc)
      · exact hp _ (.inl rfl)
      · exact hp c (.inr (by simp [mem_map.1 hc]))

/-- The node before the end of a path. -/
theorem Path.prev_mem (h : p.Path a l b) : p.prev b = a ∨ p.prev b ∈ l.map some := by
  induction l generalizing a with
  | nil => exact .inl h.2
  | cons y l ih =>
    rcases ih h.2 with h' | h'
    · exact .inr (by simp [h'])
    · exact .inr (mem_cons_of_mem _ h')

/-- The node after the start of a path. -/
theorem Path.next_mem (h : p.Path a l b) : p.next a = b ∨ p.next a ∈ l.map some := by
  cases l with
  | nil => exact .inl h.1
  | cons y l => exact .inr (by simp [h.1.1])

/-- The other way around. -/
def flip (p : Links α) : Links α := ⟨p.prev, p.next⟩

theorem Path.reverse (h : p.Path a l b) : p.flip.Path b l.reverse a := by
  induction l generalizing a with
  | nil => exact ⟨h.2, h.1⟩
  | cons y l ih =>
    rw [reverse_cons]
    exact (ih h.2).concat ⟨h.1.2, h.1.1⟩

/-! ### Taking out and putting in -/

section Changes

variable [DecidableEq α]

/-- Joining the neighbours of `x` leads past it. -/
theorem Path.join (h₁ : p.Path a l₁ (some x)) (h₂ : p.Path (some x) l₂ b)
    (hnd : (l₁ ++ x :: l₂).Nodup) (ha : a ∉ (l₁ ++ x :: l₂).map some)
    (hb : b ∉ (l₁ ++ x :: l₂).map some)
    (hn : p'.next = update p.next (p.prev (some x)) (p.next (some x)))
    (hp : p'.prev = update p.prev (p.next (some x)) (p.prev (some x))) :
    p'.Path a (l₁ ++ l₂) b := by
  induction l₁ generalizing a with
  | nil =>
    have hpx : p.prev (some x) = a := h₁.2
    cases l₂ with
    | nil =>
      have hnx : p.next (some x) = b := h₂.1
      refine ⟨?_, ?_⟩
      · rw [hn, hpx, update_self, hnx]
      · rw [hp, hnx, update_self, hpx]
    | cons y l₃ =>
      have hnx : p.next (some x) = some y := h₂.1.1
      refine ⟨⟨?_, ?_⟩, h₂.2.congr ?_ ?_⟩
      · rw [hn, hpx, update_self, hnx]
      · rw [hp, hnx, update_self, hpx]
      · intro c hc
        have hca : c ≠ a := by
          rintro rfl
          apply ha
          rcases hc with rfl | hc
          · simp
          · simp [mem_map.1 hc]
        rw [hn, hpx, update_of_ne hca]
      · intro c hc
        have hcy : c ≠ some y := by
          rintro rfl
          rcases hc with rfl | hc
          · exact hb (by simp)
          · simp only [nil_append, nodup_cons] at hnd
            exact hnd.2.1 (by simpa using hc)
        rw [hp, hnx, update_of_ne hcy]
  | cons z l₁ ih =>
    simp only [cons_append, nodup_cons, map_cons, mem_cons, not_or] at hnd ha hb
    -- neither link of `a` is one of those that are joined
    have hpx : p.prev (some x) ≠ a := by
      intro hpa
      rcases h₁.2.prev_mem with h' | h'
      · exact ha.1 (hpa ▸ h')
      · apply ha.2
        rw [← hpa, map_append]
        exact mem_append_left _ h'
    have hnx : p.next (some x) ≠ some z := by
      intro hnz
      rcases h₂.next_mem with h' | h'
      · exact hb.1 (h'.symm.trans hnz)
      · apply hnd.1
        rw [hnz] at h'
        simpa using .inr (.inr (by simpa using h'))
    refine ⟨⟨?_, ?_⟩, ih h₁.2 hnd.2 ?_ hb.2⟩
    · rw [hn, update_of_ne (Ne.symm hpx)]
      exact h₁.1.1
    · rw [hp, update_of_ne (Ne.symm hnx)]
      exact h₁.1.2
    · intro hz
      exact hnd.1 (by simpa using hz)

namespace Circ

/-- Taking an element out of the list. -/
theorem unlink (h : p.Circ (l₁ ++ x :: l₂)) : (p.unlink x).Circ (l₁ ++ l₂) := by
  obtain ⟨h₁, h₂⟩ := h.path.append
  have hnone : ∀ k : List α, none ∉ k.map some := fun k => by simp
  -- `x` is not its own successor, so the second assignment reads the old `x->prev`
  have hnx : p.next (some x) ≠ some x := by
    intro hx
    rcases h₂.next_mem with h' | h'
    · simp [hx] at h'
    · have := (nodup_append.1 h.nodup).2.1
      rw [hx] at h'
      exact (nodup_cons.1 this).1 (by simpa using h')
  refine ⟨h₁.join h₂ h.nodup (hnone _) (hnone _) ?_ rfl, ?_⟩
  · simp [Links.unlink, update_of_ne (Ne.symm hnx)]
  · exact h.nodup.sublist (List.Sublist.append_left (sublist_cons_self x l₂) l₁)

/-- Putting a new element in at the front. -/
theorem pushFront (h : p.Circ l) (hx : x ∉ l) : (p.pushFront x).Circ (x :: l) := by
  have hfirst : p.next none ≠ some x := by
    intro hn
    rcases h.path.next_mem with h' | h'
    · exact absurd (hn.symm.trans h') (by simp)
    · rw [hn] at h'
      exact hx (by simpa using h')
  have hnext : ∀ c, c ≠ none → c ≠ some x → (p.pushFront x).next c = p.next c := fun c h1 h2 => by
    simp [Links.pushFront, update_of_ne h1, update_of_ne h2]
  have hprev : ∀ c, c ≠ some x → c ≠ p.next none → (p.pushFront x).prev c = p.prev c :=
    fun c h1 h2 => by
      simp [Links.pushFront, update_of_ne h1, update_of_ne h2]
  have h1 : (p.pushFront x).next none = some x := by simp [Links.pushFront]
  have h2 : (p.pushFront x).prev (some x) = none := by
    simp [Links.pushFront, update_of_ne (Ne.symm hfirst)]
  have h3 : (p.pushFront x).next (some x) = p.next none := by simp [Links.pushFront]
  have h4 : (p.pushFront x).prev (p.next none) = some x := by simp [Links.pushFront]
  refine ⟨⟨⟨h1, h2⟩, ?_⟩, nodup_cons.2 ⟨hx, h.nodup⟩⟩
  cases l with
  | nil =>
    have hn : p.next none = none := h.path.1
    exact ⟨h3.trans hn, by rw [hn] at h4; exact h4⟩
  | cons y l =>
    have hn : p.next none = some y := h.path.1.1
    refine ⟨⟨h3.trans hn, by rw [hn] at h4; exact h4⟩, h.path.2.congr ?_ ?_⟩
    · intro c hc
      refine hnext c ?_ ?_
      · rcases hc with rfl | hc
        · simp
        · rintro rfl
          simp at hc
      · rintro rfl
        rcases hc with hc | hc
        · exact hx (by simp [Option.some.inj hc])
        · exact hx (mem_cons_of_mem _ (by simpa using hc))
    · intro c hc
      refine hprev c ?_ ?_
      · rintro rfl
        rcases hc with hc | hc
        · exact absurd hc (by simp)
        · exact hx (mem_cons_of_mem _ (by simpa using hc))
      · rw [hn]
        rintro rfl
        rcases hc with hc | hc
        · exact absurd hc (by simp)
        · exact (nodup_cons.1 h.nodup).1 (by simpa using hc)

/-- Putting elements in at the front, one after the other. -/
theorem foldl_pushFront (h : p.Circ l) {k : List α} (hk : k.Nodup) (hd : ∀ x ∈ k, x ∉ l) :
    (k.foldl Links.pushFront p).Circ (k.reverse ++ l) := by
  induction k generalizing p l with
  | nil => exact h
  | cons x k ih =>
    obtain ⟨hx, hk⟩ := nodup_cons.1 hk
    rw [foldl_cons, reverse_cons, append_assoc]
    refine ih (h.pushFront (hd x (by simp))) hk fun y hy hyl => ?_
    rcases mem_cons.1 hyl with rfl | hyl
    · exact hx hy
    · exact hd y (mem_cons_of_mem _ hy) hyl

end Circ

end Changes

/-! ### Walking around -/

/-- Walking a path to its end is searching its list. -/
theorem Path.find (h : p.Path a l none) (P : α → Bool) {n : ℕ} (hn : l.length < n) :
    Links.find p.next P n (p.next a) = l.find? P := by
  induction l generalizing a n with
  | nil =>
    obtain ⟨n, rfl⟩ := Nat.exists_eq_succ_of_ne_zero (Nat.ne_of_gt hn)
    rw [h.1]
    rfl
  | cons y l ih =>
    obtain ⟨n, rfl⟩ := Nat.exists_eq_succ_of_ne_zero (Nat.ne_of_gt (Nat.zero_lt_of_lt hn))
    rw [h.1.1, Links.find, find?_cons]
    cases hy : P y with
    | true => simp
    | false =>
      simp only [Bool.false_eq_true, if_false]
      exact ih h.2 (Nat.lt_of_succ_lt_succ hn)

theorem Circ.find_next (h : p.Circ l) (P : α → Bool) {n : ℕ} (hn : l.length < n) :
    Links.find p.next P n (p.next none) = l.find? P := h.path.find P hn

theorem Circ.find_prev (h : p.Circ l) (P : α → Bool) {n : ℕ} (hn : l.length < n) :
    Links.find p.prev P n (p.prev none) = l.reverse.find? P :=
  h.path.reverse.find P (by rwa [length_reverse])

end Links
