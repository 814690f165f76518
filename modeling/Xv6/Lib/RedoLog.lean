import Mathlib.Tactic

/-!
# A redo log on an array of blocks

An array of blocks holds a log area of `size` blocks from block `start` on: a header block, which
lists the home blocks of a transaction, followed by the logged contents of these blocks in the
order of the header.  `head` reads the list off the header block.

`Area.redo d` is what the array means: the home blocks with the listed ones replaced by their
logged contents.  The installation of a listed block (`redo_install`) and the clearing of a header
whose blocks are all installed (`redo_clear`) leave it alone.
-/

namespace Stateful

open Function List

variable {β : Type}

/-- Perform block writes in order. -/
def applyWrites (d : ℕ → β) (ws : List (ℕ × β)) : ℕ → β :=
  ws.foldl (fun d w => update d w.1 w.2) d

@[simp] theorem applyWrites_nil (d : ℕ → β) : applyWrites d [] = d := rfl

@[simp] theorem applyWrites_cons (d : ℕ → β) (w : ℕ × β) (ws : List (ℕ × β)) :
    applyWrites d (w :: ws) = applyWrites (update d w.1 w.2) ws := rfl

theorem applyWrites_append (d : ℕ → β) (ws vs : List (ℕ × β)) :
    applyWrites d (ws ++ vs) = applyWrites (applyWrites d ws) vs := by
  simp [applyWrites, foldl_append]

theorem applyWrites_concat (d : ℕ → β) (ws : List (ℕ × β)) (w : ℕ × β) :
    applyWrites d (ws ++ [w]) = update (applyWrites d ws) w.1 w.2 := by
  rw [applyWrites_append]; rfl

/-- A block that is not written keeps its contents. -/
theorem applyWrites_of_not_mem {d : ℕ → β} {ws : List (ℕ × β)} {b : ℕ}
    (h : b ∉ ws.map Prod.fst) : applyWrites d ws b = d b := by
  induction ws generalizing d with
  | nil => rfl
  | cons w ws ih =>
    rw [map_cons, mem_cons, not_or] at h
    rw [applyWrites_cons, ih h.2, update_of_ne h.1]

/-- A block holds what was written to it last. -/
theorem applyWrites_eq_last (d : ℕ → β) (ws : List (ℕ × β)) (b : ℕ) :
    applyWrites d ws b = ((ws.reverse.find? fun w => w.1 = b).map Prod.snd).getD (d b) := by
  induction ws using List.reverseRecOn with
  | nil => rfl
  | append_singleton ws w ih =>
    rw [applyWrites_concat, reverse_append, reverse_singleton, singleton_append]
    by_cases hw : w.1 = b
    · subst hw
      simp
    · rw [update_of_ne (Ne.symm hw), ih, find?_cons_of_neg (by simpa using hw)]

/-- Where the log lies and how its header block is read. -/
structure Area (β : Type) where
  start : ℕ
  size : ℕ
  head : β → List ℕ

namespace Area

variable (a : Area β) {d : ℕ → β} {b j : ℕ} {l : List ℕ}

/-- A block outside the log area. -/
def Home (b : ℕ) : Prop := b < a.start ∨ a.start + a.size ≤ b

/-- The blocks the header of `d` lists. -/
def listed (d : ℕ → β) : List ℕ := a.head (d a.start)

/-- The home blocks, with the listed ones as the log has them. -/
def redo (d : ℕ → β) (b : ℕ) : β :=
  if b ∈ a.listed d then d (a.start + 1 + (a.listed d).idxOf b) else d b

/-- A header that the log area can serve: distinct home blocks, no more than fit. -/
structure Fits (l : List ℕ) : Prop where
  nodup : l.Nodup
  home : ∀ b ∈ l, a.Home b
  room : l.length + 1 ≤ a.size

variable {a}

theorem Fits.nil (h : 0 < a.size) : a.Fits [] := ⟨nodup_nil, by simp, h⟩

theorem Fits.concat {l : List ℕ} (h : a.Fits l) {b : ℕ} (hb : b ∉ l) (hhome : a.Home b)
    (hroom : l.length + 1 < a.size) : a.Fits (l ++ [b]) where
  nodup := nodup_append.2 ⟨h.nodup, nodup_singleton b, fun c hc c' hc' he => by
    rw [mem_singleton] at hc'
    exact hb (hc' ▸ he ▸ hc)⟩
  home c hc := by
    rcases mem_append.1 hc with hc | hc
    · exact h.home c hc
    · rwa [mem_singleton.1 hc]
  room := by
    rw [length_append, length_singleton]
    omega

theorem redo_of_listed_nil (h : a.listed d = []) : a.redo d = d := by
  funext b; simp [redo, h]

theorem redo_of_mem (hl : (a.listed d).Nodup) (hj : j < (a.listed d).length) :
    a.redo d (a.listed d)[j] = d (a.start + 1 + j) := by
  rw [redo, if_pos (getElem_mem hj), hl.idxOf_getElem j hj]

theorem redo_of_not_mem (h : b ∉ a.listed d) : a.redo d b = d b := if_neg h

/-- Two arrays with the same header block list the same blocks. -/
theorem listed_update_of_ne (v : β) (h : b ≠ a.start) :
    a.listed (update d b v) = a.listed d := by
  rw [listed, listed, update_of_ne (Ne.symm h)]

theorem Home.ne_start (h : a.Home b) (hs : 0 < a.size) : b ≠ a.start := by
  rcases h with h | h <;> omega

theorem Home.ne_log (h : a.Home b) (hj : j + 1 < a.size) : b ≠ a.start + 1 + j := by
  rcases h with h | h <;> omega

/-- Installing a listed block changes nothing. -/
theorem redo_install (hf : a.Fits (a.listed d)) (hj : j < (a.listed d).length) (hb : a.Home b) :
    a.redo (update d (a.listed d)[j] (d (a.start + 1 + j))) b = a.redo d b := by
  have hroom := hf.room
  have hhome := hf.home _ (getElem_mem hj)
  have hl : a.listed (update d (a.listed d)[j] (d (a.start + 1 + j))) = a.listed d :=
    listed_update_of_ne _ (hhome.ne_start (by omega))
  by_cases hm : b ∈ a.listed d
  · have hi := idxOf_lt_length_of_mem hm
    rw [redo, redo, hl, if_pos hm, if_pos hm,
      update_of_ne (hhome.ne_log (by omega)).symm]
  · rw [redo, redo, hl, if_neg hm, if_neg hm, update_of_ne]
    rintro rfl
    exact hm (getElem_mem hj)

/-- Clearing the header when every listed block is installed changes nothing. -/
theorem redo_clear {v : β} (hv : a.head v = []) (hf : (a.listed d).Nodup)
    (hd : ∀ j (hj : j < (a.listed d).length), d (a.listed d)[j] = d (a.start + 1 + j))
    (hb : b ≠ a.start) : a.redo (update d a.start v) b = a.redo d b := by
  have hl : a.listed (update d a.start v) = [] := by rw [listed, update_self, hv]
  rw [redo_of_listed_nil hl, update_of_ne hb]
  by_cases hm : b ∈ a.listed d
  · obtain ⟨j, hj, rfl⟩ := getElem_of_mem hm
    rw [redo_of_mem hf hj, hd j hj]
  · rw [redo_of_not_mem hm]

end Area

end Stateful
