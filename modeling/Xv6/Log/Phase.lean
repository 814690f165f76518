import Xv6.Log.Steps

/-!
# The phases of a commit

While a transaction is being committed, the disk passes through three phases: the log is filled
under an empty header, then, behind the header of the transaction, the blocks are installed one by
one, and last the header is empty again.  `Phase` says what holds of the store at each point, for a
transaction that takes the blocks `l` from their contents in `old` to those in `new`.  Each round
moves to the next point, and `Phase.redo` reads off what a machine that stops there would recover.
-/

namespace Xv6

open Stateful Bio Function List

/-- A point in `commit`, between two writes to the disk. -/
inductive CommitPc
  /-- In `write_log`, with `tail` blocks copied to the log. -/
  | writing (tail : ℕ)
  /-- In `install_trans`, with `tail` blocks copied home. -/
  | installing (tail : ℕ)
  /-- The header is cleared. -/
  | done
  deriving DecidableEq

/-- Whether the header of the transaction has reached the disk. -/
def CommitPc.committed : CommitPc → Bool
  | .writing _ => false
  | .installing _ | .done => true

/-- The header the log code can write: it fits the log area, the header array, and the words. -/
structure Log.HeadOk (g : Log) (l : List ℕ) : Prop extends g.area.Fits l where
  len : l.length ≤ LOGSIZE
  word : ∀ b ∈ l, b < 2 ^ 32

/-- The header after `log_write` has found room for another block. -/
theorem Log.HeadOk.concat {g : Log} {l : List ℕ} (h : g.HeadOk l) {b : ℕ} (hb : b ∉ l)
    (hhome : g.area.Home b) (hword : b < 2 ^ 32) (hlen : l.length < LOGSIZE)
    (hsize : l.length + 1 < g.size) : g.HeadOk (l ++ [b]) where
  toFits := h.toFits.concat hb hhome hsize
  len := by
    rw [length_append, length_singleton]
    omega
  word c hc := by
    rcases mem_append.1 hc with hc | hc
    · exact h.word c hc
    · rwa [mem_singleton.1 hc]

section Phase

variable (g : Log) (old new : ℕ → Block) (l : List ℕ)

/-- What holds of the store at a point of a commit. -/
def Phase (a : Store) : CommitPc → Prop
  | .writing t =>
      g.area.listed a.disk = [] ∧ (∀ c, g.area.Home c → a.disk c = old c) ∧
      (∀ c ∈ l, a.view c = new c) ∧
      ∀ j (hj : j < l.length), j < t →
        a.disk (g.start + 1 + j) = new l[j] ∧ a.view (g.start + 1 + j) = new l[j]
  | .installing t =>
      g.area.listed a.disk = l ∧ (∀ c, g.area.Home c → c ∉ l → a.disk c = old c) ∧
      (∀ c ∈ l, a.view c = new c) ∧
      (∀ j (hj : j < l.length),
        a.disk (g.start + 1 + j) = new l[j] ∧ a.view (g.start + 1 + j) = new l[j]) ∧
      ∀ j (hj : j < l.length), j < t → a.disk l[j] = new l[j]
  | .done =>
      g.area.listed a.disk = [] ∧ ∀ c, g.area.Home c → a.disk c = if c ∈ l then new c else old c

variable {g old new l} {a : Store} {t : ℕ}

section

variable (hl : g.HeadOk l)
include hl

/-- What recovery would make of the disk at each point. -/
theorem Phase.redo {pc : CommitPc} (h : Phase g old new l a pc) {c : ℕ}
    (hc : g.area.Home c) :
    g.area.redo a.disk c =
      if pc.committed ∧ c ∈ l then new c else old c := by
  cases pc with
  | writing t =>
    obtain ⟨h1, h2, -⟩ := h
    rw [Area.redo_of_listed_nil h1, h2 c hc, if_neg (by simp [CommitPc.committed])]
  | installing t =>
    obtain ⟨h1, h2, -, h4, -⟩ := h
    by_cases hm : c ∈ l
    · rw [if_pos ⟨rfl, hm⟩]
      obtain ⟨j, hj, rfl⟩ := getElem_of_mem hm
      have := Area.redo_of_mem (a := g.area) (d := a.disk) (j := j) (by rw [h1]; exact hl.nodup)
        (by rwa [h1])
      simp only [h1] at this
      rw [this]
      exact (h4 j hj).1
    · rw [if_neg (by simp [hm]), Area.redo_of_not_mem (by rwa [h1]), h2 c hc hm]
  | done =>
    obtain ⟨h1, h2⟩ := h
    rw [Area.redo_of_listed_nil h1, h2 c hc]
    simp [CommitPc.committed]

/-- At each point the header on the disk is one the log can serve. -/
theorem Phase.fits {pc : CommitPc} (h : Phase g old new l a pc) :
    g.area.Fits (g.area.listed a.disk) := by
  have hnil : g.area.Fits [] := Area.Fits.nil (by have := hl.room; omega)
  cases pc with
  | writing t => rw [h.1]; exact hnil
  | installing t => rw [h.1]; exact hl.toFits
  | done => rw [h.1]; exact hnil

theorem home_ne_log {c j : ℕ} (hc : g.area.Home c) (hj : j < l.length) :
    c ≠ g.start + 1 + j :=
  hc.ne_log (a := g.area) (by have := hl.room; omega)

theorem home_ne_start {c : ℕ} (hc : g.area.Home c) : c ≠ g.start :=
  hc.ne_start (a := g.area) (by have := hl.room; omega)

theorem Phase.writeOne (h : Phase g old new l a (.writing t)) (ht : t < l.length) :
    Phase g old new l (a.write (g.start + 1 + t) (a.view l[t])) (.writing (t + 1)) := by
  obtain ⟨h1, h2, h3, h4⟩ := h
  have hv : a.view l[t] = new l[t] := h3 _ (getElem_mem ht)
  refine ⟨?_, fun c hc => ?_, fun c hc => ?_, fun j hj hjt => ?_⟩
  · rw [Store.write_disk, Area.listed_update_of_ne _ (show g.start + 1 + t ≠ g.start by omega), h1]
  · rw [Store.write_disk, update_of_ne (home_ne_log hl hc ht), h2 c hc]
  · rw [Store.write_view, update_of_ne (home_ne_log hl (hl.home c hc) ht), h3 c hc]
  · rw [Store.write_disk, Store.write_view]
    by_cases hjt' : j = t
    · subst hjt'
      simp [hv]
    · have hne : g.start + 1 + j ≠ g.start + 1 + t := by omega
      rw [update_of_ne hne, update_of_ne hne]
      exact h4 j hj (by omega)

theorem Phase.writeHead (h : Phase g old new l a (.writing l.length)) (v : Block) :
    Phase g old new l (a.write g.start (encodeHead v l)) (.installing 0) := by
  obtain ⟨h1, h2, h3, h4⟩ := h
  have hlisted : g.area.listed (update a.disk g.start (encodeHead v l)) = l := by
    rw [Log.listed_eq, update_self, decodeHead_encodeHead v l hl.len hl.word]
  refine ⟨by rw [Store.write_disk, hlisted], fun c hc hm => ?_, fun c hc => ?_, fun j hj => ?_,
    fun j hj hj0 => absurd hj0 (Nat.not_lt_zero j)⟩
  · rw [Store.write_disk, update_of_ne (home_ne_start hl hc), h2 c hc]
  · rw [Store.write_view, update_of_ne (home_ne_start hl (hl.home c hc)), h3 c hc]
  · have hne : g.start + 1 + j ≠ g.start := by omega
    rw [Store.write_disk, Store.write_view, update_of_ne hne, update_of_ne hne]
    exact h4 j hj hj

theorem Phase.installOne (h : Phase g old new l a (.installing t))
    (ht : t < l.length) :
    Phase g old new l (a.write l[t] (a.view (g.start + 1 + t))) (.installing (t + 1)) := by
  obtain ⟨h1, h2, h3, h4, h5⟩ := h
  have hv := (h4 t ht).2
  have hhome := hl.home _ (getElem_mem ht)
  refine ⟨?_, fun c hc hm => ?_, fun c hc => ?_, fun j hj => ?_, fun j hj hjt => ?_⟩
  · rw [Store.write_disk, Area.listed_update_of_ne _ (home_ne_start hl hhome), h1]
  · rw [Store.write_disk, update_of_ne, h2 c hc hm]
    rintro rfl
    exact hm (getElem_mem ht)
  · rw [Store.write_view, hv]
    by_cases hct : c = l[t]
    · subst hct; simp
    · rw [update_of_ne hct, h3 c hc]
  · have hne := (home_ne_log hl hhome hj).symm
    rw [Store.write_disk, Store.write_view, update_of_ne hne, update_of_ne hne]
    exact h4 j hj
  · rw [Store.write_disk, hv]
    by_cases hjt' : l[j] = l[t]
    · rw [hjt', update_self]
    · rw [update_of_ne hjt']
      refine h5 j hj ?_
      by_contra hlt
      have : j = t := by omega
      subst this
      exact hjt' rfl

theorem Phase.clear (h : Phase g old new l a (.installing l.length)) (v : Block) :
    Phase g old new l (a.write g.start (encodeHead v [])) .done := by
  obtain ⟨h1, h2, h3, h4, h5⟩ := h
  refine ⟨?_, fun c hc => ?_⟩
  · rw [Store.write_disk, Log.listed_eq, update_self, decodeHead_encodeHead_nil v]
  · rw [Store.write_disk, update_of_ne (home_ne_start hl hc)]
    split_ifs with hm
    · obtain ⟨j, hj, rfl⟩ := getElem_of_mem hm
      exact h5 j hj hj
    · exact h2 c hc hm

end

/-- References and holders do not matter to a phase, nor what the cache shows of blocks outside
the transaction and the log. -/
theorem Phase.congr {a' : Store} {pc : CommitPc} (h : Phase g old new l a pc)
    (hd : a'.disk = a.disk) (hv : a'.view = a.view) : Phase g old new l a' pc := by
  cases pc <;> simpa only [Phase, hd, hv] using h

end Phase

end Xv6
