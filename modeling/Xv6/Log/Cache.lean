import Xv6.Log.Bio

/-!
# What the buffer cache means

`Store` is the cache seen from outside: for every block its current contents (`view`), how many
references its buffer has, and who holds it.  Which buffer caches which block, and the order in
which buffers are recycled, are gone.  `Bio.Inv` is the representation invariant of the cache, and
each function of `bio.c` is shown to act on the store `Bio.abs` as its name says.  The crux is that
recycling a buffer does not move the store: only a buffer without references is recycled, and such
a buffer agrees with the disk.
-/

namespace Xv6

open Stateful Function List

/-- The blocks of a cached disk as its users see them. -/
@[ext] structure Store where
  disk : ℕ → Block
  writes : List (ℕ × Block)
  view : ℕ → Block
  refs : ℕ → ℕ
  holder : ℕ → Option ℕ

namespace Store

/-- A process takes a reference to a block and its lock. -/
@[simps -fullyApplied] def take (a : Store) (pid b : ℕ) : Store :=
  { a with refs := update a.refs b (a.refs b + 1)
           holder := update a.holder b (some pid) }

/-- The lock and one reference of a block are given back. -/
@[simps -fullyApplied] def give (a : Store) (b : ℕ) : Store :=
  { a with refs := update a.refs b (a.refs b - 1)
           holder := update a.holder b none }

/-- One more reference. -/
@[simps -fullyApplied] def pin (a : Store) (b : ℕ) : Store :=
  { a with refs := update a.refs b (a.refs b + 1) }

/-- One reference less. -/
@[simps -fullyApplied] def unpin (a : Store) (b : ℕ) : Store :=
  { a with refs := update a.refs b (a.refs b - 1) }

/-- New contents for a block, in memory only. -/
@[simps -fullyApplied] def put (a : Store) (b : ℕ) (v : Block) : Store :=
  { a with view := update a.view b v }

/-- The current contents of a block go to the disk. -/
@[simps -fullyApplied] def flush (a : Store) (b : ℕ) : Store :=
  { a with disk := update a.disk b (a.view b)
           writes := a.writes ++ [(b, a.view b)] }

end Store

namespace Bio

/-- Buffer `i` caches block `b`. -/
def At (s : Bio) (i : Fin NBUF) (b : ℕ) : Prop :=
  (s.buf i).dev = ROOTDEV ∧ (s.buf i).blockno = b

/-- A field of the buffer that caches a block, or a default. -/
def look {α : Type} (s : Bio) (g : Buf → α) (d : ℕ → α) (b : ℕ) : α :=
  match s.cached ROOTDEV b with
  | some i => g (s.buf i)
  | none => d b

/-- The store a cache stands for. -/
def abs (s : Bio) : Store where
  disk := s.disk
  writes := s.writes
  view := s.look Buf.data s.disk
  refs := s.look Buf.refcnt fun _ => 0
  holder := s.look Buf.locked fun _ => none

@[simp] theorem abs_disk (s : Bio) : s.abs.disk = s.disk := rfl
@[simp] theorem abs_writes (s : Bio) : s.abs.writes = s.writes := rfl

/-- The representation invariant of the cache. -/
structure Inv (s : Bio) : Prop where
  /-- The list visits every buffer. -/
  mem : ∀ i, i ∈ s.lru
  /-- It visits no buffer twice. -/
  nodup : s.lru.Nodup
  /-- A buffer that caches no block of the disk has no references. -/
  idle : ∀ i, (s.buf i).dev ≠ ROOTDEV → (s.buf i).refcnt = 0
  /-- No block is cached twice. -/
  uniq : ∀ i j b, s.At i b → s.At j b → i = j
  /-- An assigned buffer has been read. -/
  valid : ∀ i b, s.At i b → (s.buf i).valid = true
  /-- A buffer that may be recycled agrees with the disk. -/
  clean : ∀ i b, s.At i b → (s.buf i).refcnt = 0 → (s.buf i).data = s.disk b
  /-- A locked buffer has a reference. -/
  held : ∀ i, (s.buf i).locked ≠ none → 0 < (s.buf i).refcnt

/-- Buffers with references stay assigned to their blocks. -/
def Stable (s t : Bio) : Prop :=
  ∀ i b, s.At i b → 0 < (s.buf i).refcnt → t.At i b

/-- There is a buffer nobody refers to. -/
def Room (s : Bio) : Prop := ∃ i, (s.buf i).refcnt = 0

variable {s : Bio} {i j : Fin NBUF} {b c : ℕ} {f : Buf → Buf}

/-! ### The cache lookup -/

@[simp] theorem upd_buf_self : (s.upd i f).buf i = f (s.buf i) := by simp [upd]

theorem upd_buf_of_ne (h : j ≠ i) : (s.upd i f).buf j = s.buf j := by
  simp [upd, update_of_ne h]

@[simp] theorem upd_disk : (s.upd i f).disk = s.disk := rfl
@[simp] theorem upd_writes : (s.upd i f).writes = s.writes := rfl
@[simp] theorem upd_lru : (s.upd i f).lru = s.lru := rfl

theorem upd_upd (g : Buf → Buf) : (s.upd i f).upd i g = s.upd i fun b => g (f b) := by
  simp [upd]

theorem cached_eq_some (h : s.Inv) : s.cached ROOTDEV b = some i ↔ s.At i b := by
  have key : ∀ j, s.cached ROOTDEV b = some j → s.At j b := by
    intro j hj
    simpa [At] using find?_some hj
  constructor
  · exact key i
  · intro hi
    cases hc : s.cached ROOTDEV b with
    | some j => rw [h.uniq i j b hi (key j hc)]
    | none =>
      have := find?_eq_none.1 hc i (h.mem i)
      exact absurd hi (by simpa [At] using this)

theorem cached_eq_none (h : s.Inv) : s.cached ROOTDEV b = none ↔ ∀ i, ¬ s.At i b := by
  constructor
  · intro hc i hi
    rw [(cached_eq_some h).2 hi] at hc
    cases hc
  · intro hn
    cases hc : s.cached ROOTDEV b with
    | none => rfl
    | some j => exact absurd ((cached_eq_some h).1 hc) (hn j)

theorem at_or_not (s : Bio) (b : ℕ) : (∃ i, s.At i b) ∨ ∀ i, ¬ s.At i b := by
  by_cases h : ∃ i, s.At i b
  · exact Or.inl h
  · exact Or.inr fun i hi => h ⟨i, hi⟩

theorem look_at {α : Type} {g : Buf → α} {d : ℕ → α} (h : s.Inv) (hi : s.At i b) :
    s.look g d b = g (s.buf i) := by
  rw [look, (cached_eq_some h).2 hi]

theorem look_none {α : Type} {g : Buf → α} {d : ℕ → α} (h : s.Inv) (hn : ∀ i, ¬ s.At i b) :
    s.look g d b = d b := by
  rw [look, (cached_eq_none h).2 hn]

/-- The order of the list does not matter to a lookup. -/
theorem look_congr {α : Type} {t : Bio} (g : Buf → α) (d : ℕ → α) (hs : s.Inv) (ht : t.Inv)
    (hb : t.buf = s.buf) : t.look g d = s.look g d := by
  funext c
  have hat : ∀ i, t.At i c ↔ s.At i c := fun i => by rw [At, At, hb]
  rcases s.at_or_not c with ⟨i, hi⟩ | hn
  · rw [look_at hs hi, look_at ht ((hat i).2 hi), hb]
  · rw [look_none hs hn, look_none ht fun i hi => hn i ((hat i).1 hi)]

theorem view_at (h : s.Inv) (hi : s.At i b) : s.abs.view b = (s.buf i).data := by
  simp only [abs, look_at h hi]

theorem refs_at (h : s.Inv) (hi : s.At i b) : s.abs.refs b = (s.buf i).refcnt := by
  simp only [abs, look_at h hi]

theorem holder_at (h : s.Inv) (hi : s.At i b) : s.abs.holder b = (s.buf i).locked := by
  simp only [abs, look_at h hi]

theorem refs_none (h : s.Inv) (hn : ∀ i, ¬ s.At i b) : s.abs.refs b = 0 := by
  simp only [abs, look_none h hn]

theorem holder_none (h : s.Inv) (hn : ∀ i, ¬ s.At i b) : s.abs.holder b = none := by
  simp only [abs, look_none h hn]

theorem exists_at_of_refs (h : s.Inv) (hb : 0 < s.abs.refs b) : ∃ i, s.At i b := by
  rcases s.at_or_not b with hi | hn
  · exact hi
  · have := refs_none h hn
    omega

/-- A block without references is the same in memory and on the disk. -/
theorem view_eq_disk (h : s.Inv) (hb : s.abs.refs b = 0) : s.abs.view b = s.disk b := by
  rcases s.at_or_not b with ⟨i, hi⟩ | hn
  · rw [view_at h hi]
    exact h.clean i b hi (by rw [← refs_at h hi, hb])
  · exact look_none h hn

/-! ### Changing a buffer that keeps its block -/

section Keep

variable (hf : ∀ x : Buf, (f x).dev = x.dev ∧ (f x).blockno = x.blockno)
include hf

theorem at_upd : (s.upd i f).At j b ↔ s.At j b := by
  unfold At
  by_cases hj : j = i
  · subst hj
    rw [upd_buf_self, (hf _).1, (hf _).2]
  · rw [upd_buf_of_ne hj]

/-- The invariant survives a change that keeps the buffer readable, clean when unreferenced, and
referenced when locked. -/
theorem inv_upd (h : s.Inv) (hi : s.At i b) (hv : ∀ x : Buf, (f x).valid = x.valid)
    (hclean : (f (s.buf i)).refcnt = 0 → (f (s.buf i)).data = s.disk b)
    (hheld : (f (s.buf i)).locked ≠ none → 0 < (f (s.buf i)).refcnt) : (s.upd i f).Inv where
  mem := h.mem
  nodup := h.nodup
  idle := by
    intro j hj
    by_cases hji : j = i
    · subst hji; rw [upd_buf_self, (hf _).1] at hj; exact absurd hi.1 hj
    · rw [upd_buf_of_ne hji] at hj ⊢; exact h.idle j hj
  uniq := by
    intro j k c hj hk
    exact h.uniq j k c ((at_upd hf).1 hj) ((at_upd hf).1 hk)
  valid := by
    intro j c hj
    have hj' := (at_upd hf).1 hj
    by_cases hji : j = i
    · subst hji; rw [upd_buf_self, hv]; exact h.valid j c hj'
    · rw [upd_buf_of_ne hji]; exact h.valid j c hj'
  clean := by
    intro j c hj
    have hj' := (at_upd hf).1 hj
    by_cases hji : j = i
    · subst hji; rw [upd_buf_self, ← hj'.2, hi.2]; exact hclean
    · rw [upd_buf_of_ne hji]; exact h.clean j c hj'
  held := by
    intro j
    by_cases hji : j = i
    · subst hji; rw [upd_buf_self]; exact hheld
    · rw [upd_buf_of_ne hji]; exact h.held j

theorem look_upd {α : Type} (g : Buf → α) (d : ℕ → α) (h : s.Inv) (h' : (s.upd i f).Inv)
    (hi : s.At i b) : (s.upd i f).look g d = update (s.look g d) b (g (f (s.buf i))) := by
  funext c
  by_cases hcb : c = b
  · subst hcb
    rw [update_self, look_at h' ((at_upd hf).2 hi), upd_buf_self]
  · rw [update_of_ne hcb]
    rcases s.at_or_not c with ⟨j, hj⟩ | hn
    · have hji : j ≠ i := by
        rintro rfl
        exact hcb (hj.2.symm.trans hi.2)
      rw [look_at h hj, look_at h' ((at_upd hf).2 hj), upd_buf_of_ne hji]
    · rw [look_none h hn, look_none h' fun j hj => hn j ((at_upd hf).1 hj)]

theorem abs_upd (h : s.Inv) (h' : (s.upd i f).Inv) (hi : s.At i b) :
    (s.upd i f).abs = ⟨s.disk, s.writes,
      update s.abs.view b (f (s.buf i)).data,
      update s.abs.refs b (f (s.buf i)).refcnt,
      update s.abs.holder b (f (s.buf i)).locked⟩ :=
  Store.ext rfl rfl (look_upd hf _ _ h h' hi) (look_upd hf _ _ h h' hi) (look_upd hf _ _ h h' hi)

theorem stable_upd : Stable s (s.upd i f) := fun _ _ h _ => (at_upd hf).2 h

end Keep

/-! ### Recycling a buffer -/

/-- The buffer `i`, freshly read from block `b` and locked. -/
def fresh (s : Bio) (pid b : ℕ) : Buf := ⟨true, ROOTDEV, b, some pid, 1, s.disk b⟩

section Recycle

variable (pid : ℕ) (h : s.Inv) (hn : ∀ i, ¬ s.At i b) (hi : (s.buf i).refcnt = 0)

variable {pid} in
theorem at_recycle : (s.upd i fun _ => s.fresh pid b).At j c ↔
    (j = i ∧ c = b) ∨ (j ≠ i ∧ s.At j c) := by
  unfold At
  by_cases hj : j = i
  · subst hj
    rw [upd_buf_self]
    simp [fresh, eq_comm]
  · rw [upd_buf_of_ne hj]
    simp [hj]

include hi in
theorem stable_recycle : Stable s (s.upd i fun _ => s.fresh pid b) := by
  intro j c hj hpos
  refine at_recycle.2 (Or.inr ⟨?_, hj⟩)
  rintro rfl
  omega

include h hn hi

theorem inv_recycle : (s.upd i fun _ => s.fresh pid b).Inv where
  mem := h.mem
  nodup := h.nodup
  idle := by
    intro j hj
    by_cases hji : j = i
    · subst hji; rw [upd_buf_self] at hj; exact absurd rfl hj
    · rw [upd_buf_of_ne hji] at hj ⊢; exact h.idle j hj
  uniq := by
    intro j k c hj hk
    rcases at_recycle.1 hj with ⟨h1, h2⟩ | ⟨-, hj'⟩ <;>
      rcases at_recycle.1 hk with ⟨h3, h4⟩ | ⟨-, hk'⟩
    · rw [h1, h3]
    · exact absurd (h2 ▸ hk') (hn k)
    · exact absurd (h4 ▸ hj') (hn j)
    · exact h.uniq j k c hj' hk'
  valid := by
    intro j c hj
    rcases at_recycle.1 hj with ⟨rfl, rfl⟩ | ⟨hji, hj⟩
    · rw [upd_buf_self]; rfl
    · rw [upd_buf_of_ne hji]; exact h.valid j c hj
  clean := by
    intro j c hj
    rcases at_recycle.1 hj with ⟨rfl, rfl⟩ | ⟨hji, hj⟩
    · rw [upd_buf_self]; intro _; rfl
    · rw [upd_buf_of_ne hji]; exact h.clean j c hj
  held := by
    intro j
    by_cases hj : j = i
    · subst hj; rw [upd_buf_self]; intro _; exact Nat.one_pos
    · rw [upd_buf_of_ne hj]; exact h.held j

/-- A field of a buffer that agrees with its default when nobody refers to the buffer does not
notice the recycling, except at the new block. -/
theorem look_recycle {α : Type} (g : Buf → α) (d : ℕ → α)
    (hg : ∀ j c, s.At j c → (s.buf j).refcnt = 0 → g (s.buf j) = d c) :
    (s.upd i fun _ => s.fresh pid b).look g d =
      update (s.look g d) b (g (s.fresh pid b)) := by
  have h' := inv_recycle pid h hn hi
  funext c
  by_cases hcb : c = b
  · subst hcb
    rw [update_self, look_at h' (at_recycle.2 (Or.inl ⟨rfl, rfl⟩)), upd_buf_self]
  · rw [update_of_ne hcb]
    rcases s.at_or_not c with ⟨j, hj⟩ | hm
    · by_cases hji : j = i
      · -- the block that loses its buffer
        subst hji
        rw [look_at h hj, hg j c hj hi, look_none h']
        intro k hk
        rcases at_recycle.1 hk with ⟨-, hc⟩ | ⟨hki, hk⟩
        · exact hcb hc
        · exact hki (h.uniq k j c hk hj)
      · rw [look_at h hj, look_at h' (at_recycle.2 (Or.inr ⟨hji, hj⟩)), upd_buf_of_ne hji]
    · rw [look_none h hm, look_none h']
      intro k hk
      rcases at_recycle.1 hk with ⟨-, hc⟩ | ⟨-, hk⟩
      · exact hcb hc
      · exact hm k hk

theorem abs_recycle : (s.upd i fun _ => s.fresh pid b).abs = s.abs.take pid b := by
  have hview : s.abs.view b = s.disk b := look_none h hn
  have hrefs := refs_none h hn
  refine Store.ext rfl rfl ?_ ?_ ?_
  · refine (look_recycle pid h hn hi _ _ h.clean).trans ?_
    show update s.abs.view b (s.disk b) = s.abs.view
    rw [← hview, update_eq_self]
  · refine (look_recycle pid h hn hi _ _ fun j c _ hz => hz).trans ?_
    show update s.abs.refs b 1 = update s.abs.refs b (s.abs.refs b + 1)
    rw [hrefs]
  · refine look_recycle pid h hn hi _ _ fun j c _ hz => ?_
    by_contra hl
    have := h.held j hl
    omega

end Recycle

/-- A buffer is free when fewer blocks than buffers have references. -/
theorem room_of_refs (h : s.Inv) (l : List ℕ) (hl : l.length < NBUF)
    (hr : ∀ b, 0 < s.abs.refs b → b ∈ l) : s.Room := by
  by_contra hroom
  have hpos : ∀ i, 0 < (s.buf i).refcnt := fun i =>
    Nat.pos_of_ne_zero fun hz => hroom ⟨i, hz⟩
  have hat : ∀ i, s.At i (s.buf i).blockno := fun i =>
    ⟨by_contra fun hd => absurd (h.idle i hd) (hpos i).ne', rfl⟩
  have hinj : Injective fun i => (s.buf i).blockno := by
    intro i j hij
    refine h.uniq i j _ (hat i) ?_
    simp only at hij
    rw [hij]
    exact hat j
  have hsub : Finset.univ.image (fun i => (s.buf i).blockno) ⊆ l.toFinset := by
    intro b hb
    obtain ⟨i, -, rfl⟩ := Finset.mem_image.1 hb
    exact mem_toFinset.2 (hr _ (by rw [refs_at h (hat i)]; exact hpos i))
  have hcard := Finset.card_le_card hsub
  rw [Finset.card_image_of_injective _ hinj, Finset.card_univ, Fintype.card_fin] at hcard
  have := l.toFinset_card_le
  omega

end Bio

/-! ### The functions of the cache on the store -/

section Functions

variable {s : Bio} {i : Fin NBUF} {b pid : ℕ}

open Bio

theorem binit_inv (disk : ℕ → Block) : (binit disk).Inv where
  mem := fun i => mem_reverse.2 (mem_finRange i)
  nodup := nodup_reverse.2 (nodup_finRange NBUF)
  idle := fun _ _ => rfl
  uniq := fun _ _ _ h => absurd h.1 (by simp [binit])
  valid := fun _ _ h => absurd h.1 (by simp [binit])
  clean := fun _ _ h => absurd h.1 (by simp [binit])
  held := fun _ h => absurd rfl h

theorem binit_abs (disk : ℕ → Block) :
    (binit disk).abs = ⟨disk, [], disk, fun _ => 0, fun _ => none⟩ := by
  have hn : ∀ b i, ¬ (binit disk).At i b := fun b i h => absurd h.1 (by simp [binit])
  have h := binit_inv disk
  refine Store.ext rfl rfl ?_ ?_ ?_
  · funext b; simp only [Bio.abs, look_none h (hn b)]; rfl
  · funext b; simp only [Bio.abs, look_none h (hn b)]
  · funext b; simp only [Bio.abs, look_none h (hn b)]

/-- **`bread`** takes a reference and the lock. It waits only for a holder and fails only when
every buffer is referred to; either way nothing is written. -/
theorem wp_bread (h : s.Inv) (pid b : ℕ) :
    wp (bread pid ROOTDEV b)
      (fun i t => t.Inv ∧ t.abs = s.abs.take pid b ∧ t.At i b ∧ s.abs.holder b = none ∧ s.Stable t)
      (fun w t => t.disk = s.disk ∧ t.writes = s.writes ∧
        ((w = .sleep ∧ s.abs.holder b ≠ none) ∨ (w = .panic "bget: no buffers" ∧ ¬ s.Room))) s := by
  cases hc : s.cached ROOTDEV b with
  | some i =>
    have hi := (cached_eq_some h).1 hc
    cases hl : (s.buf i).locked with
    | some q =>
      have hrun : bread pid ROOTDEV b s =
          .stop .sleep (s.upd i fun x => { x with refcnt := x.refcnt + 1 }) := by
        simp [bread, bget, acquiresleep, Prog.bind_run, hc, hl]
      exact wp_of_stop hrun ⟨rfl, rfl, Or.inl ⟨rfl, by rw [holder_at h hi, hl]; simp⟩⟩
    | none =>
      have hrun : bread pid ROOTDEV b s =
          .ok i (s.upd i fun x => { x with refcnt := x.refcnt + 1, locked := some pid }) := by
        simp [bread, bget, acquiresleep, Prog.bind_run, hc, hl, h.valid i b hi, upd_upd]
      have hf : ∀ x : Buf, ({ x with refcnt := x.refcnt + 1, locked := some pid } : Buf).dev = x.dev ∧
          ({ x with refcnt := x.refcnt + 1, locked := some pid } : Buf).blockno = x.blockno :=
        fun _ => ⟨rfl, rfl⟩
      have h' := inv_upd hf h hi (fun _ => rfl) (fun hz => absurd hz (Nat.succ_ne_zero _))
        (fun _ => Nat.succ_pos _)
      refine wp_of_ok hrun ⟨h', ?_, (at_upd hf).2 hi, by rw [holder_at h hi, hl], stable_upd hf⟩
      rw [abs_upd hf h h' hi, ← view_at h hi, ← refs_at h hi, update_eq_self]
      rfl
  | none =>
    have hn := (cached_eq_none h).1 hc
    cases hu : s.unused with
    | some i =>
      have hi : (s.buf i).refcnt = 0 := by simpa using find?_some hu
      have hl : (s.buf i).locked = none := by
        by_contra hl
        have := h.held i hl
        omega
      have hrun : bread pid ROOTDEV b s = .ok i (s.upd i fun _ => s.fresh pid b) := by
        simp [bread, bget, acquiresleep, virtioDiskRw, Prog.bind_run, hc, hu, hl, upd_upd, fresh]
      exact wp_of_ok hrun ⟨inv_recycle pid h hn hi, abs_recycle pid h hn hi,
        at_recycle.2 (Or.inl ⟨rfl, rfl⟩), holder_none h hn, stable_recycle pid hi⟩
    | none =>
      have hrun : bread pid ROOTDEV b s = .stop (.panic "bget: no buffers") s := by
        simp [bread, bget, Prog.bind_run, hc, hu]
      refine wp_of_stop hrun ⟨rfl, rfl, Or.inr ⟨rfl, ?_⟩⟩
      rintro ⟨i, hi⟩
      have := find?_eq_none.1 hu i (mem_reverse.2 (h.mem i))
      simp [hi] at this

/-- **`brelse`** by the holder gives the lock and one reference back. -/
theorem wp_brelse (h : s.Inv) (hi : s.At i b) (hl : s.abs.holder b = some pid)
    (hclean : s.abs.refs b = 1 → s.abs.view b = s.disk b) {A : Stop → Bio → Prop} :
    wp (brelse pid i)
      (fun _ t => t.Inv ∧ t.abs = s.abs.give b ∧ ∀ j c, t.At j c ↔ s.At j c) A s := by
  have hlock : (s.buf i).locked = some pid := by rw [← holder_at h hi, hl]
  have hpos : 0 < (s.buf i).refcnt := h.held i (by rw [hlock]; simp)
  have hf : ∀ x : Buf, ({ x with locked := none, refcnt := x.refcnt - 1 } : Buf).dev = x.dev ∧
      ({ x with locked := none, refcnt := x.refcnt - 1 } : Buf).blockno = x.blockno :=
    fun _ => ⟨rfl, rfl⟩
  have h' := inv_upd hf h hi (fun _ => rfl)
    (fun hz => by
      have hone : s.abs.refs b = 1 := by rw [refs_at h hi]; simp only at hz; omega
      rw [← hclean hone, view_at h hi])
    (fun hn => absurd rfl hn)
  have habs : (s.upd i fun x => { x with locked := none, refcnt := x.refcnt - 1 }).abs =
      s.abs.give b := by
    rw [abs_upd hf h h' hi, ← view_at h hi, ← refs_at h hi, update_eq_self]
    rfl
  by_cases hz : (s.buf i).refcnt - 1 = 0
  · -- the buffer moves to the head of the list, which the store does not see
    have hrun : brelse pid i s = .ok () { s.upd i fun x =>
        { x with locked := none, refcnt := x.refcnt - 1 } with lru := i :: s.lru.erase i } := by
      simp [brelse, holdingsleep, hlock, Prog.bind_run, hz]
    have hperm := perm_cons_erase (h.mem i)
    have h2 : Bio.Inv { s.upd i fun x =>
        { x with locked := none, refcnt := x.refcnt - 1 } with lru := i :: s.lru.erase i } :=
      ⟨fun j => hperm.mem_iff.1 (h.mem j), hperm.nodup_iff.1 h.nodup, h'.idle, h'.uniq,
        h'.valid, h'.clean, h'.held⟩
    refine wp_of_ok hrun ⟨h2, ?_, fun j c => at_upd hf⟩
    rw [← habs]
    exact Store.ext rfl rfl (look_congr _ _ h' h2 rfl) (look_congr _ _ h' h2 rfl)
      (look_congr _ _ h' h2 rfl)
  · have hrun : brelse pid i s = .ok () (s.upd i fun x =>
        { x with locked := none, refcnt := x.refcnt - 1 }) := by
      simp [brelse, holdingsleep, hlock, Prog.bind_run, hz]
    exact wp_of_ok hrun ⟨h', habs, fun j c => at_upd hf⟩

/-- **`bwrite`** by the holder sends the block to the disk. -/
theorem wp_bwrite (h : s.Inv) (hi : s.At i b) (hl : s.abs.holder b = some pid)
    {A : Stop → Bio → Prop} :
    wp (bwrite pid i)
      (fun _ t => t.Inv ∧ t.abs = s.abs.flush b ∧ ∀ j c, t.At j c ↔ s.At j c) A s := by
  have hlock : (s.buf i).locked = some pid := by rw [← holder_at h hi, hl]
  have hview := view_at h hi
  have hrun : bwrite pid i s = .ok () { s with
      disk := update s.disk b (s.abs.view b)
      writes := s.writes ++ [(b, s.abs.view b)] } := by
    simp [bwrite, virtioDiskRw, holdingsleep, hlock, Prog.bind_run, hview, hi.2]
  have h' : Bio.Inv { s with
      disk := update s.disk b (s.abs.view b)
      writes := s.writes ++ [(b, s.abs.view b)] } := by
    refine ⟨h.mem, h.nodup, h.idle, h.uniq, h.valid, ?_, h.held⟩
    intro j c hj hz
    by_cases hcb : c = b
    · subst hcb
      show (s.buf j).data = update s.disk c (s.abs.view c) c
      rw [update_self, ← view_at h hj]
    · show (s.buf j).data = update s.disk b (s.abs.view b) c
      rw [update_of_ne hcb]
      exact h.clean j c hj hz
  refine wp_of_ok hrun ⟨h', ?_, fun j c => Iff.rfl⟩
  refine Store.ext rfl rfl ?_ (look_congr _ _ h h' rfl) (look_congr _ _ h h' rfl)
  funext c
  by_cases hcb : c = b
  · subst hcb
    rw [view_at h' hi]
    exact hview.symm
  · rcases s.at_or_not c with ⟨j, hj⟩ | hn
    · rw [view_at h' hj]
      exact (view_at h hj).symm
    · have h1 := look_none (g := Buf.data) (d := update s.disk b (s.abs.view b)) h' hn
      rw [update_of_ne hcb] at h1
      exact h1.trans (look_none h hn).symm

/-- **`bpin`** adds a reference. -/
theorem wp_bpin (h : s.Inv) (hi : s.At i b) {A : Stop → Bio → Prop} :
    wp (bpin i) (fun _ t => t.Inv ∧ t.abs = s.abs.pin b ∧ ∀ j c, t.At j c ↔ s.At j c) A s := by
  have hf : ∀ x : Buf, ({ x with refcnt := x.refcnt + 1 } : Buf).dev = x.dev ∧
      ({ x with refcnt := x.refcnt + 1 } : Buf).blockno = x.blockno := fun _ => ⟨rfl, rfl⟩
  have h' := inv_upd hf h hi (fun _ => rfl) (fun hz => absurd hz (Nat.succ_ne_zero _))
    (fun _ => Nat.succ_pos _)
  refine ⟨h', ?_, fun j c => at_upd hf⟩
  rw [abs_upd hf h h' hi, ← view_at h hi, ← refs_at h hi, ← holder_at h hi, update_eq_self,
    update_eq_self]
  rfl

/-- **`bunpin`** drops a reference, of a block that is on the disk or has another one. -/
theorem wp_bunpin (h : s.Inv) (hi : s.At i b) (hpos : s.abs.holder b ≠ none → 1 < s.abs.refs b)
    (hclean : s.abs.refs b ≤ 1 → s.abs.view b = s.disk b) {A : Stop → Bio → Prop} :
    wp (bunpin i) (fun _ t => t.Inv ∧ t.abs = s.abs.unpin b ∧ ∀ j c, t.At j c ↔ s.At j c) A s := by
  have hf : ∀ x : Buf, ({ x with refcnt := x.refcnt - 1 } : Buf).dev = x.dev ∧
      ({ x with refcnt := x.refcnt - 1 } : Buf).blockno = x.blockno := fun _ => ⟨rfl, rfl⟩
  have hrefs := refs_at h hi
  have h' := inv_upd hf h hi (fun _ => rfl)
    (fun hz => by
      have : s.abs.refs b ≤ 1 := by simp only at hz; omega
      rw [← hclean this, view_at h hi])
    (fun hn => by
      have := hpos (by rwa [holder_at h hi])
      simp only
      omega)
  refine ⟨h', ?_, fun j c => at_upd hf⟩
  rw [abs_upd hf h h' hi, ← view_at h hi, ← refs_at h hi, ← holder_at h hi, update_eq_self,
    update_eq_self]
  rfl

/-- Writing through `b->data` changes the contents in memory. -/
theorem wp_setData (h : s.Inv) (hi : s.At i b) (hpos : 0 < s.abs.refs b) (v : Block)
    {A : Stop → Bio → Prop} :
    wp (setData i v) (fun _ t => t.Inv ∧ t.abs = s.abs.put b v ∧ ∀ j c, t.At j c ↔ s.At j c) A s := by
  have hf : ∀ x : Buf, ({ x with data := v } : Buf).dev = x.dev ∧
      ({ x with data := v } : Buf).blockno = x.blockno := fun _ => ⟨rfl, rfl⟩
  rw [refs_at h hi] at hpos
  have h' := inv_upd hf h hi (fun _ => rfl) (fun hz => absurd hz hpos.ne') (fun _ => hpos)
  refine ⟨h', ?_, fun j c => at_upd hf⟩
  rw [abs_upd hf h h' hi, ← refs_at h hi, ← holder_at h hi, update_eq_self,
    update_eq_self]
  rfl

end Functions

end Xv6
