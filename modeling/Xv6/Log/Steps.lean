import Xv6.Log.Log

/-!
# What the log functions do to the disk and the cache

Each round of the two copying loops, and reading and writing the header, as one change of the
store.  A round writes one block, after everything that can make it wait or fail, so a round that
stops has written nothing.
-/

namespace Xv6

open Stateful Bio Function

namespace Store

/-- Nobody refers to a block and nobody holds one. -/
structure Quiet (a : Store) : Prop where
  refs : ∀ b, a.refs b = 0
  holder : ∀ b, a.holder b = none

/-- A block gets new contents, in memory and on the disk. -/
def write (a : Store) (b : ℕ) (v : Block) : Store := (a.put b v).flush b

variable (a : Store) {b c : ℕ} (v : Block)

@[simp] theorem write_disk : (a.write b v).disk = update a.disk b v := by
  simp [write, flush, put]

@[simp] theorem write_writes : (a.write b v).writes = a.writes ++ [(b, v)] := by
  simp [write, flush, put]

@[simp] theorem write_view : (a.write b v).view = update a.view b v := rfl
@[simp] theorem write_refs : (a.write b v).refs = a.refs := rfl
@[simp] theorem write_holder : (a.write b v).holder = a.holder := rfl

/-- Borrowing a free block and giving it back leaves no trace. -/
theorem give_take (pid : ℕ) (hb : a.holder b = none) : (a.take pid b).give b = a := by
  refine Store.ext rfl rfl rfl ?_ ?_
  · simp [take, give]
  · simp [take, give, ← hb]

theorem take_comm (pid : ℕ) (hne : b ≠ c) :
    (a.take pid b).take pid c = (a.take pid c).take pid b := by
  refine Store.ext rfl rfl rfl ?_ ?_
  · simp only [take, update_of_ne hne, update_of_ne hne.symm]
    exact update_comm hne _ _ _
  · exact update_comm hne _ _ _

theorem unpin_take (pid : ℕ) (hb : 0 < a.refs b) :
    (a.take pid b).unpin b = (a.unpin b).take pid b := by
  refine Store.ext rfl rfl rfl ?_ rfl
  simp only [take, unpin, update_self, update_idem]
  congr 1
  omega

theorem unpin_take_of_ne (pid : ℕ) (hne : c ≠ b) :
    (a.take pid c).unpin b = (a.unpin b).take pid c := by
  refine Store.ext rfl rfl rfl ?_ rfl
  simp only [take, unpin, update_of_ne hne, update_of_ne hne.symm]
  exact update_comm hne _ _ _

end Store

section Header

/-- A header that fits its block is read back as it was written. -/
theorem decodeHead_encodeHead (b : Block) (l : List ℕ) (hn : l.length ≤ LOGSIZE)
    (hl : ∀ x ∈ l, x < 2 ^ 32) : decodeHead (encodeHead b l) = l := by
  have hn' : l.length ≤ 30 := hn
  have h0 : (encodeHead b l).getLE 4 0 = l.length := by
    rw [encodeHead, Bytes.getLE_putWords_of_disjoint _ l (by omega),
      Bytes.getLE_putLE_self b _ (by decide)]
    exact Nat.mod_eq_of_lt (by omega)
  have hroom : 4 + 4 * l.length ≤ BSIZE := by
    show 4 + 4 * l.length ≤ 1024
    omega
  rw [decodeHead, h0, if_pos (by omega), encodeHead]
  exact Bytes.getWords_putWords _ l hl hroom

theorem decodeHead_encodeHead_nil (b : Block) : decodeHead (encodeHead b []) = [] :=
  decodeHead_encodeHead b [] (by simp) (by simp)

theorem decodeHead_of_zero {b : Block} (h : b.getLE 4 0 = 0) : decodeHead b = [] := by
  unfold decodeHead
  rw [h]
  rfl

theorem getLE_encodeHead_nil (b : Block) : (encodeHead b []).getLE 4 0 = 0 :=
  Bytes.getLE_putLE_self b 0 (by decide)

end Header

variable {s : LogSys} {pid b L tail : ℕ}

@[simp] theorem wp_io {α : Type} (x : Prog Bio α) (Q : α → LogSys → Prop) (A : Stop → LogSys → Prop) :
    wp (io x) Q A s ↔
      wp x (fun a t => Q a { s with bio := t }) (fun w t => A w { s with bio := t }) s.bio :=
  wp_zoom _ _ _

/-- What a function that stops has done: nothing on the disk, and only in a cache that is in use. -/
structure Idle (s : LogSys) (w : Stop) (t : LogSys) : Prop where
  why : w = .sleep ∨ w = .panic "bget: no buffers"
  disk : t.bio.disk = s.bio.disk
  writes : t.bio.writes = s.bio.writes
  log : t.log = s.log
  busy : ¬ s.bio.abs.Quiet

theorem wp_borrow (h : s.bio.Inv) {K : Fin NBUF → Prog LogSys Unit} {Q : Unit → LogSys → Prop}
    (hK : ∀ i t, t.Inv → t.abs = s.bio.abs.take pid b → t.At i b → s.bio.abs.holder b = none →
      s.bio.Stable t → wp (K i) Q (Idle s) { s with bio := t }) :
    wp (io (bread pid ROOTDEV b) >>= K) Q (Idle s) s := by
  rw [wp_bind, wp_io]
  refine wp_mono (wp_bread h pid b) ?_ ?_
  · rintro i t ⟨h1, h2, h3, h4, h5⟩
    exact hK i t h1 h2 h3 h4 h5
  · rintro w t ⟨hd, hw, hwhy⟩
    refine ⟨hwhy.imp And.left And.left, hd, hw, rfl, fun hq => ?_⟩
    rcases hwhy with ⟨-, hh⟩ | ⟨-, hr⟩
    · exact hh (hq.holder b)
    · exact hr (room_of_refs h [] (by decide) fun c hc => by rw [hq.refs c] at hc; omega)

theorem wp_borrow_two (h : s.bio.Inv) (hne : b ≠ L) {K : Fin NBUF → Fin NBUF → Prog LogSys Unit}
    {Q : Unit → LogSys → Prop}
    (hK : ∀ i j t, t.Inv → t.abs = (s.bio.abs.take pid L).take pid b → t.At i L → t.At j b →
      s.bio.abs.holder L = none → s.bio.abs.holder b = none → s.bio.Stable t →
      wp (K i j) Q (Idle s) { s with bio := t }) :
    wp (io (bread pid ROOTDEV L) >>= fun i => io (bread pid ROOTDEV b) >>= K i) Q
      (Idle s) s := by
  refine wp_borrow h fun i t h1 h2 h3 h4 h5 => ?_
  rw [wp_bind, wp_io]
  have hrefs : t.abs.refs L = s.bio.abs.refs L + 1 := by rw [h2]; simp [Store.take]
  have hholder : t.abs.holder b = s.bio.abs.holder b := by
    rw [h2]; simp [Store.take, update_of_ne hne]
  have hdisk : t.disk = s.bio.disk := congrArg Store.disk h2
  have hwrites : t.writes = s.bio.writes := congrArg Store.writes h2
  refine wp_mono (wp_bread h1 pid b) ?_ ?_
  · rintro j u ⟨g1, g2, g3, g4, g5⟩
    have hi : u.At i L := g5 i L h3 (by rw [← refs_at h1 h3, hrefs]; omega)
    refine hK i j u g1 (by rw [g2, h2]) hi g3 h4 (by rwa [← hholder]) ?_
    intro k c hk hpos
    refine g5 k c (h5 k c hk hpos) ?_
    rw [← refs_at h1 (h5 k c hk hpos), h2]
    rw [← refs_at h hk] at hpos
    by_cases hcL : c = L
    · subst hcL; simp [Store.take]
    · simpa [Store.take, update_of_ne hcL] using hpos
  · rintro w u ⟨hd, hw, hwhy⟩
    refine ⟨hwhy.imp And.left And.left, hd.trans hdisk, hw.trans hwrites, rfl, fun hq => ?_⟩
    rcases hwhy with ⟨-, hh⟩ | ⟨-, hr⟩
    · rw [hholder] at hh
      exact hh (hq.holder b)
    · refine hr (room_of_refs h1 [L] (show 1 < 30 by omega) fun c hc => ?_)
      by_contra hcL
      rw [h2] at hc
      simp only [List.mem_singleton] at hcL
      simp [Store.take, update_of_ne hcL, hq.refs c] at hc

/-- Giving back two borrowed blocks, the one borrowed last first. -/
theorem wp_return_two {t : Bio} {x : Store} {i j : Fin NBUF} {c : ℕ} (ht : t.Inv)
    (habs : t.abs = (x.take pid c).take pid b) (hj : t.At j b) (hi : t.At i c) (hne : b ≠ c)
    (hb : x.holder b = none) (hc : x.holder c = none)
    (hcleanb : x.refs b = 0 → x.view b = x.disk b) (hcleanc : x.refs c = 0 → x.view c = x.disk c)
    {A : Stop → LogSys → Prop} :
    wp (io (brelse pid j) >>= fun _ => io (brelse pid i))
      (fun _ u => u.bio.Inv ∧ u.log = s.log ∧ (∀ k d, u.bio.At k d ↔ t.At k d) ∧ u.bio.abs = x)
      A { s with bio := t } := by
  have hdisk : t.disk = x.disk := congrArg Store.disk habs
  rw [wp_bind, wp_io]
  refine wp_post (wp_brelse ht hj (by rw [habs]; simp [Store.take]) ?_) ?_
  · intro hone
    rw [hdisk, habs]
    refine hcleanb ?_
    rw [habs] at hone
    simpa [Store.take, hne] using hone
  rintro - u ⟨h1, h2, hat1⟩
  have h2' : u.abs = x.take pid c := by
    rw [h2, habs, Store.give_take _ pid (by simpa [Store.take, hne] using hb)]
  have hdisku : u.disk = x.disk := congrArg Store.disk h2'
  rw [wp_io]
  refine wp_post (wp_brelse h1 ((hat1 i c).2 hi) (by rw [h2']; simp [Store.take]) ?_) ?_
  · intro hone
    rw [hdisku, h2']
    refine hcleanc ?_
    rw [h2'] at hone
    simpa [Store.take] using hone
  rintro - w ⟨h3, h4, hat2⟩
  exact ⟨h3, rfl, fun k d => (hat2 k d).trans (hat1 k d),
    by rw [h4, h2', Store.give_take _ pid hc]⟩

/-- A block that is written is clean; another one is as clean as it was. -/
theorem write_clean (h : s.bio.Inv) (c : ℕ) (v : Block) (hc : c = b ∨ s.bio.abs.refs c = 0) :
    (s.bio.abs.write b v).view c = (s.bio.abs.write b v).disk c := by
  by_cases hcb : c = b
  · subst hcb; simp
  · have := view_eq_disk h (hc.resolve_left hcb)
    simpa [update_of_ne hcb] using this

/-- **A round of `write_log`** copies a block from the cache into the log. -/
theorem wp_writeOne (h : s.bio.Inv) (hdev : s.log.dev = ROOTDEV) (hb : s.log.lh.getD tail 0 = b)
    (hL : s.log.start + tail + 1 = L) (hne : b ≠ L) :
    wp (writeOne pid tail)
      (fun _ t => t.bio.Inv ∧ t.log = s.log ∧ s.bio.Stable t.bio ∧
        t.bio.abs = s.bio.abs.write L (s.bio.abs.view b))
      (Idle s) s := by
  unfold writeOne
  rw [wp_bind, wp_get, hdev, hb, hL]
  refine wp_borrow_two h hne fun i j t h1 h2 hi hj hLn hbn hst => ?_
  have hdata : (t.buf j).data = s.bio.abs.view b := by rw [← view_at h1 hj, h2]; rfl
  rw [wp_bind, wp_get, wp_bind, wp_io, hdata]
  refine wp_post (wp_setData h1 hi (by rw [h2]; simp [Store.take, Ne.symm hne]) _) ?_
  rintro - t2 ⟨h3, h4, hat2⟩
  rw [wp_bind, wp_io]
  refine wp_post (wp_bwrite h3 ((hat2 i L).2 hi)
    (by rw [h4, h2]; simp [Store.put, Store.take, Ne.symm hne])) ?_
  rintro - t3 ⟨h5, h6, hat3⟩
  have h6' : t3.abs = ((s.bio.abs.write L (s.bio.abs.view b)).take pid L).take pid b := by
    rw [h6, h4, h2]; rfl
  have hat : ∀ k c, t3.At k c ↔ t.At k c := fun k c => (hat3 k c).trans (hat2 k c)
  refine wp_post (wp_return_two h5 h6' ((hat j b).2 hj) ((hat i L).2 hi) hne hbn hLn
    (fun h0 => write_clean h b _ (Or.inr h0)) (fun _ => write_clean h L _ (Or.inl rfl))) ?_
  rintro - u ⟨g1, g2, g3, g4⟩
  exact ⟨g1, g2, fun k c hk hpos => (g3 k c).2 ((hat k c).2 (hst k c hk hpos)), g4⟩

/-- **A round of `install_trans`** copies a block from the log to its home, and drops the pin
that `log_write` put on it unless the machine is recovering. -/
theorem wp_installOne (h : s.bio.Inv) (hdev : s.log.dev = ROOTDEV) (recovering : Bool)
    (hb : s.log.lh.getD tail 0 = b) (hL : s.log.start + tail + 1 = L) (hne : b ≠ L)
    (hpin : recovering = false → 0 < s.bio.abs.refs b) :
    wp (installOne pid recovering tail)
      (fun _ t => t.bio.Inv ∧ t.log = s.log ∧ s.bio.Stable t.bio ∧
        t.bio.abs = if recovering then s.bio.abs.write b (s.bio.abs.view L)
          else (s.bio.abs.write b (s.bio.abs.view L)).unpin b)
      (Idle s) s := by
  unfold installOne
  rw [wp_bind, wp_get, hdev, hb, hL]
  refine wp_borrow_two h hne fun i j t h1 h2 hi hj hLn hbn hst => ?_
  have hdata : (t.buf i).data = s.bio.abs.view L := by rw [← view_at h1 hi, h2]; rfl
  rw [wp_bind, wp_get, wp_bind, wp_io, hdata]
  refine wp_post (wp_setData h1 hj (by rw [h2]; simp [Store.take]) _) ?_
  rintro - t2 ⟨h3, h4, hat2⟩
  rw [wp_bind, wp_io]
  refine wp_post (wp_bwrite h3 ((hat2 j b).2 hj) (by rw [h4, h2]; simp [Store.put, Store.take])) ?_
  rintro - t3 ⟨h5, h6, hat3⟩
  have hat : ∀ k c, t3.At k c ↔ t.At k c := fun k c => (hat3 k c).trans (hat2 k c)
  have h6' : t3.abs = ((s.bio.abs.write b (s.bio.abs.view L)).take pid b).take pid L := by
    rw [h6, h4, h2, Store.take_comm _ pid hne]; rfl
  cases recovering with
  | true =>
    simp only [Bool.not_true, Bool.false_eq_true, if_false, if_true]
    refine wp_post (wp_return_two h5 h6' ((hat i L).2 hi) ((hat j b).2 hj) hne.symm hLn hbn
      (fun h0 => write_clean h L _ (Or.inr h0)) (fun _ => write_clean h b _ (Or.inl rfl))) ?_
    rintro - u ⟨g1, g2, g3, g4⟩
    exact ⟨g1, g2, fun k c hk hpos => (g3 k c).2 ((hat k c).2 (hst k c hk hpos)), g4⟩
  | false =>
    have hpos := hpin rfl
    have hrefs3 : t3.abs.refs b = s.bio.abs.refs b + 1 := by
      rw [h6']; simp [Store.take, hne]
    simp only [Bool.not_false, Bool.false_eq_true, if_false, if_true]
    rw [wp_bind, wp_io]
    refine wp_post (wp_bunpin h5 ((hat j b).2 hj) (fun _ => by omega) (fun hle => by omega)) ?_
    rintro - t4 ⟨h7, h8, hat4⟩
    have h8' : t4.abs =
        (((s.bio.abs.write b (s.bio.abs.view L)).unpin b).take pid b).take pid L := by
      rw [h8, h6', Store.unpin_take_of_ne _ pid hne.symm, Store.unpin_take (s.bio.abs.write b _) pid hpos]
    refine wp_post (wp_return_two h7 h8' ((hat4 i L).2 ((hat i L).2 hi))
      ((hat4 j b).2 ((hat j b).2 hj)) hne.symm hLn hbn ?_ (fun _ => write_clean h b _ (Or.inl rfl)))
      ?_
    · intro h0
      refine write_clean h L _ (Or.inr ?_)
      simpa [Store.unpin, hne.symm] using h0
    · rintro - u ⟨g1, g2, g3, g4⟩
      exact ⟨g1, g2, fun k c hk hp =>
        (g3 k c).2 ((hat4 k c).2 ((hat k c).2 (hst k c hk hp))), g4⟩

/-- **`write_head`** overwrites the header block with the in-memory header. -/
theorem wp_writeHead (h : s.bio.Inv) (hdev : s.log.dev = ROOTDEV) :
    wp (writeHead pid)
      (fun _ t => t.bio.Inv ∧ t.log = s.log ∧ s.bio.Stable t.bio ∧
        t.bio.abs = s.bio.abs.write s.log.start
          (encodeHead (s.bio.abs.view s.log.start) s.log.lh))
      (Idle s) s := by
  unfold writeHead
  rw [wp_bind, wp_get, hdev]
  refine wp_borrow h fun i t h1 h2 hi hn hst => ?_
  have hdata : (t.buf i).data = s.bio.abs.view s.log.start := by rw [← view_at h1 hi, h2]; rfl
  rw [wp_bind, wp_get, wp_bind, wp_io, hdata]
  refine wp_post (wp_setData h1 hi (by rw [h2]; simp [Store.take]) _) ?_
  rintro - t2 ⟨h3, h4, hat2⟩
  rw [wp_bind, wp_io]
  refine wp_post (wp_bwrite h3 ((hat2 i _).2 hi) (by rw [h4, h2]; simp [Store.put, Store.take])) ?_
  rintro - t3 ⟨h5, h6, hat3⟩
  have h6' : t3.abs = (s.bio.abs.write s.log.start
      (encodeHead (s.bio.abs.view s.log.start) s.log.lh)).take pid s.log.start := by
    rw [h6, h4, h2]; rfl
  have hd3 : t3.disk = t3.abs.disk := rfl
  rw [wp_io]
  refine wp_post (wp_brelse h5 ((hat3 i _).2 ((hat2 i _).2 hi))
    (by rw [h6']; simp [Store.take]) (fun _ => by rw [hd3, h6']; simp [Store.take])) ?_
  rintro - t4 ⟨h7, h8, hat4⟩
  refine ⟨h7, rfl, fun k c hk hpos => ?_, ?_⟩
  · exact (hat4 k c).2 ((hat3 k c).2 ((hat2 k c).2 (hst k c hk hpos)))
  · rw [h8, h6', Store.give_take (s.bio.abs.write _ _) pid hn]

/-- **`read_head`** fetches the header, and leaves the blocks alone. -/
theorem wp_readHead (h : s.bio.Inv) (hdev : s.log.dev = ROOTDEV) :
    wp (readHead pid)
      (fun _ t => t.bio.Inv ∧ t.log = { s.log with lh := decodeHead (s.bio.abs.view s.log.start) } ∧
        t.bio.abs = s.bio.abs)
      (Idle s) s := by
  unfold readHead
  rw [wp_bind, wp_get, hdev]
  refine wp_borrow h fun i t h1 h2 hi hn hst => ?_
  have hdata : (t.buf i).data = s.bio.abs.view s.log.start := by rw [← view_at h1 hi, h2]; rfl
  have hd : t.disk = s.bio.disk := congrArg Store.disk h2
  rw [wp_bind, wp_modify, hdata, wp_io]
  refine wp_post (wp_brelse h1 hi (by rw [h2]; simp [Store.take]) ?_) ?_
  · intro hone
    rw [h2, hd]
    refine view_eq_disk h ?_
    rw [h2] at hone
    simpa [Store.take] using hone
  · rintro - t2 ⟨h3, h4, -⟩
    exact ⟨h3, rfl, by rw [h4, h2, Store.give_take _ pid hn]⟩

/-- **`log_write`** lists and pins a block that is not listed yet; it fails when the header or the
log area is full, whether the block is listed or not. -/
theorem wp_logWrite {i : Fin NBUF} (h : s.bio.Inv) (hi : s.bio.At i b) :
    wp (logWrite i)
      (fun _ t => (s.log.lh.length < LOGSIZE ∧ (s.log.lh.length : ℤ) < s.log.size - 1) ∧
        t.bio.Inv ∧ t.bio.At i b ∧
        t.log = { s.log with lh := if b ∈ s.log.lh then s.log.lh else s.log.lh ++ [b] } ∧
        t.bio.abs = if b ∈ s.log.lh then s.bio.abs else s.bio.abs.pin b)
      (fun w t => t = s ∧
        ((w = .panic "too big a transaction" ∧
            (s.log.lh.length ≥ LOGSIZE ∨ (s.log.lh.length : ℤ) ≥ s.log.size - 1)) ∨
          (w = .panic "log_write outside of trans" ∧ s.log.outstanding < 1))) s := by
  unfold logWrite
  rw [wp_bind, wp_get]
  by_cases hfull : s.log.lh.length ≥ LOGSIZE ∨ (s.log.lh.length : ℤ) ≥ s.log.size - 1
  · rw [if_pos hfull]
    exact ⟨rfl, Or.inl ⟨rfl, hfull⟩⟩
  rw [if_neg hfull]
  have hroom : s.log.lh.length < LOGSIZE ∧ (s.log.lh.length : ℤ) < s.log.size - 1 := by
    rw [not_or] at hfull
    exact ⟨Nat.lt_of_not_le hfull.1, lt_of_not_ge hfull.2⟩
  by_cases hout : s.log.outstanding < 1
  · rw [if_pos hout]
    exact ⟨rfl, Or.inr ⟨rfl, hout⟩⟩
  rw [if_neg hout, hi.2]
  by_cases hm : b ∈ s.log.lh
  · rw [if_neg (not_not.2 hm), wp_pure]
    exact ⟨hroom, h, hi, by rw [if_pos hm], by rw [if_pos hm]⟩
  · rw [if_pos hm, wp_bind, wp_io]
    refine wp_post (wp_bpin h hi) ?_
    rintro - t ⟨h1, h2, h3⟩
    rw [wp_modify]
    exact ⟨hroom, h1, (h3 i b).2 hi, by rw [if_neg hm], by rwa [if_neg hm]⟩

end Xv6
