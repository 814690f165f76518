import Xv6.Fs.Room

/-!
# What `writei` logs

An operation may log `MAXOPBLOCKS` different blocks.  `writei` logs the blocks of the file it writes to, a
bitmap block for each block it allocates, the indirect block and the block of the inode.  It allocates for
empty slots of the range only: the slots before the offset are filled, because a file has no holes, so
that a first block that is written in part is not allocated.

* `Fs.LogBound`: the blocks logged since a state, counted against the empty slots that were filled;
* `Fs.Logs.bound`: `bmap` keeps the count;
* `Fs.card_missing_le`: the empty slots of a range;
* `Fs.wp_writei_logged`: the number of blocks that `writei` logs;
* `Fs.inLog_logWrite`, `Fs.inLog_bind`: the panic of `log_write` in a program is that of its calls.
-/

namespace Xv6

open Stateful List

theorem Slot.start_inj {k k' : Slot} (hk : k ≠ .indirect) (hk' : k' ≠ .indirect)
    (h : k.start = k'.start) : k = k' := by
  have hB : 0 < BSIZE := by decide
  cases k with
  | indirect => exact absurd rfl hk
  | direct i =>
    cases k' with
    | indirect => exact absurd rfl hk'
    | direct j =>
      have heq : i.val = j.val := Nat.eq_of_mul_eq_mul_right hB h
      rw [Fin.ext heq]
    | entry j =>
      have heq : i.val = NDIRECT + j.val := Nat.eq_of_mul_eq_mul_right hB h
      have := i.isLt
      omega
  | entry i =>
    cases k' with
    | indirect => exact absurd rfl hk'
    | direct j =>
      have heq : NDIRECT + i.val = j.val := Nat.eq_of_mul_eq_mul_right hB h
      have := j.isLt
      omega
    | entry j =>
      have heq : NDIRECT + i.val = NDIRECT + j.val := Nat.eq_of_mul_eq_mul_right hB h
      have heq' : i.val = j.val := by omega
      rw [Fin.ext heq']

/-- A slot that holds a block of the file starts with that block. -/
theorem Slot.exists_start {k : Slot} (hk : k ≠ .indirect) :
    ∃ bn, k.start = bn * BSIZE ∧ Dinode.blockSlot bn = some k := by
  cases k with
  | indirect => exact absurd rfl hk
  | direct i => exact ⟨i, rfl, dif_pos i.isLt⟩
  | entry j =>
    refine ⟨NDIRECT + j, rfl, ?_⟩
    have hj : NDIRECT + j.val - NDIRECT < NINDIRECT := by
      rw [Nat.add_sub_cancel_left]
      exact j.isLt
    unfold Dinode.blockSlot
    rw [dif_neg (by omega), dif_pos hj]
    simp

namespace Fs

variable {s t u : Fs} {e : Fin NINODE} {k : Slot} {x hi : ℕ} {D : Finset ℕ}

/-- The indirect block, if there is one. -/
def indSet (s : Fs) (e : Fin NINODE) : Finset ℕ := if (s.inode e).ind = 0 then ∅ else {(s.inode e).ind}

theorem card_indSet_le (s : Fs) (e : Fin NINODE) : (s.indSet e).card ≤ 1 := by
  unfold indSet
  split_ifs
  · exact Nat.zero_le _
  · exact (Finset.card_singleton _).le

/-- What was logged since `s`: blocks of the file in `D`, the indirect block, and no more bitmap blocks
than slots below `hi` were filled. -/
def LogBound (e : Fin NINODE) (hi : ℕ) (D : Finset ℕ) (s t : Fs) : Prop :=
  ∃ L, t.logged = s.logged ++ L ∧ ∃ B : Finset ℕ, (∀ y ∈ L, y ∈ D ∨ y ∈ B ∨ y ∈ t.indSet e) ∧
    B.card + (t.missing e hi).card ≤ (s.missing e hi).card

theorem LogBound.refl (e : Fin NINODE) (hi : ℕ) (s : Fs) : LogBound e hi ∅ s s :=
  ⟨[], (append_nil _).symm, ∅, fun _ hy => absurd hy not_mem_nil, by simp⟩

theorem LogBound.mono {D' : Finset ℕ} (h : LogBound e hi D s t) (hD : D ⊆ D') : LogBound e hi D' s t := by
  obtain ⟨L, hL, B, hin, hcard⟩ := h
  exact ⟨L, hL, B, fun y hy => (hin y hy).imp_left fun h => hD h, hcard⟩

theorem LogBound.trans (h : LogBound e hi D s t) (hind : t.indSet e ⊆ u.indSet e)
    (h' : LogBound e hi D t u) : LogBound e hi D s u := by
  obtain ⟨L, hL, B, hin, hcard⟩ := h
  obtain ⟨L', hL', B', hin', hcard'⟩ := h'
  refine ⟨L ++ L', by rw [hL', hL, append_assoc], B ∪ B', fun y hy => ?_, ?_⟩
  · rcases mem_append.1 hy with hy | hy
    · rcases hin y hy with hD | hB | hI
      · exact Or.inl hD
      · exact Or.inr (Or.inl (Finset.mem_union_left _ hB))
      · exact Or.inr (Or.inr (hind hI))
    · rcases hin' y hy with hD | hB | hI
      · exact Or.inl hD
      · exact Or.inr (Or.inl (Finset.mem_union_right _ hB))
      · exact Or.inr (Or.inr hI)
  · have := Finset.card_union_le B B'
    omega

section

variable (hs : FsInv s (some e))
include hs

theorem Grow.indSet (he : s.Live e) (ht : FsInv t (some e)) (h : Grow e s t) :
    s.indSet e ⊆ t.indSet e := by
  have h1 : s.slots (some e) ((s.inode e).inum, .indirect) = (s.inode e).ind :=
    FsInv.slots_self (hs.copy e he).1 .indirect
  have h2 : t.slots (some e) ((t.inode e).inum, .indirect) = (t.inode e).ind :=
    FsInv.slots_self (ht.copy e ((h.live e).2 he)).1 .indirect
  unfold Fs.indSet
  by_cases h0 : (s.inode e).ind = 0
  · rw [if_pos h0]
    exact Finset.empty_subset _
  · have hkeep := h.keep _ (by rwa [h1])
    rw [h1, ← h.inum, h2] at hkeep
    rw [hkeep]

/-- A block that was found is logged with its bitmap block, or was there. -/
theorem Found.bound (h : Found e k s x t) {L : List ℕ}
    (hL : t.logged = s.logged ∨ t.logged = s.logged ++ [s.sb.bblock x, x] ++ L) (hin : k.start < hi)
    (hx : x ∈ D ∨ x ∈ t.indSet e) (hrest : ∀ y ∈ L, y ∈ t.indSet e) : LogBound e hi D s t := by
  have hsame : s = t → LogBound e hi D s t := by
    rintro rfl
    exact (LogBound.refl e hi s).mono (Finset.empty_subset _)
  cases h with
  | there hk hx => exact hsame rfl
  | full hk hfull => exact hsame rfl
  | fresh hk h1 h2 hu ha =>
    have hx0 : x ≠ 0 := by
      have := hs.sb.dataStart_pos
      omega
    have hcard : 1 + (t.missing e hi).card ≤ (s.missing e hi).card := by
      have hmem : k ∈ s.missing e hi := mem_missing.2 ⟨hin, hk⟩
      have hpos := Finset.card_pos.2 ⟨k, hmem⟩
      rw [ha.missing hx0, Finset.card_erase_of_mem hmem]
      omega
    rcases hL with hL | hL
    · refine ⟨[], by rw [hL, append_nil], ∅, fun _ hy => absurd hy not_mem_nil, ?_⟩
      rw [Finset.card_empty]
      omega
    · refine ⟨[s.sb.bblock x, x] ++ L, by rw [hL, append_assoc], {s.sb.bblock x}, fun y hy => ?_, ?_⟩
      · rcases mem_append.1 hy with hy | hy
        · rcases mem_cons.1 hy with rfl | hy
          · exact Or.inr (Or.inl (Finset.mem_singleton_self _))
          · rw [mem_singleton.1 hy]
            exact hx.imp_right Or.inr
        · exact Or.inr (Or.inr (hrest y hy))
      · rwa [Finset.card_singleton]

theorem Found.bound_zero (h : Found e k s 0 t) : LogBound e hi D s t := by
  cases h with
  | there hk hx => exact absurd rfl hx
  | full hk hfull => exact (LogBound.refl e hi s).mono (Finset.empty_subset _)
  | fresh hk h1 h2 hu ha =>
    have := hs.sb.dataStart_pos
    omega

theorem Found.mem_indSet (he : s.Live e) (h : Found e .indirect s x t)
    (hx : x ≠ 0) : x ∈ t.indSet e := by
  obtain ⟨ht, hg, hfill, -⟩ := h.mapped hs
  have hind : t.slots (some e) ((t.inode e).inum, .indirect) = (t.inode e).ind :=
    FsInv.slots_self (ht.copy e ((hg.live e).2 he)).1 .indirect
  have heq := hfill hx
  rw [← hg.inum, hind] at heq
  unfold Fs.indSet
  rw [heq, if_neg hx]
  exact Finset.mem_singleton_self x

/-- **`bmap`** logs its block, the indirect block, and a bitmap block for each slot it fills. -/
theorem Logs.bound (he : s.Live e) (h : Logs e k s x t) (hin : k.start < hi)
    (hx : x ≠ 0 → x ∈ D) : LogBound e hi D s t := by
  cases h with
  | direct h hl =>
    by_cases h0 : x = 0
    · subst h0
      exact h.bound_zero hs
    · refine h.bound hs (L := []) (by rwa [append_nil]) hin (Or.inl (hx h0)) ?_
      exact fun y hy => absurd hy not_mem_nil
  | noIndirect h => exact h.bound_zero hs
  | @entry _ _ m _ ind _ h hl hne h' hl' =>
    have hm := h.mapped hs
    have hlive : m.Live e := (hm.2.1.live e).2 he
    have hmem := h.mem_indSet hs he hne
    have hstart := (Slot.start_indirect_le _).trans_lt hin
    have hfirst : LogBound e hi D s m := by
      refine h.bound hs (L := []) (by rwa [append_nil]) hstart (Or.inr hmem) ?_
      exact fun y hy => absurd hy not_mem_nil
    have hsub : m.indSet e ⊆ t.indSet e :=
      (h'.mapped hm.1).2.1.indSet hm.1 hlive (h'.mapped hm.1).1
    refine hfirst.trans hsub ?_
    by_cases h0 : x = 0
    · subst h0
      exact h'.bound_zero hm.1
    · refine h'.bound hm.1 (L := [ind]) (by simpa using hl') hin (Or.inl (hx h0)) ?_
      intro y hy
      rw [mem_singleton.1 hy]
      exact hsub hmem

end

/-- Blocks of the file are written, and some of them logged. -/
theorem LogBound.wrote {lo hi' : ℕ} {L' : List ℕ} (h : LogBound e hi D s t) (hw : Wrote e lo hi' t u)
    (hinode : u.inode = t.inode) (hL' : u.logged = t.logged ++ L') (hD : ∀ y ∈ L', y ∈ D) :
    LogBound e hi D s u := by
  obtain ⟨L, hL, B, hin, hcard⟩ := h
  have hsub : u.missing e hi ⊆ t.missing e hi := by
    intro k hk
    obtain ⟨h1, h2⟩ := mem_missing.1 hk
    refine mem_missing.2 ⟨h1, ?_⟩
    by_contra hne
    rw [hw.inum, hw.keep _ hne] at h2
    exact hne h2
  have hind : u.indSet e = t.indSet e := by
    unfold indSet
    rw [hinode]
  refine ⟨L ++ L', by rw [hL', hL, append_assoc], B, fun y hy => ?_, ?_⟩
  · rw [hind]
    rcases mem_append.1 hy with hy | hy
    · exact hin y hy
    · exact Or.inl (hD y hy)
  · have := Finset.card_le_card hsub
    omega

/-! ### The loop -/

variable {src : Source} {f : ℕ → Byte} {n tot off : ℕ}

/-- A round of the loop reaches the end of its block or the end of the request. -/
theorem Round.next {m : ℕ} (h : Round e n tot off m k x s t) :
    (tot + m < n → (off + m) / BSIZE = off / BSIZE + 1) ∧
      off / BSIZE + 1 ≤ (off + m + (BSIZE - 1)) / BSIZE := by
  have hB : BSIZE = 1024 := rfl
  have hm := h.m_eq
  have hlt := h.lt
  rw [hB] at hm ⊢
  omega

/-- **What the loop of `writei` logs**: at most as many blocks of the file as the range touches. -/
theorem wp_writeiLoop_logged (hs : FsInv s (some e)) (he : s.Live e) {fuel : ℕ} (hfuel : n ≤ fuel)
    (hmax : off + n ≤ MAXFILE * BSIZE) :
    wp (writeiLoop src e n fuel 0 off)
      (fun _ t => ∃ D : Finset ℕ, D.card + off / BSIZE ≤ (off + n + (BSIZE - 1)) / BSIZE ∧
        LogBound e (off + n) D s t) (fun _ _ => False) s := by
  -- the blocks of the file logged so far are those before the block of the current offset, and a block
  -- that is not at the end of the request is passed as a whole
  have hstart : ∀ {tot off' m k x s' t}, Round e n tot off' m k x s' t → off' = off + tot →
      k.start < off + n := by
    intro tot off' m k x s' t h hoff
    have hblock := Nat.div_mul_le_self off' BSIZE
    have hlt := h.lt
    rw [Slot.start_of_blockSlot h.slot]
    omega
  have hend : ∀ {D : Finset ℕ} {a : ℕ}, a ≤ off + n → D.card + off / BSIZE ≤ (a + (BSIZE - 1)) / BSIZE →
      D.card + off / BSIZE ≤ (off + n + (BSIZE - 1)) / BSIZE :=
    fun ha h => h.trans (Nat.div_le_div_right (by omega))
  -- a round logs its block
  have hround : ∀ {tot off' m k x s' t} {D : Finset ℕ}, Round e n tot off' m k x s' t → off' = off + tot →
      LogBound e (off + n) D s s' → LogBound e (off + n) (insert x D) s t := by
    intro tot off' m k x s' t D h hoff hb
    have hsub := h.mapped.2.1.indSet h.inv h.live h.mapped.1
    refine (hb.mono (Finset.subset_insert x D)).trans hsub ?_
    exact h.logs.bound h.inv h.live (hstart h hoff) fun _ => Finset.mem_insert_self x D
  refine wp_writeiLoop_rule
    (I := fun tot off' t => off' = off + tot ∧ tot ≤ n ∧ ∃ D : Finset ℕ, LogBound e (off + n) D s t ∧
      (tot < n → D.card + off / BSIZE ≤ off' / BSIZE) ∧
      D.card + off / BSIZE ≤ (off' + (BSIZE - 1)) / BSIZE)
    (Q := fun _ t => ∃ D : Finset ℕ, D.card + off / BSIZE ≤ (off + n + (BSIZE - 1)) / BSIZE ∧
      LogBound e (off + n) D s t)
    ?_ ?_ ?_ ?_ hs he (Nat.zero_le _) (by omega) (by omega) ?_
  · rintro off' t ⟨hoff, -, D, hb, -, hle⟩
    exact ⟨D, hend (by omega) hle, hb⟩
  · rintro tot off' m k s' t h ⟨hoff, hle, D, hb, hlt, -⟩
    have hsub := h.mapped.2.1.indSet h.inv h.live h.mapped.1
    refine ⟨D, hend (a := off') (by omega) ((hlt h.lt).trans (Nat.div_le_div_right (by omega))), ?_⟩
    refine hb.trans hsub ?_
    exact h.logs.bound h.inv h.live (hstart h hoff) fun h0 => absurd rfl h0
  · rintro tot off' m k x s' t h hx - ⟨hoff, hle, D, hb, hlt, -⟩
    have hcard := Finset.card_insert_le x D
    have hnext := h.next.2
    have hD := hlt h.lt
    refine ⟨insert x D, hend (a := off' + m) (by have := h.le_n; omega) (by omega), ?_⟩
    exact (hround h hoff hb).wrote (h.left src hx).2 rfl (append_nil _).symm
      fun y hy => absurd hy not_mem_nil
  · rintro tot off' m k x s' t h hx - ⟨hoff, hle, D, hb, hlt, -⟩
    have hcard := Finset.card_insert_le x D
    have hnext := h.next
    have hD := hlt h.lt
    refine ⟨by omega, h.le_n, insert x D, ?_, fun hmore => ?_, by omega⟩
    · refine (hround h hoff hb).wrote (h.logged src hx).2 rfl rfl fun y hy => ?_
      rw [mem_singleton.1 hy]
      exact Finset.mem_insert_self x D
    · have := hnext.1 hmore
      omega
  · refine ⟨rfl, Nat.zero_le _, ∅, LogBound.refl e _ s, fun _ => ?_, ?_⟩
    · simp
    · rw [Finset.card_empty, Nat.zero_add]
      exact Nat.div_le_div_right (by omega)

/-! ### The empty slots of a range -/

/-- The slots before the offset are filled, so that the range has at most as many empty slots as blocks
that start in it, and the one of the indirect block. -/
theorem card_missing_le (n : ℕ) (hs : FsInv s (some e)) (he : s.Live e)
    (hoff : off ≤ (s.inode e).size.toNat) :
    (s.missing e (off + n)).card ≤
      (off + n + (BSIZE - 1)) / BSIZE - (off + (BSIZE - 1)) / BSIZE + 1 := by
  have hB : BSIZE = 1024 := rfl
  -- the blocks of the file among them
  have hdata : ((s.missing e (off + n)).erase .indirect).card ≤
      (Finset.Ico ((off + (BSIZE - 1)) / BSIZE) ((off + n + (BSIZE - 1)) / BSIZE)).card := by
    refine Finset.card_le_card_of_injOn (fun k => k.start / BSIZE) ?_ ?_
    · intro k hk
      obtain ⟨hne, hmem⟩ := Finset.mem_erase.1 hk
      obtain ⟨hlt, h0⟩ := mem_missing.1 hmem
      obtain ⟨bn, hbn, hslot⟩ := Slot.exists_start hne
      have hfar : ¬ bn * BSIZE < (s.inode e).size.toNat := fun h => hs.slot_ne_zero he hslot h h0
      have hdiv : bn * BSIZE / BSIZE = bn := Nat.mul_div_cancel bn (by decide)
      refine Finset.mem_coe.2 (Finset.mem_Ico.2 ?_)
      dsimp only
      rw [hbn] at hlt ⊢
      rw [hdiv]
      rw [hB] at hlt hfar ⊢
      omega
    · intro k hk k' hk' heq
      have hne := (Finset.mem_erase.1 hk).1
      have hne' := (Finset.mem_erase.1 hk').1
      obtain ⟨bn, hbn, -⟩ := Slot.exists_start hne
      obtain ⟨bn', hbn', -⟩ := Slot.exists_start hne'
      refine Slot.start_inj hne hne' ?_
      have heq' : k.start / BSIZE = k'.start / BSIZE := heq
      rw [hbn, hbn', Nat.mul_div_cancel bn (by decide), Nat.mul_div_cancel bn' (by decide)] at heq'
      rw [hbn, hbn', heq']
  rw [Nat.card_Ico] at hdata
  have := Finset.pred_card_le_card_erase (s := s.missing e (off + n)) (a := Slot.indirect)
  omega

/-- **What `writei` logs**, for a range that touches `b` blocks of which `a` start in it: `b` blocks of the
file, bitmap blocks for the `a` blocks and the indirect block, the indirect block and the inode. -/
theorem wp_writei_logged (hs : FsInv s none) (he : s.Live e) (off n : BitVec 32) :
    wp (writei src e off n)
      (fun _ t => ∃ L, t.logged = s.logged ++ L ∧ L.toFinset.card ≤
        ((off.toNat + n.toNat + (BSIZE - 1)) / BSIZE - off.toNat / BSIZE) +
        ((off.toNat + n.toNat + (BSIZE - 1)) / BSIZE - (off.toNat + (BSIZE - 1)) / BSIZE) + 3)
      (fun _ _ => False) s := by
  have hloop : ¬ s.BadRange e off n → wp (writeiLoop src e n.toNat n.toNat 0 off.toNat)
      (fun _ t => ∃ D : Finset ℕ, D.card + off.toNat / BSIZE ≤
        (off.toNat + n.toNat + (BSIZE - 1)) / BSIZE ∧ LogBound e (off.toNat + n.toNat) D s t)
      (fun _ _ => True) s := by
    intro hgood
    obtain ⟨-, hmax⟩ := BadRange.of_not hgood
    exact wp_mono (wp_writeiLoop_logged (hs.lock he) he le_rfl hmax) (fun _ _ h => h)
      (fun _ _ _ => trivial)
  refine wp_post (wp_writei_loop (f := fun _ => 0) hs he off n
    (P := fun _ t => ∃ D : Finset ℕ, D.card + off.toNat / BSIZE ≤
      (off.toNat + n.toNat + (BSIZE - 1)) / BSIZE ∧ LogBound e (off.toNat + n.toNat) D s t) hloop) ?_
  rintro r t ⟨-, ⟨-, -, rfl⟩ | ⟨hgood, tot, t₀, ⟨D, hD, L, hL, B, hin, hcard⟩, -, -, rfl, -⟩⟩
  · exact ⟨[], (append_nil _).symm, by simp⟩
  obtain ⟨hoff, -⟩ := BadRange.of_not hgood
  have hmiss := card_missing_le n.toNat (hs.lock he) he hoff
  have hind := card_indSet_le t₀ e
  -- the block of the inode comes last
  set z := t₀.sb.iblock
    ((t₀.setSize e (max (s.inode e).size.toNat (off.toNat + tot))).inode e).inum with hz
  have hsub : (L ++ [z]).toFinset ⊆ insert z (D ∪ (B ∪ t₀.indSet e)) := by
    intro y hy
    rcases mem_append.1 (mem_toFinset.1 hy) with hy | hy
    · refine Finset.mem_insert_of_mem ?_
      rcases hin y hy with h | h | h
      · exact Finset.mem_union_left _ h
      · exact Finset.mem_union_right _ (Finset.mem_union_left _ h)
      · exact Finset.mem_union_right _ (Finset.mem_union_right _ h)
    · rw [mem_singleton.1 hy]
      exact Finset.mem_insert_self _ _
  refine ⟨L ++ [z], by rw [← append_assoc, ← hL]; rfl, (Finset.card_le_card hsub).trans ?_⟩
  have h1 := Finset.card_insert_le z (D ∪ (B ∪ t₀.indSet e))
  have h2 := Finset.card_union_le D (B ∪ t₀.indSet e)
  have h3 := Finset.card_union_le B (t₀.indSet e)
  omega

/-! ### The panic of `log_write` -/

theorem overflows_append {L : List ℕ} (h : t.logged = s.logged ++ L) :
    s.Overflows t ↔ ∃ k < L.length, s.LogFull (s.logged ++ L.take k) := by
  unfold Overflows
  rw [h, length_append]
  constructor
  · rintro ⟨k, hk, hle, hfull⟩
    refine ⟨k - s.logged.length, by omega, ?_⟩
    rwa [take_append, take_of_length_le hle] at hfull
  · rintro ⟨k, hk, hfull⟩
    refine ⟨s.logged.length + k, by omega, by omega, ?_⟩
    rwa [take_append, take_of_length_le (by omega), Nat.add_sub_cancel_left]

/-- `log_write` panics if the header is full when it is called. -/
theorem inLog_logWrite (b : ℕ) (data : Block) (s : Fs) :
    inLog (logWrite b data) s =
      if s.LogFull s.logged then .stop (.panic "too big a transaction") (s.write b data)
      else .ok () (s.write b data) := by
  have hiff : s.Overflows (s.write b data) ↔ s.LogFull s.logged := by
    rw [overflows_append (L := [b]) rfl]
    simp
  show (if s.Overflows (s.write b data) then _ else _) = _
  simp only [hiff]
  rfl

/-- A program appends to the list of logged blocks. -/
structure Appends {α : Type} (x : Prog Fs α) (s : Fs) : Prop where
  sb : (x s).state.sb = s.sb
  logged : ∃ L, (x s).state.logged = s.logged ++ L

theorem overflows_trans {L L' : List ℕ} (hsb : t.sb = s.sb) (h : t.logged = s.logged ++ L)
    (h' : u.logged = t.logged ++ L') : s.Overflows u ↔ s.Overflows t ∨ t.Overflows u := by
  have hfull : ∀ l, t.LogFull l ↔ s.LogFull l := fun l => by
    unfold LogFull
    rw [hsb]
  rw [overflows_append h, overflows_append h', overflows_append (L := L ++ L')
    (by rw [h', h, append_assoc])]
  simp only [hfull, length_append]
  constructor
  · rintro ⟨k, hk, hf⟩
    by_cases hlt : k < L.length
    · exact Or.inl ⟨k, hlt, by rwa [take_append_of_le_length hlt.le] at hf⟩
    · refine Or.inr ⟨k - L.length, by omega, ?_⟩
      rwa [take_append, take_of_length_le (not_lt.1 hlt), ← append_assoc, ← h] at hf
  · rintro (⟨k, hk, hf⟩ | ⟨k, hk, hf⟩)
    · exact ⟨k, by omega, by rwa [take_append_of_le_length hk.le]⟩
    · refine ⟨L.length + k, by omega, ?_⟩
      rwa [take_append, take_of_length_le (by omega), Nat.add_sub_cancel_left, ← append_assoc, ← h]

/-- The parts of a program return with the panic if and only if the program does. -/
theorem inLog_bind {α β : Type} {x : Prog Fs α} {f : α → Prog Fs β} {b : β} (hx : Appends x s)
    (hf : ∀ a t, x s = .ok a t → Appends (f a) t) :
    inLog (x >>= f) s = .ok b u ↔ (inLog x >>= fun a => inLog (f a)) s = .ok b u := by
  cases hrun : x s with
  | stop w t =>
    have hbind : (x >>= f) s = .stop w t := Prog.bind_of_stop hrun f
    have hin : ∃ w', inLog x s = .stop w' t := by
      unfold inLog
      rw [hrun]
      split_ifs
      · exact ⟨_, rfl⟩
      · exact ⟨_, rfl⟩
    obtain ⟨w', hin⟩ := hin
    rw [Prog.bind_of_stop hin]
    unfold inLog
    rw [hbind]
    split_ifs
    · simp
    · simp
  | ok a t =>
    obtain ⟨L, hL⟩ := hx.logged
    obtain ⟨L', hL'⟩ := (hf a t hrun).logged
    have hsb := hx.sb
    rw [hrun] at hL hsb
    have htrans : s.Overflows (f a t).state ↔ s.Overflows t ∨ t.Overflows (f a t).state :=
      overflows_trans hsb hL hL'
    have hbind : (x >>= f) s = f a t := Prog.bind_of_ok hrun f
    by_cases hover : s.Overflows t
    · have hin : inLog x s = .stop (.panic "too big a transaction") t := by
        unfold inLog
        rw [hrun]
        exact if_pos hover
      rw [Prog.bind_of_stop hin]
      unfold inLog
      rw [hbind, if_pos (htrans.2 (Or.inl hover))]
      simp
    · have hin : inLog x s = .ok a t := by
        unfold inLog
        rw [hrun]
        exact if_neg hover
      rw [Prog.bind_of_ok hin]
      unfold inLog
      rw [hbind]
      simp only [htrans, hover, false_or]

/-- A part of a transaction that logs few enough blocks does not panic. -/
theorem not_overflows {L : List ℕ} (h : t.logged = s.logged ++ L)
    (hsize : s.logged.toFinset.card + L.toFinset.card < LOGSIZE)
    (hnlog : s.logged.toFinset.card + L.toFinset.card + 1 < s.sb.nlog) : ¬ s.Overflows t := by
  rw [overflows_append h]
  rintro ⟨k, -, hfull⟩
  have hcard : (s.logged ++ L.take k).toFinset.card ≤ s.logged.toFinset.card + L.toFinset.card := by
    rw [toFinset_append]
    refine (Finset.card_union_le _ _).trans (Nat.add_le_add_left (Finset.card_le_card ?_) _)
    intro y hy
    exact mem_toFinset.2 (mem_of_mem_take (mem_toFinset.1 hy))
  rcases hfull with hfull | hfull
  · omega
  · omega

end Fs

end Xv6
