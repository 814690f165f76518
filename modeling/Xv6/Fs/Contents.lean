import Xv6.Fs.Inv

/-!
# File contents: `readi` and `writei`

`Fs.byte` is the byte of a file at an offset.  `readi` leaves the file system as it is, because the
blocks below the size of a file are allocated.  `writei` keeps the invariant, changes the bytes in its
range and no others, and puts the bytes of its source there (`wp_writei`).
-/

namespace Xv6

open Stateful Function

variable {s t u : Fs} {e : Fin NINODE} {ov : Option (Fin NINODE)} {k : Slot} {x : ℕ}

/-- Writing blocks that are not metadata and not indirect blocks keeps the invariant. -/
theorem FsInv.of_data (hs : FsInv s ov) (hsb : t.sb = s.sb) (hinode : t.inode = s.inode)
    {w : ℕ → Block} (hvol : t.vol = { s.vol with data := w })
    (hw : ∀ i, (s.ino ov i).type ≠ 0 → (s.ino ov i).ind ≠ 0 →
      w (s.ino ov i).ind = s.vol.data (s.ino ov i).ind)
    (hmeta : ∀ b < s.sb.dataStart, s.dirty b = none → t.dirty b = none)
    (hind : ∀ i, (s.ino ov i).type ≠ 0 → (s.ino ov i).ind ≠ 0 →
      s.dirty (s.ino ov i).ind = none → t.dirty (s.ino ov i).ind = none) :
    FsInv t ov ∧ t.slots ov = s.slots ov := by
  have hino : t.ino ov = s.ino ov := by
    cases ov with
    | none => show t.vol.dinode = _; rw [hvol]; rfl
    | some e =>
      show Function.update t.vol.dinode (t.inode e).inum (t.inode e).toDinode = _
      rw [hvol, hinode]
      rfl
  have hdata : t.vol.data = w := by rw [hvol]
  have hslots : t.slots ov = s.slots ov := by
    unfold Fs.slots
    rw [hino, hdata]
    exact own_congr_data hw
  refine
    ⟨{ sb := by rw [hsb]; exact hs.sb, owns := ?_, below := ?_, clean := ?_, clean_ind := ?_,
       inum := by rw [hinode, hsb]; exact hs.inum, uniq := by rw [hinode]; exact hs.uniq, copy := ?_ },
      hslots⟩
  · have hused : t.vol.used = s.vol.used := by rw [hvol]
    rw [hslots, hused, hsb]
    exact hs.owns
  · intro i
    rw [hino, hdata]
    refine (hs.below i).mono rfl rfl fun k ht hk => ?_
    rwa [Dinode.slot_congr (hw i ht)]
  · intro b hb
    rw [hsb] at hb
    exact hmeta b hb (hs.clean b hb)
  · intro i
    rw [hino]
    intro ht h0
    exact hind i ht h0 (hs.clean_ind i ht h0)
  · intro e' hl
    have hdin : t.vol.dinode = s.vol.dinode := by rw [hvol]
    rw [hdin, hinode]
    exact hs.copy e' (by rwa [Fs.Live, ← hinode])

namespace Fs

/-- The blocks after a buffer was overwritten and not logged. -/
def dirtied (s : Fs) (b : ℕ) (v : Block) : Fs :=
  { s with dirty := Function.update s.dirty b (some v) }

@[simp] theorem wp_leave {b : ℕ} {v : Block} {Q : Unit → Fs → Prop} {A : Stop → Fs → Prop} :
    wp (leave b v) Q A s ↔ Q () (s.dirtied b v) := Iff.rfl

theorem view_dirtied {b : ℕ} {v : Block} (c : ℕ) :
    (s.dirtied b v).view c = if c = b then v else s.view c := by
  unfold view dirtied
  by_cases hc : c = b
  · subst hc
    simp
  · simp [hc]

/-- The byte of a file at an offset; zero where there is no block. -/
def byte (s : Fs) (ov : Option (Fin NINODE)) (i k : ℕ) : Byte :=
  match Dinode.blockSlot (k / BSIZE) with
  | some sl => (s.contents ov (i, sl)).get (k % BSIZE)
  | none => 0

/-- Blocks were mapped to the inode of an entry, and bytes in `[lo, hi)` of it were written. -/
structure Wrote (e : Fin NINODE) (lo hi : ℕ) (s t : Fs) : Prop where
  sb : t.sb = s.sb
  other : ∀ e', e' ≠ e → t.inode e' = s.inode e'
  self : ∃ a, t.inode e = { s.inode e with addrs := a }
  dinode : t.vol.dinode = s.vol.dinode
  keep : ∀ p, s.slots (some e) p ≠ 0 → t.slots (some e) p = s.slots (some e) p
  bytes : ∀ i k, (i = (s.inode e).inum → k < lo ∨ hi ≤ k) →
    t.byte (some e) i k = s.byte (some e) i k

theorem Grow.byte (h : Grow e s t) (i k : ℕ) : t.byte (some e) i k = s.byte (some e) i k := by
  unfold Fs.byte
  cases hb : Dinode.blockSlot (k / BSIZE) with
  | none => rfl
  | some sl => simp only [h.contents (i, sl) (Dinode.blockSlot_ne_indirect hb)]

theorem Grow.wrote (h : Grow e s t) (lo hi : ℕ) : Wrote e lo hi s t :=
  ⟨h.sb, h.other, h.self, h.dinode, h.keep, fun i k _ => h.byte i k⟩

namespace Wrote

variable {lo hi : ℕ}

section

variable (h : Wrote e lo hi s t)
include h

theorem inum : (t.inode e).inum = (s.inode e).inum := by
  obtain ⟨a, ha⟩ := h.self
  rw [ha]

theorem live (e' : Fin NINODE) : t.Live e' ↔ s.Live e' := by
  by_cases he : e' = e
  · subst he
    obtain ⟨a, ha⟩ := h.self
    rw [Live, Live, ha]
  · rw [Live, Live, h.other e' he]

theorem size : (t.inode e).size = (s.inode e).size := by
  obtain ⟨a, ha⟩ := h.self
  rw [ha]

theorem trans (h' : Wrote e lo hi t u) : Wrote e lo hi s u where
  sb := h'.sb.trans h.sb
  other := fun e' he => (h'.other e' he).trans (h.other e' he)
  self := by
    obtain ⟨a, ha⟩ := h.self
    obtain ⟨b, hb⟩ := h'.self
    exact ⟨b, by rw [hb, ha]⟩
  dinode := h'.dinode.trans h.dinode
  keep := fun p hp => by
    rw [h'.keep p (by rwa [h.keep p hp]), h.keep p hp]
  bytes := fun i k hk => (h'.bytes i k (by rwa [h.inum])).trans (h.bytes i k hk)

theorem mono {lo' hi' : ℕ} (hlo : lo' ≤ lo) (hhi : hi ≤ hi') :
    Wrote e lo' hi' s t :=
  ⟨h.sb, h.other, h.self, h.dinode, h.keep, fun i k hk => h.bytes i k fun hi' => by
    have := hk hi'
    omega⟩

end

end Wrote

end Fs

/-! ### One block -/

theorem div_block (bn : ℕ) {j : ℕ} (hj : j < BSIZE) : (bn * BSIZE + j) / BSIZE = bn := by
  rw [Nat.mul_comm, Nat.mul_add_div (by decide), Nat.div_eq_of_lt hj, Nat.add_zero]

theorem mod_block (bn : ℕ) {j : ℕ} (hj : j < BSIZE) : (bn * BSIZE + j) % BSIZE = j := by
  rw [Nat.mul_comm, Nat.mul_add_mod, Nat.mod_eq_of_lt hj]

section Block

variable {bn : ℕ} {v : Block}

theorem FsInv.block_range (hs : FsInv s (some e)) {p : ℕ × Slot} (hx : x ≠ 0)
    (hp : s.slots (some e) p = x) : s.sb.dataStart ≤ x ∧ x < s.sb.size := by
  subst hp
  exact hs.slot_range hx

/-- **Overwriting a block of a file**, whether it is logged or not. -/
theorem Fs.wrote_block (hs : FsInv s (some e)) (hk : Dinode.blockSlot bn = some k) (hx : x ≠ 0)
    (hp : s.slots (some e) ((s.inode e).inum, k) = x) {off len : ℕ}
    (hv : ∀ j, (j < off ∨ off + len ≤ j) → v.get j = (s.view x).get j)
    (hsb : t.sb = s.sb) (hinode : t.inode = s.inode)
    (hview : ∀ c, t.view c = if c = x then v else s.view c)
    (hdirty : ∀ c, c ≠ x → t.dirty c = s.dirty c) :
    FsInv t (some e) ∧ Fs.Wrote e (bn * BSIZE + off) (bn * BSIZE + off + len) s t ∧
      (∀ j, j < BSIZE → t.byte (some e) (s.inode e).inum (bn * BSIZE + j) = v.get j) := by
  obtain ⟨hlo, hhi⟩ := hs.block_range hx hp
  have hvol := Fs.vol_of_view_data hs.sb hsb hlo hhi hview
  have hne : ∀ i, (s.ino (some e) i).type ≠ 0 → (s.ino (some e) i).ind ≠ x := by
    intro i ht
    have := hs.ind_ne_data (p := ((s.inode e).inum, k)) (by rwa [hp])
      (Dinode.blockSlot_ne_indirect hk) ht
    rwa [hp] at this
  obtain ⟨hinv, hslots⟩ := hs.of_data hsb hinode (w := Function.update s.vol.data x v) hvol
    (fun i ht _ => update_of_ne (hne i ht) _ _)
    (fun b hb h => by rwa [hdirty b (by omega)])
    (fun i ht _ h => by rwa [hdirty _ (hne i ht)])
  have hdata : t.vol.data = Function.update s.vol.data x v := by rw [hvol]; rfl
  have hold : s.contents (some e) ((s.inode e).inum, k) = s.view x := by
    unfold Fs.contents
    rw [hp]
    exact Fs.vol_data ⟨hlo, hhi⟩
  have hnew : t.contents (some e) ((s.inode e).inum, k) = v := by
    unfold Fs.contents
    rw [hslots, hp, hdata, update_self]
  refine ⟨hinv, ⟨hsb, fun _ _ => by rw [hinode], ⟨_, by rw [hinode]⟩, by rw [hvol]; rfl,
    fun _ _ => by rw [hslots], fun i j hj => ?_⟩, fun j hj => ?_⟩
  · unfold Fs.byte
    cases hb : Dinode.blockSlot (j / BSIZE) with
    | none => rfl
    | some sl =>
      simp only
      by_cases hsame : (i, sl) = ((s.inode e).inum, k)
      · obtain ⟨rfl, rfl⟩ := Prod.mk.inj hsame
        have hbn := Dinode.blockSlot_inj hb hk
        have hdm := Nat.div_add_mod j BSIZE
        have := hj rfl
        rw [hold, hnew, hv]
        rw [hbn, Nat.mul_comm] at hdm
        omega
      · -- another block: its number is different from `x`
        unfold Fs.contents
        rw [hslots, hdata]
        by_cases h0 : s.slots (some e) (i, sl) = 0
        · rw [h0, update_of_ne hx.symm]
        · rw [update_of_ne]
          intro heq
          exact hsame (hs.owns.inj _ _ h0 (heq.trans hp.symm))
  · unfold Fs.byte
    rw [div_block bn hj, mod_block bn hj, hk]
    simp only [hnew]

end Block

/-! ### `readi` -/

theorem div_lt_maxfile {off : ℕ} (h : off < MAXFILE * BSIZE) : off / BSIZE < MAXFILE :=
  (Nat.div_lt_iff_lt_mul (by decide)).2 h

/-- The blocks below the size of a file are allocated. -/
theorem FsInv.slot_ne_zero (hs : FsInv s (some e)) (he : s.Live e) {bn : ℕ}
    (hk : Dinode.blockSlot bn = some k) (hbn : bn * BSIZE < (s.inode e).size.toNat) :
    s.slots (some e) ((s.inode e).inum, k) ≠ 0 := by
  have htype := (hs.copy e he).1
  have hb := hs.below (s.inode e).inum
  rw [FsInv.ino_self] at hb
  have := (hb htype).2 bn hbn
  unfold Dinode.fileBlock at this
  rw [hk] at this
  rwa [FsInv.slots_self htype]

theorem FsInv.size_le (hs : FsInv s (some e)) (he : s.Live e) :
    (s.inode e).size.toNat ≤ MAXFILE * BSIZE := by
  have hb := hs.below (s.inode e).inum
  rw [FsInv.ino_self] at hb
  exact (hb (hs.copy e he).1).1

namespace Fs

variable {τ : Type} {sink : τ → ℕ → List Byte → τ × Bool}

theorem wp_readiLoop (hs : FsInv s (some e)) (he : s.Live e) {n fuel tot off : ℕ} (a : τ)
    (hsize : off + (n - tot) ≤ (s.inode e).size.toNat) :
    wp (readiLoop sink e n fuel tot off a) (fun _ t => t = s) (fun _ _ => False) s := by
  -- induction on the rounds: each maps a block that is allocated, which only reads
  induction fuel generalizing tot off a with
  | zero => rfl
  | succ fuel ih =>
    rw [readiLoop]
    split_ifs with htot
    swap
    · rfl
    have hoff : off < MAXFILE * BSIZE := by
      have := hs.size_le he
      omega
    obtain ⟨k, hk⟩ := Dinode.blockSlot_of_lt (div_lt_maxfile hoff)
    have hblock : off / BSIZE * BSIZE < (s.inode e).size.toNat := by
      have := Nat.div_mul_le_self off BSIZE
      omega
    refine wp_seq (wp_bmap hs he hk) ?_
    rintro addr t ⟨-, -, -, hread⟩
    obtain ⟨rfl, hne⟩ := hread (hs.slot_ne_zero he hk hblock)
    rw [if_neg hne, wp_bind, wp_read]
    dsimp only
    split_ifs with hok
    · rfl
    · exact ih _ (by omega)

/-- **`readi`** leaves the file system as it is. -/
theorem wp_readi (hs : FsInv s none) (he : s.Live e) (a : τ) (off n : BitVec 32) :
    wp (readi sink a e off n) (fun _ t => t = s) (fun _ _ => False) s := by
  unfold readi
  rw [wp_bind, wp_get]
  dsimp only
  by_cases hbad : off > (s.inode e).size ∨ off + n < off
  · rw [if_pos hbad]
    rfl
  rw [if_neg hbad]
  refine wp_readiLoop (hs.lock he) he a ?_
  obtain ⟨h1, h2⟩ := not_or.1 hbad
  simp only [gt_iff_lt, BitVec.not_lt] at h1 h2
  have hn := BitVec.toNat_add off n
  rw [BitVec.le_def] at h1 h2
  split_ifs with h3
  · rw [BitVec.toNat_sub_of_le (BitVec.le_def.2 h1)]
    omega
  · simp only [gt_iff_lt, BitVec.not_lt] at h3
    rw [BitVec.le_def] at h3
    have := off.isLt
    have := n.isLt
    omega

/-! ### `writei` -/

end Fs

/-- The bytes a source delivers are those of `f`, from the start of the source on. -/
def Source.Reads (src : Source) (f : ℕ → Byte) : Prop :=
  ∀ tot m j b, (src.copyin tot m).1[j]? = some b → b = f (tot + j)

namespace Fs

/-- What the loop of `writei` has done when it has come from `(tot, off)` to `(tot', off')`. -/
structure Filled (src : Source) (f : ℕ → Byte) (e : Fin NINODE) (n tot off tot' off' : ℕ)
    (s t : Fs) : Prop where
  inv : FsInv t (some e)
  wrote : Wrote e off (off + (n - tot)) s t
  moved : off' + tot = off + tot'
  le_tot : tot ≤ tot'
  le_n : tot' ≤ n
  written : src.Reads f → ∀ k, off ≤ k → k < off' →
    t.byte (some e) (s.inode e).inum k = f (tot + (k - off))
  /-- The blocks it has passed are allocated. -/
  mapped : ∀ bn k, Dinode.blockSlot bn = some k → off ≤ bn * BSIZE → bn * BSIZE < off' →
    t.slots (some e) ((s.inode e).inum, k) ≠ 0
  /-- It stops early only for a missing block or a failing copy. -/
  all : (∀ bn k, Dinode.blockSlot bn = some k → off / BSIZE ≤ bn → bn * BSIZE < off + (n - tot) →
    s.slots (some e) ((s.inode e).inum, k) ≠ 0) → (∀ a m, (src.copyin a m).2 = true) → tot' = n

variable {src : Source} {f : ℕ → Byte} {n tot off : ℕ}

theorem Filled.stop (ht : FsInv t (some e)) (hw : Wrote e off (off + (n - tot)) s t) (hn : tot ≤ n)
    (hall : (∀ bn k, Dinode.blockSlot bn = some k → off / BSIZE ≤ bn →
      bn * BSIZE < off + (n - tot) → s.slots (some e) ((s.inode e).inum, k) ≠ 0) →
      (∀ a m, (src.copyin a m).2 = true) → tot = n) :
    Filled src f e n tot off tot off s t where
  inv := ht
  wrote := hw
  moved := rfl
  le_tot := le_rfl
  le_n := hn
  written := fun _ k h1 h2 => absurd h1 (by omega)
  mapped := fun bn k _ h1 h2 => absurd h1 (by omega)
  all := hall

theorem Filled.step {m tot' off' : ℕ} (hm : off % BSIZE + m ≤ BSIZE) (hn : tot + m ≤ n)
    (hk : Dinode.blockSlot (off / BSIZE) = some k)
    (hw : Wrote e off (off + m) s t) (hx : t.slots (some e) ((s.inode e).inum, k) ≠ 0)
    (hbytes : src.Reads f → ∀ j, j < m → t.byte (some e) (s.inode e).inum (off + j) = f (tot + j))
    (h : Filled src f e n (tot + m) (off + m) tot' off' t u) :
    Filled src f e n tot off tot' off' s u := by
  have hmoved := h.moved
  have hle := h.le_tot
  have hlen := h.le_n
  have hdm := Nat.div_add_mod off BSIZE
  refine
    { inv := h.inv, wrote := ?_, moved := by omega, le_tot := by omega, le_n := hlen, written := ?_,
      mapped := ?_, all := ?_ }
  · exact (hw.mono le_rfl (by omega)).trans (h.wrote.mono (by omega) (by omega))
  · intro hsrc j h1 h2
    by_cases hj : j < off + m
    · -- written in this round, and not touched by the later ones
      rw [h.wrote.bytes _ _ fun _ => Or.inl (by omega)]
      have := hbytes hsrc (j - off) (by omega)
      rwa [Nat.add_sub_cancel' h1] at this
    · have := h.written hsrc j (by omega) h2
      rw [hw.inum] at this
      rw [this]
      congr 1
      omega
  · intro bn k' hk' h1 h2
    by_cases hbn : bn * BSIZE < off + m
    · have heq : bn = off / BSIZE := by
        have h3 : off / BSIZE ≤ bn := Nat.div_le_of_le_mul (by rwa [Nat.mul_comm])
        have h4 : bn < off / BSIZE + 1 := by
          refine Nat.lt_of_mul_lt_mul_right (a := BSIZE) ?_
          rw [Nat.add_mul, Nat.mul_comm (off / BSIZE)]
          omega
        omega
      subst heq
      rw [hk] at hk'
      cases hk'
      rwa [h.wrote.keep _ hx]
    · have := h.mapped bn k' hk' (by omega) h2
      rwa [hw.inum] at this
  · intro hmapped hcopy
    refine h.all (fun bn k' hk' h1 h2 => ?_) hcopy
    have h3 : off / BSIZE ≤ (off + m) / BSIZE := Nat.div_le_div_right (by omega)
    have h4 := hmapped bn k' hk' (by omega) (by omega)
    rwa [hw.inum, hw.keep _ h4]

/-- **The loop of `writei`.** -/
theorem wp_writeiLoop (hs : FsInv s (some e)) (he : s.Live e) {fuel : ℕ}
    (htot : tot ≤ n) (hfuel : n - tot ≤ fuel) (hmax : off + (n - tot) ≤ MAXFILE * BSIZE) :
    wp (writeiLoop src e n fuel tot off)
      (fun r t => Filled src f e n tot off r.1 r.2 s t) (fun _ _ => False) s := by
  induction fuel generalizing s tot off with
  | zero => exact Filled.stop hs ((Grow.refl e s).wrote _ _) htot fun _ _ => by omega
  | succ fuel ih =>
    rw [writeiLoop]
    split_ifs with hlt
    swap
    · exact Filled.stop hs ((Grow.refl e s).wrote _ _) htot fun _ _ => by omega
    obtain ⟨k, hk⟩ := Dinode.blockSlot_of_lt (div_lt_maxfile (show off < MAXFILE * BSIZE by omega))
    refine wp_seq (wp_bmap hs he hk) ?_
    rintro addr t ⟨ht, hg, hfill, hread⟩
    have hblock := Nat.div_mul_le_self off BSIZE
    split_ifs with h0
    · -- the disk is full
      refine Filled.stop ht (hg.wrote _ _) htot fun hmapped _ => ?_
      exact absurd h0 (hread (hmapped _ k hk le_rfl (by omega))).2
    rw [wp_bind, wp_read]
    set m := min (n - tot) (BSIZE - off % BSIZE) with hm
    have hmod : off % BSIZE < BSIZE := Nat.mod_lt _ (by decide)
    have hm1 : 0 < m := by omega
    have hm2 : off % BSIZE + m ≤ BSIZE := by omega
    have hm3 : tot + m ≤ n := by omega
    have hp : t.slots (some e) ((t.inode e).inum, k) = addr := by
      rw [hg.inum]
      exact hfill h0
    have hlen := src.length_le tot m
    have hdm : off / BSIZE * BSIZE + off % BSIZE = off := by
      rw [Nat.mul_comm]
      exact Nat.div_add_mod off BSIZE
    have hv : ∀ j, (j < off % BSIZE ∨ off % BSIZE + m ≤ j) →
        ((t.view addr).blit (off % BSIZE) (src.copyin tot m).1).get j = (t.view addr).get j := by
      intro j hj
      exact Bytes.get_blit_of_not_mem _ (by omega)
    dsimp only
    cases hok : (src.copyin tot m).2 with
    | false =>
      -- a failing copy leaves what it has delivered in the buffer
      rw [if_pos (by rfl), wp_bind, wp_leave, wp_pure]
      obtain ⟨hinv, hw, -⟩ := wrote_block ht hk h0 hp hv
        (t := t.dirtied addr ((t.view addr).blit (off % BSIZE) (src.copyin tot m).1)) rfl rfl
        view_dirtied (fun c hc => update_of_ne hc _ _)
      rw [hdm] at hw
      refine Filled.stop hinv (((hg.wrote _ _).trans hw).mono le_rfl (by omega)) htot ?_
      intro _ hcopy
      rw [hcopy] at hok
      cases hok
    | true =>
      rw [if_neg (by simp), wp_bind, wp_log]
      obtain ⟨hinv, hw, hbytes⟩ := wrote_block ht hk h0 hp hv
        (t := t.write addr ((t.view addr).blit (off % BSIZE) (src.copyin tot m).1)) rfl rfl
        view_write (fun c hc => update_of_ne hc _ _)
      rw [hdm] at hw
      have hlenm := src.length_eq tot m hok
      have hw' := (hg.wrote off (off + m)).trans hw
      have hlive := (hw'.live e).2 he
      refine wp_post (ih hinv hlive hm3 (by omega) (by omega)) fun r u hr => ?_
      refine hr.step hm2 hm3 hk hw' ?_ ?_
      · rwa [hw.keep _ (by rwa [hfill h0]), hfill h0]
      · intro hsrc j hj
        have hj' := hbytes (off % BSIZE + j) (by omega)
        rw [← Nat.add_assoc, hdm, hg.inum] at hj'
        rw [hj', Bytes.get_blit_of_mem _ (by omega) (by omega)]
        exact hsrc tot m j _ (List.getElem?_eq_getElem (by omega))

/-- A round of the loop of `writei`: of the `n` bytes `tot` are written, and `bmap` finds block `x` for the
next `m` of them, which go to offset `off`. -/
structure Round (e : Fin NINODE) (n tot off m : ℕ) (k : Slot) (x : ℕ) (s t : Fs) : Prop where
  lt : tot < n
  max : off + (n - tot) ≤ MAXFILE * BSIZE
  m_eq : m = min (n - tot) (BSIZE - off % BSIZE)
  inv : FsInv s (some e)
  live : s.Live e
  slot : Dinode.blockSlot (off / BSIZE) = some k
  logs : Logs e k s x t

namespace Round

variable {m : ℕ}

section

variable (h : Round e n tot off m k x s t)
include h

theorem reached : Reached e k s x t := h.logs.reached

theorem m_pos : 0 < m := by
  have hmod : off % BSIZE < BSIZE := Nat.mod_lt _ (by decide)
  have := h.lt
  have := h.m_eq
  omega

theorem le_n : tot + m ≤ n := by
  have := h.lt
  have := h.m_eq
  omega

theorem mapped : Mapped e k s x t := h.reached.mapped h.inv h.live

theorem slot_eq (hx : x ≠ 0) :
    t.slots (some e) ((t.inode e).inum, k) = x := by
  obtain ⟨-, hg, hfill, -⟩ := h.mapped
  rw [hg.inum]
  exact hfill hx

end

/-- What the copy leaves in the block, when it delivers `len` bytes at most. -/
theorem block (src : Source) (h : Round e n tot off m k x s t) (hx : x ≠ 0) {len : ℕ}
    (hlen : (src.copyin tot m).1.length ≤ len) (hsb : u.sb = t.sb) (hinode : u.inode = t.inode)
    (hview : ∀ c, u.view c = if c = x then (t.view x).blit (off % BSIZE) (src.copyin tot m).1 else t.view c)
    (hdirty : ∀ c, c ≠ x → u.dirty c = t.dirty c) :
    FsInv u (some e) ∧ Wrote e off (off + len) t u := by
  have hdm : off / BSIZE * BSIZE + off % BSIZE = off := by
    rw [Nat.mul_comm]
    exact Nat.div_add_mod off BSIZE
  have hv : ∀ j, (j < off % BSIZE ∨ off % BSIZE + len ≤ j) →
      ((t.view x).blit (off % BSIZE) (src.copyin tot m).1).get j = (t.view x).get j := by
    intro j hj
    exact Bytes.get_blit_of_not_mem _ (by omega)
  obtain ⟨hinv, hw, -⟩ := wrote_block h.mapped.1 h.slot hx (h.slot_eq hx) hv hsb hinode hview hdirty
  rw [hdm] at hw
  exact ⟨hinv, hw⟩

theorem logged (src : Source) (h : Round e n tot off m k x s t) (hx : x ≠ 0) :
    FsInv (t.write x ((t.view x).blit (off % BSIZE) (src.copyin tot m).1)) (some e) ∧
      Wrote e off (off + m) t (t.write x ((t.view x).blit (off % BSIZE) (src.copyin tot m).1)) :=
  h.block src hx (src.length_le tot m) rfl rfl view_write fun _ hc => update_of_ne hc _ _

theorem left (src : Source) (h : Round e n tot off m k x s t) (hx : x ≠ 0) :
    FsInv (t.dirtied x ((t.view x).blit (off % BSIZE) (src.copyin tot m).1)) (some e) ∧
      Wrote e off (off + (src.copyin tot m).1.length) t
        (t.dirtied x ((t.view x).blit (off % BSIZE) (src.copyin tot m).1)) :=
  h.block src hx le_rfl rfl rfl view_dirtied fun _ hc => update_of_ne hc _ _

end Round

/-- **An invariant of the loop of `writei`** holds when it ends: `I` is kept by a round that logs its
block, and the loop also ends with a full disk or with a copy that fails. -/
theorem wp_writeiLoop_rule {I : ℕ → ℕ → Fs → Prop} {Q : ℕ → Fs → Prop}
    (hdone : ∀ off t, I n off t → Q n t)
    (hfull : ∀ tot off m k s t, Round e n tot off m k 0 s t → I tot off s → Q tot t)
    (hcut : ∀ tot off m k x s t, Round e n tot off m k x s t → x ≠ 0 → (src.copyin tot m).2 = false →
      I tot off s → Q tot (t.dirtied x ((t.view x).blit (off % BSIZE) (src.copyin tot m).1)))
    (hstep : ∀ tot off m k x s t, Round e n tot off m k x s t → x ≠ 0 → (src.copyin tot m).2 = true →
      I tot off s → I (tot + m) (off + m) (t.write x ((t.view x).blit (off % BSIZE) (src.copyin tot m).1)))
    (hs : FsInv s (some e)) (he : s.Live e) {fuel : ℕ} (htot : tot ≤ n) (hfuel : n - tot ≤ fuel)
    (hmax : off + (n - tot) ≤ MAXFILE * BSIZE) (h0 : I tot off s) :
    wp (writeiLoop src e n fuel tot off) (fun r t => Q r.1 t) (fun _ _ => False) s := by
  induction fuel generalizing s tot off with
  | zero =>
    obtain rfl : tot = n := by omega
    exact hdone off s h0
  | succ fuel ih =>
    rw [writeiLoop]
    split_ifs with hlt
    swap
    · obtain rfl : tot = n := by omega
      exact hdone off s h0
    obtain ⟨k, hk⟩ := Dinode.blockSlot_of_lt (div_lt_maxfile (show off < MAXFILE * BSIZE by omega))
    refine wp_seq (wp_bmap_logs hs he hk) ?_
    intro x t hlogs
    have hround : Round e n tot off (min (n - tot) (BSIZE - off % BSIZE)) k x s t :=
      ⟨hlt, hmax, rfl, hs, he, hk, hlogs⟩
    split_ifs with hx
    · subst hx
      exact hfull tot off _ k s t hround h0
    rw [wp_bind, wp_read]
    dsimp only
    cases hok : (src.copyin tot (min (n - tot) (BSIZE - off % BSIZE))).2 with
    | false =>
      rw [if_pos (by rfl), wp_bind, wp_leave, wp_pure]
      exact hcut tot off _ k x s t hround hx hok h0
    | true =>
      rw [if_neg (by simp), wp_bind, wp_log]
      obtain ⟨hinv, hw⟩ := hround.logged src hx
      have hlive := (hw.live e).2 ((hround.mapped.2.1.live e).2 he)
      have hm := hround.le_n
      have hpos := hround.m_pos
      exact ih hinv hlive hm (by omega) (by omega) (hstep tot off _ k x s t hround hx hok h0)

/-- The in-memory inode gets a new size. -/
def setSize (s : Fs) (e : Fin NINODE) (sz : ℕ) : Fs :=
  s.upd e fun ip => { ip with size := BitVec.ofNat 32 sz }

theorem setSize_self (s : Fs) (e : Fin NINODE) (sz : ℕ) :
    (s.setSize e sz).inode e = { s.inode e with size := BitVec.ofNat 32 sz } :=
  update_self ..

theorem setSize_ino (s : Fs) (e : Fin NINODE) (sz : ℕ) :
    (s.setSize e sz).ino (some e) = Function.update (s.ino (some e)) (s.inode e).inum
      { (s.inode e).toDinode with size := BitVec.ofNat 32 sz } := by
  show Function.update s.vol.dinode ((s.setSize e sz).inode e).inum _ = _
  rw [setSize_self]
  unfold ino
  simp only [update_idem]

theorem setSize_slots (s : Fs) (e : Fin NINODE) (sz : ℕ) :
    (s.setSize e sz).slots (some e) = s.slots (some e) := by
  funext p
  unfold slots own
  rw [setSize_ino]
  by_cases hp : p.1 = (s.inode e).inum
  · rw [hp, update_self, FsInv.ino_self]
    rfl
  · rw [update_of_ne hp]
    rfl

theorem setSize_inv {sz : ℕ} (hs : FsInv s (some e)) (he : s.Live e) (hmax : sz ≤ MAXFILE * BSIZE)
    (hblocks : ∀ bn k, Dinode.blockSlot bn = some k → bn * BSIZE < sz →
      s.slots (some e) ((s.inode e).inum, k) ≠ 0) : FsInv (s.setSize e sz) (some e) := by
  have hr : s.Retouched e (s.setSize e sz) :=
    ⟨rfl, fun e' hne => update_of_ne hne _ _,
      ⟨{ (s.inode e).toDinode with size := BitVec.ofNat 32 sz }, rfl, setSize_self s e sz⟩, rfl⟩
  have hino := setSize_ino s e sz
  refine hr.inv hs (by rw [setSize_slots]; exact hs.owns) ?_ hs.clean ?_
  · intro i
    rw [hino]
    by_cases hi : i = (s.inode e).inum
    · subst hi
      rw [update_self]
      intro ht
      have hsz : (BitVec.ofNat 32 sz).toNat = sz := by
        have hM : MAXFILE * BSIZE = 274432 := rfl
        exact Dinode.toNat_ofNat32 (by omega)
      refine ⟨by rwa [hsz], fun bn hbn => ?_⟩
      rw [hsz] at hbn
      have hbn' : bn < MAXFILE := Nat.lt_of_mul_lt_mul_right (a := BSIZE) (by omega)
      obtain ⟨k, hk⟩ := Dinode.blockSlot_of_lt hbn'
      have := hblocks bn k hk hbn
      rw [FsInv.slots_self (hs.copy e he).1] at this
      unfold Dinode.fileBlock
      rwa [hk]
    · rw [update_of_ne hi]
      exact hs.below i
  · intro i ht h0
    rw [hino] at ht h0 ⊢
    by_cases hi : i = (s.inode e).inum
    · subst hi
      rw [update_self] at ht h0 ⊢
      have := hs.clean_ind (s.inode e).inum
      rw [FsInv.ino_self] at this
      exact this ht h0
    · rw [update_of_ne hi] at ht h0 ⊢
      exact hs.clean_ind i ht h0

/-- What `writei` does when it accepts its arguments: `tot` bytes of `f` are written at `off`. -/
structure Written (src : Source) (f : ℕ → Byte) (e : Fin NINODE) (off n tot : ℕ) (s t : Fs) :
    Prop where
  sb : t.sb = s.sb
  other : ∀ e', e' ≠ e → t.inode e' = s.inode e'
  self : ∃ a, t.inode e = { s.inode e with
    addrs := a, size := BitVec.ofNat 32 (max (s.inode e).size.toNat (off + tot)) }
  dinode : t.vol.dinode = Function.update s.vol.dinode (s.inode e).inum (t.inode e).toDinode
  keep : ∀ p, s.slots none p ≠ 0 → t.slots none p = s.slots none p
  bytes : ∀ i k, (i = (s.inode e).inum → k < off ∨ off + n ≤ k) →
    t.byte none i k = s.byte none i k
  le : tot ≤ n
  written : src.Reads f → ∀ k, off ≤ k → k < off + tot →
    t.byte none (s.inode e).inum k = f (k - off)
  all : (∀ bn k, Dinode.blockSlot bn = some k → off / BSIZE ≤ bn → bn * BSIZE < off + n →
    s.slots none ((s.inode e).inum, k) ≠ 0) → (∀ a m, (src.copyin a m).2 = true) → tot = n

/-- The arguments `writei` refuses. -/
def BadRange (s : Fs) (e : Fin NINODE) (off n : BitVec 32) : Prop :=
  (off > (s.inode e).size ∨ off + n < off) ∨ (off + n).toNat > MAXFILE * BSIZE

theorem byte_congr {ov' : Option (Fin NINODE)} (h1 : t.slots ov' = s.slots ov)
    (h2 : t.vol.data = s.vol.data) (i j : ℕ) : t.byte ov' i j = s.byte ov i j := by
  unfold byte contents
  rw [h1, h2]

theorem setSize_eq_self {sz : ℕ} (h : BitVec.ofNat 32 sz = (s.inode e).size) :
    s.setSize e sz = s := by
  have hself : ({ s.inode e with size := BitVec.ofNat 32 sz } : Inode) = s.inode e := by rw [h]
  show { s with inode := Function.update s.inode e { s.inode e with size := BitVec.ofNat 32 sz } } = s
  rw [hself, update_eq_self]

/-- The size after the loop: old blocks are below the old size, and the loop has passed the others. -/
theorem Filled.setSize_inv (hs : FsInv s none) (he : s.Live e)
    (h : Filled src f e n 0 off tot (off + tot) s t) (hoff : off ≤ (s.inode e).size.toNat)
    (hmax : off + n ≤ MAXFILE * BSIZE) {sz : ℕ}
    (hsz : sz = max (s.inode e).size.toNat (off + tot)) : FsInv (t.setSize e sz) (some e) := by
  have hle := h.le_n
  have hsmax := (hs.lock he).size_le he
  refine Fs.setSize_inv h.inv ((h.wrote.live e).2 he) (by omega) fun bn k hk hbn => ?_
  by_cases hold : bn * BSIZE < (s.inode e).size.toNat
  · have := (hs.lock he).slot_ne_zero he hk hold
    rwa [h.wrote.inum, h.wrote.keep _ this]
  · rw [h.wrote.inum]
    exact h.mapped bn k hk (by omega) (by omega)

/-- The slots and the bytes of a file do not change at the end of `writei`. -/
theorem slots_finish {sz : ℕ} (ht : FsInv (t.setSize e sz) (some e)) (he : t.Live e) :
    ((t.setSize e sz).update e).slots none = t.slots (some e) ∧
      ((t.setSize e sz).update e).vol.data = t.vol.data := by
  have href : 0 < ((t.setSize e sz).inode e).ref := by
    rw [setSize_self]
    exact he.1
  refine ⟨?_, ht.update_data href⟩
  rw [ht.update_slots href, setSize_slots]

theorem byte_finish {sz : ℕ} (ht : FsInv (t.setSize e sz) (some e)) (he : t.Live e) (i j : ℕ) :
    ((t.setSize e sz).update e).byte none i j = t.byte (some e) i j := by
  obtain ⟨hslots, hdata⟩ := slots_finish ht he
  exact byte_congr hslots hdata i j

/-- What `writei` does after its loop: the size grows if the write went beyond it, and the inode goes
to disk. -/
theorem Filled.finish (hs : FsInv s none) (he : s.Live e)
    (h : Filled src f e n 0 off tot (off + tot) s t) (hoff : off ≤ (s.inode e).size.toNat)
    (hmax : off + n ≤ MAXFILE * BSIZE) {sz : ℕ}
    (hsz : sz = max (s.inode e).size.toNat (off + tot)) :
    FsInv ((t.setSize e sz).update e) none ∧ Written src f e off n tot s ((t.setSize e sz).update e) := by
  have hle := h.le_n
  have hlive := (h.wrote.live e).2 he
  have hlock := hs.lock_slots he
  obtain ⟨a, ha⟩ := h.wrote.self
  have hinv := h.setSize_inv hs he hoff hmax hsz
  have hself := setSize_self t e sz
  have href : 0 < ((t.setSize e sz).inode e).ref := by rw [hself]; exact hlive.1
  have hslots := (slots_finish hinv hlive).1
  refine ⟨hinv.update href, ?_⟩
  refine
    { sb := h.wrote.sb, other := ?_, self := ⟨a, ?_⟩, dinode := ?_, keep := ?_, bytes := ?_,
      le := hle, written := ?_, all := ?_ }
  · intro e' hne
    rw [← h.wrote.other e' hne]
    exact update_of_ne hne _ _
  · show (t.setSize e sz).inode e = _
    rw [hself, ha, hsz]
  · rw [vol_update hinv.sb (hinv.inum e href).2]
    show Function.update t.vol.dinode ((t.setSize e sz).inode e).inum
      ((t.setSize e sz).inode e).toDinode = Function.update s.vol.dinode (s.inode e).inum
      ((t.setSize e sz).inode e).toDinode
    rw [h.wrote.dinode, hself, ha]
  · intro p hp
    rw [← hlock] at hp ⊢
    rw [hslots, h.wrote.keep p hp]
  · intro i k hk
    rw [byte_finish hinv hlive, h.wrote.bytes i k (by omega), byte_congr hlock rfl]
  · intro hsrc k h1 h2
    rw [byte_finish hinv hlive, h.written hsrc k h1 h2, Nat.zero_add]
  · intro hmapped hcopy
    refine h.all (fun bn k hk h1 h2 => ?_) hcopy
    rw [hlock]
    exact hmapped bn k hk h1 (by omega)

theorem BadRange.of_not {off n : BitVec 32} (h : ¬ s.BadRange e off n) :
    off.toNat ≤ (s.inode e).size.toNat ∧ off.toNat + n.toNat ≤ MAXFILE * BSIZE := by
  obtain ⟨h1, h2⟩ := not_or.1 h
  obtain ⟨h3, h4⟩ := not_or.1 h1
  simp only [gt_iff_lt, BitVec.not_lt] at h3 h4
  have hn := BitVec.toNat_add off n
  rw [BitVec.le_def] at h3 h4
  have hlt := off.isLt
  have hlt' := n.isLt
  exact ⟨h3, by omega⟩

/-- `writei` refuses its arguments and does nothing, or ends with its loop, the new size and the inode on
disk; `P` is what is known of the loop. -/
theorem wp_writei_loop (hs : FsInv s none) (he : s.Live e) (off n : BitVec 32) {P : ℕ → Fs → Prop}
    (hP : ¬ s.BadRange e off n → wp (writeiLoop src e n.toNat n.toNat 0 off.toNat) (fun r t => P r.1 t)
      (fun _ _ => True) s) :
    wp (writei src e off n)
      (fun r t => FsInv t none ∧ ((s.BadRange e off n ∧ r = -1 ∧ t = s) ∨
        (¬ s.BadRange e off n ∧ ∃ tot t₀, P tot t₀ ∧
          Filled src f e n.toNat 0 off.toNat tot (off.toNat + tot) s t₀ ∧ r = BitVec.ofNat 32 tot ∧
          t = (t₀.setSize e (max (s.inode e).size.toNat (off.toNat + tot))).update e ∧
          Written src f e off.toNat n.toNat tot s t)))
      (fun _ _ => False) s := by
  unfold writei
  rw [wp_bind, wp_get]
  dsimp only
  by_cases hbad : off > (s.inode e).size ∨ off + n < off
  · rw [if_pos hbad]
    exact ⟨hs, Or.inl ⟨Or.inl hbad, rfl, rfl⟩⟩
  rw [if_neg hbad]
  by_cases hbig : (off + n).toNat > MAXFILE * BSIZE
  · rw [if_pos hbig]
    exact ⟨hs, Or.inl ⟨Or.inr hbig, rfl, rfl⟩⟩
  rw [if_neg hbig]
  have hgood : ¬ s.BadRange e off n := fun h => h.elim hbad hbig
  obtain ⟨hoff, hmax⟩ := BadRange.of_not hgood
  rw [wp_bind]
  refine wp_mono (wp_and (wp_writeiLoop (f := f) (hs.lock he) he (Nat.zero_le _) le_rfl hmax) (hP hgood))
    ?_ (fun _ _ hf => hf.1)
  rintro ⟨tot, off'⟩ t ⟨ht, hp⟩
  have hoff' : off' = off.toNat + tot := ht.moved
  subst hoff'
  obtain ⟨hinv, hw⟩ := ht.finish hs he hoff hmax rfl
  dsimp only
  by_cases hbigger : off.toNat + tot > (s.inode e).size.toNat
  · rw [if_pos hbigger, wp_bind, wp_modify, wp_bind]
    have hsz : max (s.inode e).size.toNat (off.toNat + tot) = off.toNat + tot := max_eq_right (by omega)
    refine wp_of_ok (iupdate_run _ e) ⟨?_, Or.inr ⟨hgood, tot, t, hp, ht, rfl, by rw [hsz]; rfl, ?_⟩⟩
    · rwa [hsz] at hinv
    · rwa [hsz] at hw
  · rw [if_neg hbigger, wp_bind]
    have hsz : t.setSize e (max (s.inode e).size.toNat (off.toNat + tot)) = t := by
      rw [max_eq_left (by omega)]
      refine setSize_eq_self ?_
      rw [ht.wrote.size, BitVec.ofNat_toNat, BitVec.setWidth_eq]
    refine wp_of_ok (iupdate_run _ e) ⟨?_, Or.inr ⟨hgood, tot, t, hp, ht, rfl, by rw [hsz], ?_⟩⟩
    · rwa [hsz] at hinv
    · rwa [hsz] at hw

/-- **`writei`** refuses its arguments and does nothing, or writes. -/
theorem wp_writei (hs : FsInv s none) (he : s.Live e) (off n : BitVec 32) :
    wp (writei src e off n)
      (fun r t => FsInv t none ∧ ((s.BadRange e off n ∧ r = -1 ∧ t = s) ∨
        (¬ s.BadRange e off n ∧ ∃ tot, r = BitVec.ofNat 32 tot ∧
          Written src f e off.toNat n.toNat tot s t)))
      (fun _ _ => False) s := by
  have hloop : ¬ s.BadRange e off n → wp (writeiLoop src e n.toNat n.toNat 0 off.toNat)
      (fun _ _ => True) (fun _ _ => True) s := by
    intro hgood
    obtain ⟨-, hmax⟩ := BadRange.of_not hgood
    exact wp_mono (wp_writeiLoop (f := f) (hs.lock he) he (Nat.zero_le _) le_rfl hmax)
      (fun _ _ _ => trivial) (fun _ _ _ => trivial)
  refine wp_post (wp_writei_loop (f := f) hs he off n (P := fun _ _ => True) hloop) ?_
  rintro r t ⟨hinv, hbad | ⟨hgood, tot, t₀, -, -, hr, -, hw⟩⟩
  · exact ⟨hinv, Or.inl hbad⟩
  · exact ⟨hinv, Or.inr ⟨hgood, tot, hr, hw⟩⟩

end Fs

end Xv6
