import Xv6.Fs.Trunc

/-!
# Block ownership over every sequence of inode operations

The functions on the inode table (`iget`, `idup`, `ilock`, `ialloc`, `iput`) keep the invariant, and so
does every sequence of inode operations (`block_ownership`): every block keeps one owner, the bitmap
stays exact, `bfree` never meets a free block, and `readi` changes nothing.
-/

namespace Xv6

open Stateful Function List

variable {s t u : Fs} {e : Fin NINODE} {i : ℕ} {d : Dinode}

/-! ### The inode table -/

theorem FsInv.of_table (hs : FsInv s none) (hsb : t.sb = s.sb) (hvol : t.vol = s.vol)
    (hdirty : t.dirty = s.dirty)
    (hinum : ∀ e, 0 < (t.inode e).ref → (t.inode e).dev = ROOTDEV ∧ (t.inode e).inum < s.sb.ninodes)
    (huniq : ∀ e e', 0 < (t.inode e).ref → 0 < (t.inode e').ref →
      (t.inode e).inum = (t.inode e').inum → e = e')
    (hcopy : ∀ e, t.Live e → (t.inode e).type ≠ 0 ∧
      (t.inode e).toDinode = s.vol.dinode (t.inode e).inum) : FsInv t none where
  sb := by rw [hsb]; exact hs.sb
  owns := by
    have hslots : t.slots none = s.slots none := by
      unfold Fs.slots Fs.ino
      rw [hvol]
    rw [hslots, hvol, hsb]
    exact hs.owns
  below := by
    unfold Fs.ino
    rw [hvol]
    exact hs.below
  clean := by rw [hsb, hdirty]; exact hs.clean
  clean_ind := by
    unfold Fs.ino
    rw [hvol, hdirty]
    exact hs.clean_ind
  inum := by rwa [hsb]
  uniq := huniq
  copy := fun e he => ⟨(hcopy e he).1, fun _ => by rw [hvol]; exact (hcopy e he).2⟩

/-- An inode without blocks is replaced by another one. -/
theorem FsInv.of_dinode (hs : FsInv s none) (hsb : t.sb = s.sb) (hvol : t.vol = s.vol.setDinode i d)
    (hdirty : ∀ b, s.dirty b = none → t.dirty b = none) (hold : ∀ k, s.slots none (i, k) = 0)
    (haddrs : d.addrs = fun _ => 0) (hsize : d.size = 0)
    (hinum : ∀ e, 0 < (t.inode e).ref → (t.inode e).dev = ROOTDEV ∧ (t.inode e).inum < s.sb.ninodes)
    (huniq : ∀ e e', 0 < (t.inode e).ref → 0 < (t.inode e').ref →
      (t.inode e).inum = (t.inode e').inum → e = e')
    (hcopy : ∀ e, t.Live e → (t.inode e).type ≠ 0 ∧ (t.inode e).inum ≠ i ∧
      (t.inode e).toDinode = s.vol.dinode (t.inode e).inum) : FsInv t none := by
  have hino : t.ino none = Function.update (s.ino none) i d := by
    show t.vol.dinode = _
    rw [hvol]
    rfl
  have hdata : t.vol.data = s.vol.data := by rw [hvol]; rfl
  have hslot : ∀ k, d.slot s.vol.data k = 0 := by
    intro k
    cases k <;> simp [Dinode.slot, Dinode.ind, haddrs]
  have hslots : t.slots none = s.slots none := by
    funext p
    obtain ⟨j, k⟩ := p
    unfold Fs.slots own
    by_cases hj : j = i
    · subst hj
      have := hold k
      unfold Fs.slots own at this
      simp only [hino, update_self, hdata, hslot, ite_self]
      exact this.symm
    · simp only [hino, update_of_ne hj, hdata]
  refine
    { sb := by rw [hsb]; exact hs.sb, owns := ?_, below := ?_, clean := ?_, clean_ind := ?_,
      inum := by rwa [hsb], uniq := huniq, copy := ?_ }
  · have hused : t.vol.used = s.vol.used := by rw [hvol]; rfl
    rw [hslots, hused, hsb]
    exact hs.owns
  · intro j
    rw [hino, hdata]
    by_cases hj : j = i
    · subst hj
      rw [update_self]
      intro _
      rw [hsize]
      exact ⟨Nat.zero_le _, fun bn hbn => absurd hbn (Nat.not_lt_zero _)⟩
    · rw [update_of_ne hj]
      exact hs.below j
  · intro b hb
    rw [hsb] at hb
    exact hdirty b (hs.clean b hb)
  · intro j ht h0
    rw [hino] at ht h0 ⊢
    by_cases hj : j = i
    · subst hj
      rw [update_self] at h0
      exact absurd (hslot .indirect) h0
    · rw [update_of_ne hj] at ht h0 ⊢
      exact hdirty _ (hs.clean_ind j ht h0)
  · intro e he
    obtain ⟨h1, h2, h3⟩ := hcopy e he
    refine ⟨h1, fun _ => ?_⟩
    rw [hvol]
    show _ = Function.update s.vol.dinode i d _
    rwa [update_of_ne h2]

namespace Fs

/-- The effect of changing one entry on the other entries. -/
theorem upd_of_ne (s : Fs) {e e' : Fin NINODE} (h : e' ≠ e) (f : Inode → Inode) :
    (s.upd e f).inode e' = s.inode e' := update_of_ne h _ _

theorem upd_self (s : Fs) (e : Fin NINODE) (f : Inode → Inode) :
    (s.upd e f).inode e = f (s.inode e) := update_self ..

/-- Counting references to an entry up, or down to at least one, keeps the invariant. -/
theorem ref_inv (hs : FsInv s none) (he : 0 < (s.inode e).ref) (f : ℕ → ℕ) :
    FsInv (s.upd e fun ip => { ip with ref := f ip.ref }) none := by
  have hsame : ∀ e', ((s.upd e fun ip => { ip with ref := f ip.ref }).inode e').toDinode =
      (s.inode e').toDinode ∧
      ((s.upd e fun ip => { ip with ref := f ip.ref }).inode e').inum = (s.inode e').inum ∧
      ((s.upd e fun ip => { ip with ref := f ip.ref }).inode e').dev = (s.inode e').dev ∧
      ((s.upd e fun ip => { ip with ref := f ip.ref }).inode e').valid = (s.inode e').valid ∧
      (0 < ((s.upd e fun ip => { ip with ref := f ip.ref }).inode e').ref → 0 < (s.inode e').ref) := by
    intro e'
    by_cases hee : e' = e
    · subst hee
      rw [upd_self]
      exact ⟨rfl, rfl, rfl, rfl, fun _ => he⟩
    · rw [upd_of_ne s hee]
      exact ⟨rfl, rfl, rfl, rfl, id⟩
  refine hs.of_table rfl rfl rfl ?_ ?_ ?_
  · intro e' hr
    obtain ⟨-, h1, h2, -, h3⟩ := hsame e'
    rw [h1, h2]
    exact hs.inum e' (h3 hr)
  · intro e₁ e₂ hr₁ hr₂ heq
    rw [(hsame e₁).2.1, (hsame e₂).2.1] at heq
    exact hs.uniq e₁ e₂ ((hsame e₁).2.2.2.2 hr₁) ((hsame e₂).2.2.2.2 hr₂) heq
  · intro e' hl
    obtain ⟨h0, h1, -, h2, h3⟩ := hsame e'
    have hl' : s.Live e' := ⟨h3 hl.1, by rw [← h2]; exact hl.2⟩
    rw [h0, h1]
    exact ⟨(hs.copy e' hl').1, (hs.copy e' hl').2 (by simp)⟩

/-- A reference to an inode of the disk. -/
def Refers (s : Fs) (e : Fin NINODE) (inum : ℕ) : Prop :=
  0 < (s.inode e).ref ∧ (s.inode e).inum = inum

/-- **`iget`** -/
theorem wp_iget (hs : FsInv s none) (hi : i < s.sb.ninodes) :
    wp (iget i) (fun e t => FsInv t none ∧ t.Refers e i)
      (fun w _ => w = .panic "iget: no inodes") s := by
  unfold iget
  rw [wp_bind, wp_get]
  cases hfind : (List.finRange NINODE).find? fun e =>
      decide (0 < (s.inode e).ref ∧ (s.inode e).dev = ROOTDEV ∧ (s.inode e).inum = i) with
  | some e =>
    have hp := find?_some hfind
    simp only [decide_eq_true_eq] at hp
    obtain ⟨hr, -, hnum⟩ := hp
    simp only [wp_bind, wp_set, wp_pure]
    refine ⟨ref_inv hs hr fun r => r + 1, ?_⟩
    unfold Refers
    rw [upd_self]
    exact ⟨Nat.succ_pos _, hnum⟩
  | none =>
    have hno : ∀ e, 0 < (s.inode e).ref → (s.inode e).inum ≠ i := by
      intro e hr hnum
      have := find?_eq_none.1 hfind e (mem_finRange e)
      exact this (by simpa using ⟨hr, (hs.inum e hr).1, hnum⟩)
    cases hempty : (List.finRange NINODE).find? fun e => decide ((s.inode e).ref = 0) with
    | none => rfl
    | some e =>
      simp only [wp_bind, wp_set, wp_pure]
      set t := s.upd e fun ip => { ip with dev := ROOTDEV, inum := i, ref := 1, valid := false }
        with ht
      have hself : t.inode e =
          { s.inode e with dev := ROOTDEV, inum := i, ref := 1, valid := false } := by
        rw [ht]
        exact upd_self s e _
      have hother : ∀ e', e' ≠ e → t.inode e' = s.inode e' := by
        intro e' hee
        rw [ht]
        exact upd_of_ne s hee _
      refine ⟨hs.of_table rfl rfl rfl ?_ ?_ ?_, ?_⟩
      · intro e' hr
        by_cases hee : e' = e
        · subst hee
          rw [hself]
          exact ⟨rfl, hi⟩
        · rw [hother e' hee] at hr ⊢
          exact hs.inum e' hr
      · intro e₁ e₂ hr₁ hr₂ heq
        by_cases h1 : e₁ = e
        · by_cases h2 : e₂ = e
          · rw [h1, h2]
          · rw [h1, hself, hother e₂ h2] at heq
            rw [hother e₂ h2] at hr₂
            exact absurd heq.symm (hno e₂ hr₂)
        · rw [hother e₁ h1] at hr₁ heq
          by_cases h2 : e₂ = e
          · rw [h2, hself] at heq
            exact absurd heq (hno e₁ hr₁)
          · rw [hother e₂ h2] at hr₂ heq
            exact hs.uniq e₁ e₂ hr₁ hr₂ heq
      · intro e' hl
        by_cases hee : e' = e
        · subst hee
          rw [Live, hself] at hl
          exact absurd hl.2 (by simp)
        · rw [Live, hother e' hee] at hl
          rw [hother e' hee]
          exact ⟨(hs.copy e' hl).1, (hs.copy e' hl).2 (by simp)⟩
      · unfold Refers
        rw [hself]
        exact ⟨Nat.one_pos, rfl⟩

/-- `ilock` of an inode that was read does nothing. -/
theorem ilock_live (h : s.Live e) : ilock e s = .ok () s := by
  unfold ilock
  rw [Prog.bind_of_ok (Prog.get_run _), if_neg (by have := h.1; omega), if_neg (by simp [h.2])]
  rfl

/-- **`ilock`** reads the inode if necessary. -/
theorem wp_ilock (hs : FsInv s none) :
    wp (ilock e) (fun _ t => FsInv t none ∧ t.Live e ∧ t.vol = s.vol)
      (fun w _ => w = .panic "ilock" ∨ w = .panic "ilock: no type") s := by
  unfold ilock
  rw [wp_bind, wp_get]
  by_cases hr : (s.inode e).ref < 1
  · rw [if_pos hr]
    exact Or.inl rfl
  rw [if_neg hr]
  have href : 0 < (s.inode e).ref := by omega
  cases hv : (s.inode e).valid with
  | true =>
    rw [if_neg (by simp)]
    exact ⟨hs, ⟨href, hv⟩, rfl⟩
  | false =>
    rw [if_pos (by rfl), wp_bind, wp_read, wp_bind, wp_modify]
    have hnum := (hs.inum e href).2
    rw [← vol_dinode hnum]
    set d := s.vol.dinode (s.inode e).inum with hd
    set t := s.upd e fun ip => { ip with toDinode := d, valid := true } with ht
    have hself : t.inode e = { s.inode e with toDinode := d, valid := true } := by
      rw [ht]
      exact upd_self s e _
    have hother : ∀ e', e' ≠ e → t.inode e' = s.inode e' := by
      intro e' hee
      rw [ht]
      exact upd_of_ne s hee _
    by_cases htype : d.type = 0
    · rw [if_pos htype]
      exact Or.inr rfl
    rw [if_neg htype]
    have hsame : ∀ e', (t.inode e').inum = (s.inode e').inum ∧
        (t.inode e').ref = (s.inode e').ref ∧ (t.inode e').dev = (s.inode e').dev := by
      intro e'
      by_cases hee : e' = e
      · subst hee
        rw [hself]
        exact ⟨rfl, rfl, rfl⟩
      · rw [hother e' hee]
        exact ⟨rfl, rfl, rfl⟩
    refine ⟨hs.of_table rfl rfl rfl ?_ ?_ ?_, ?_, rfl⟩
    · intro e' hr'
      obtain ⟨h1, h2, h3⟩ := hsame e'
      rw [h1, h3]
      exact hs.inum e' (by rwa [← h2])
    · intro e₁ e₂ hr₁ hr₂ heq
      rw [(hsame e₁).2.1] at hr₁
      rw [(hsame e₂).2.1] at hr₂
      rw [(hsame e₁).1, (hsame e₂).1] at heq
      exact hs.uniq e₁ e₂ hr₁ hr₂ heq
    · intro e' hl
      by_cases hee : e' = e
      · subst hee
        rw [hself]
        exact ⟨htype, rfl⟩
      · rw [Live, hother e' hee] at hl
        rw [hother e' hee]
        exact ⟨(hs.copy e' hl).1, (hs.copy e' hl).2 (by simp)⟩
    · unfold Live
      rw [hself]
      exact ⟨href, rfl⟩

/-- **`ialloc`** takes an inode that has no blocks. -/
theorem wp_ialloc (hs : FsInv s none) (type : BitVec 16) :
    wp (ialloc type) (fun _ t => FsInv t none) (fun w _ => w = .panic "iget: no inodes") s := by
  have key : ∀ fuel i, wp (iallocLoop s.sb type fuel i) (fun _ t => FsInv t none)
      (fun w _ => w = .panic "iget: no inodes") s := by
    intro fuel
    induction fuel with
    | zero => exact fun _ => hs
    | succ fuel ih =>
      intro i
      rw [iallocLoop]
      split_ifs with hi
      swap
      · exact hs
      rw [wp_bind, wp_read]
      split_ifs with hfree
      swap
      · exact ih (i + 1)
      rw [← vol_dinode hi] at hfree
      rw [wp_bind, wp_log, wp_bind]
      have hvol := vol_write_dinode hs.sb hi { Dinode.zero with type := type }
      have hinv : FsInv (s.write (s.sb.iblock i) (encodeDinode (s.view (s.sb.iblock i)) (i % IPB)
          { Dinode.zero with type := type })) none := by
        refine hs.of_dinode rfl hvol ?_ (fun k => if_pos hfree) rfl rfl hs.inum hs.uniq ?_
        · intro b hb
          show Function.update s.dirty _ none b = none
          rw [update_apply, hb, ite_self]
        · -- an entry that was read is not a free inode
          intro e he
          have hcopy := hs.copy e he
          refine ⟨hcopy.1, fun hnum => hcopy.1 ?_, hcopy.2 (by simp)⟩
          have := congrArg Dinode.type (hcopy.2 (by simp))
          rwa [show (s.inode e).inum = i from hnum, hfree] at this
      exact wp_post (wp_iget hinv hi) fun _ t ht => ht.1
  unfold ialloc
  rw [wp_bind, wp_get]
  exact key _ 1

/-- **`iput`** frees the inode when nothing refers to it any more. -/
theorem wp_iput (hs : FsInv s none) (he : 0 < (s.inode e).ref) :
    wp (iput e) (fun _ t => FsInv t none) (fun _ _ => False) s := by
  unfold iput
  rw [wp_bind, wp_get]
  by_cases hlast : (s.inode e).ref = 1 ∧ (s.inode e).valid = true ∧ (s.inode e).nlink = 0
  swap
  · rw [if_neg hlast, wp_modify]
    exact ref_inv hs he fun r => r - 1
  rw [if_pos hlast, wp_bind]
  have hlive : s.Live e := ⟨he, hlast.2.1⟩
  refine wp_post (wp_itrunc hs hlive) fun _ t ht => ?_
  rw [wp_bind, wp_modify, wp_bind]
  refine wp_of_ok (iupdate_run _ e) ?_
  rw [wp_bind, wp_modify, wp_modify]
  set u := t.upd e fun ip => { ip with type := 0 } with hu
  set v := (u.update e).upd e fun ip => { ip with valid := false } with hv
  set w := v.upd e fun ip => { ip with ref := ip.ref - 1 } with hw
  have huself : u.inode e = { t.inode e with type := 0 } := by
    rw [hu]
    exact upd_self t e _
  have hwself : (w.inode e).ref = 0 := by
    rw [hw, upd_self, hv, upd_self]
    show (u.inode e).ref - 1 = 0
    rw [huself, ht.self]
    show (s.inode e).ref - 1 = 0
    omega
  have hwother : ∀ e', e' ≠ e → w.inode e' = s.inode e' := by
    intro e' hee
    rw [hw, upd_of_ne _ hee, hv, upd_of_ne _ hee]
    show u.inode e' = _
    rw [hu, upd_of_ne _ hee, ht.other e' hee]
  have hpos : ∀ e', 0 < (w.inode e').ref → e' ≠ e := by
    rintro e' hr rfl
    omega
  have hvol : w.vol = t.vol.setDinode (s.inode e).inum (u.inode e).toDinode := by
    show (u.update e).vol = _
    have hnum : (u.inode e).inum = (s.inode e).inum := by rw [huself, ht.self]
    rw [vol_update (s := u) ht.inv.sb (by rw [hnum, show u.sb = t.sb from rfl, ht.sb]
                                          exact (hs.inum e he).2), hnum]
    rfl
  refine ht.inv.of_dinode rfl hvol ?_ ?_ ?_ ?_ ?_ ?_ ?_
  · intro b hb
    show Function.update t.dirty _ none b = none
    rw [update_apply, hb, ite_self]
  · intro k
    rw [ht.slots]
    exact if_pos rfl
  · rw [huself, ht.self]
  · rw [huself, ht.self]
  · intro e' hr
    have hee := hpos e' hr
    rw [hwother e' hee] at hr ⊢
    rw [ht.sb]
    exact hs.inum e' hr
  · intro e₁ e₂ hr₁ hr₂ heq
    have h1 := hpos e₁ hr₁
    have h2 := hpos e₂ hr₂
    rw [hwother e₁ h1] at hr₁ heq
    rw [hwother e₂ h2] at hr₂ heq
    exact hs.uniq e₁ e₂ hr₁ hr₂ heq
  · intro e' hl
    have hee := hpos e' hl.1
    rw [Live, hwother e' hee] at hl
    rw [hwother e' hee]
    have hne : (s.inode e').inum ≠ (s.inode e).inum := fun hn => hee (hs.uniq e' e hl.1 he hn)
    refine ⟨(hs.copy e' hl).1, hne, ?_⟩
    rw [ht.dinode, update_of_ne hne]
    exact (hs.copy e' hl).2 (by simp)

/-- Set the fields that `create`, `link` and `unlink` set in a locked inode. -/
def setAttr (e : Fin NINODE) (major minor nlink : BitVec 16) : Prog Fs Unit := do
  Prog.modify fun s => s.upd e fun ip => { ip with major := major, minor := minor, nlink := nlink }
  iupdate e

theorem wp_setAttr (hs : FsInv s none) (he : s.Live e) (major minor nlink : BitVec 16) :
    wp (setAttr e major minor nlink) (fun _ t => FsInv t none) (fun _ _ => False) s := by
  have hlock := hs.lock he
  set d : Dinode := { (s.inode e).toDinode with major := major, minor := minor, nlink := nlink }
    with hd
  set t := s.upd e fun ip => { ip with major := major, minor := minor, nlink := nlink } with ht
  have hself : t.inode e = { s.inode e with toDinode := d } := by
    rw [ht]
    exact upd_self s e _
  have hr : s.Retouched e t :=
    ⟨rfl, fun e' hee => upd_of_ne s hee _, ⟨d, rfl, hself⟩, rfl⟩
  -- the fields that were set are not those that name blocks
  have hino : ∀ i, ∃ a b c, t.ino (some e) i =
      { s.ino (some e) i with major := a, minor := b, nlink := c } := by
    intro i
    by_cases hi : i = (s.inode e).inum
    · subst hi
      refine ⟨major, minor, nlink, ?_⟩
      rw [FsInv.ino_self, ← (hr.same e).1, FsInv.ino_self, hself]
    · exact ⟨_, _, _, hr.ino_of_ne hi⟩
  have hslots : t.slots (some e) = s.slots (some e) := by
    funext p
    obtain ⟨a, b, c, h⟩ := hino p.1
    unfold slots own
    rw [h]
    rfl
  have hinv : FsInv t (some e) := by
    refine hr.inv hlock (by rw [hslots]; exact hlock.owns) ?_ hs.clean ?_
    · intro i
      obtain ⟨a, b, c, h⟩ := hino i
      rw [h]
      exact hlock.below i
    · intro i
      obtain ⟨a, b, c, h⟩ := hino i
      rw [h]
      exact hlock.clean_ind i
  unfold setAttr
  rw [wp_bind, wp_modify]
  exact wp_of_ok (iupdate_run _ e) (hinv.update (by rw [(hr.same e).2.1]; exact he.1))

/-- The buffer of a block is recycled: what was written there and not logged is lost. -/
def recycle (b : ℕ) : Prog Fs Unit :=
  Prog.modify fun s => { s with dirty := Function.update s.dirty b none }

/-- The buffer of a block goes to the disk with a transaction that had logged the block: so does what
was written there later and not logged. -/
def absorb (b : ℕ) : Prog Fs Unit := Prog.modify fun s =>
  { s with disk := Function.update s.disk b (s.view b), dirty := Function.update s.dirty b none }

/-- What was written and not logged may be lost: these are data blocks. -/
theorem forget_inv (hs : FsInv s none) {d : ℕ → Option Block}
    (hdirty : ∀ c, s.dirty c = none → d c = none) :
    FsInv { s with dirty := d } none := by
  set t : Fs := { s with dirty := d } with ht
  have hview : ∀ c, s.dirty c = none → t.view c = s.view c := by
    intro c hc
    unfold view
    rw [show t.dirty c = none from hdirty c hc, hc]
  have hvol : t.vol = { s.vol with data := t.vol.data } := by
    refine Vol.ext (funext fun i => ?_) (funext fun x => ?_) rfl
    · refine vol_dinode_congr rfl fun hi => hview _ (hs.clean _ ?_)
      exact (hs.sb.iblock_lt hi).trans hs.sb.bmapstart_lt
    · exact vol_used_congr rfl fun hx => hview _ (hs.clean _ (hs.sb.bblock_lt hx).2)
  refine (hs.of_data (t := t) rfl rfl hvol ?_ (fun c _ => hdirty c) (fun i _ _ => hdirty _)).1
  exact fun i hti h0 => vol_data_congr rfl fun _ => hview _ (hs.clean_ind i hti h0)

theorem wp_recycle (hs : FsInv s none) (b : ℕ) :
    wp (recycle b) (fun _ t => FsInv t none) (fun _ _ => False) s := by
  unfold recycle
  rw [wp_modify]
  refine forget_inv hs fun c hc => ?_
  rw [update_apply, hc, ite_self]

theorem wp_absorb (hs : FsInv s none) (b : ℕ) :
    wp (absorb b) (fun _ t => FsInv t none) (fun _ _ => False) s := by
  unfold absorb
  rw [wp_modify]
  set t : Fs := { s with
    disk := Function.update s.disk b (s.view b), dirty := Function.update s.dirty b none } with ht
  have hview : ∀ c, t.view c = s.view c := by
    intro c
    rw [ht]
    by_cases hc : c = b
    · subst hc
      simp [view]
    · simp [view, hc]
  have hdirty : ∀ c, s.dirty c = none → t.dirty c = none := by
    intro c hc
    rw [ht]
    show Function.update s.dirty b none c = none
    rw [update_apply, hc, ite_self]
  have hvol : t.vol = { s.vol with data := s.vol.data } := by
    refine Vol.ext (funext fun i => ?_) (funext fun x => ?_) (funext fun x => ?_)
    · exact vol_dinode_congr rfl fun _ => hview _
    · exact vol_used_congr rfl fun _ => hview _
    · exact vol_data_congr rfl fun _ => hview _
  exact (hs.of_data (t := t) rfl rfl hvol (fun _ _ _ => rfl) (fun c _ => hdirty c)
    (fun i _ _ => hdirty _)).1

end Fs

/-! ### Sequences of operations -/

/-- The operations on inodes, each on a locked inode where the code requires that, and what the buffer
cache may do to a buffer in between. -/
inductive InodeOp
  | iget (inum : ℕ)
  | idup (e : Fin NINODE)
  | ialloc (type : BitVec 16)
  | setAttr (e : Fin NINODE) (major minor nlink : BitVec 16)
  | readi (e : Fin NINODE) (sink : ℕ → List Byte → Bool) (off n : BitVec 32)
  | writei (e : Fin NINODE) (src : Source) (off n : BitVec 32)
  | itrunc (e : Fin NINODE)
  | iput (e : Fin NINODE)
  | recycle (b : ℕ)
  | absorb (b : ℕ)

namespace InodeOp

/-- Run an operation. -/
def exec : InodeOp → Prog Fs Unit
  | .iget inum => do let _ ← Fs.iget inum
  | .idup e => Fs.idup e
  | .ialloc type => do let _ ← Fs.ialloc type
  | .setAttr e major minor nlink => do Fs.ilock e; Fs.setAttr e major minor nlink
  | .readi e sink off n => do
    Fs.ilock e
    let _ ← Fs.readi (fun _ tot bytes => ((), sink tot bytes)) () e off n
  | .writei e src off n => do
    Fs.ilock e
    let _ ← Fs.writei src e off n
  | .itrunc e => do Fs.ilock e; Fs.itrunc e
  | .iput e => Fs.iput e
  | .recycle b => Fs.recycle b
  | .absorb b => Fs.absorb b

/-- What the caller holds: a reference to the entry, or the number of an inode of the disk. -/
def held (s : Fs) : InodeOp → Bool
  | .iget inum => inum < s.sb.ninodes
  | .idup e => 0 < (s.inode e).ref
  | .iput e => 0 < (s.inode e).ref
  | _ => true

end InodeOp

/-- The panics an inode operation can end in. -/
def TablePanic (w : Stop) : Prop :=
  w = .panic "iget: no inodes" ∨ w = .panic "ilock" ∨ w = .panic "ilock: no type"

theorem wp_locked {x : Prog Fs Unit} (hs : FsInv s none)
    (hx : ∀ t, FsInv t none → t.Live e → wp x (fun _ u => FsInv u none) (fun _ _ => False) t) :
    wp (do Fs.ilock e; x) (fun _ t => FsInv t none) (fun w _ => TablePanic w) s := by
  rw [wp_bind]
  refine wp_mono (Fs.wp_ilock hs) (fun _ t ht => ?_) (fun w _ hw => Or.inr hw)
  exact wp_mono (hx t ht.1 ht.2.1) (fun _ _ h => h) (fun _ _ hf => hf.elim)

theorem wp_inodeOp (op : InodeOp) (hs : FsInv s none) (hheld : op.held s = true) :
    wp op.exec (fun _ t => FsInv t none) (fun w _ => TablePanic w) s := by
  cases op with
  | iget inum =>
    unfold InodeOp.exec
    rw [wp_bind]
    exact wp_mono (Fs.wp_iget hs (by simpa [InodeOp.held] using hheld)) (fun _ _ h => h.1)
      (fun _ _ hw => Or.inl hw)
  | idup e => exact Fs.ref_inv hs (by simpa [InodeOp.held] using hheld) fun r => r + 1
  | ialloc type =>
    unfold InodeOp.exec
    rw [wp_bind]
    exact wp_mono (Fs.wp_ialloc hs type) (fun _ _ h => h) (fun _ _ hw => Or.inl hw)
  | setAttr e major minor nlink =>
    exact wp_locked hs fun t ht he => Fs.wp_setAttr ht he major minor nlink
  | readi e sink off n =>
    refine wp_locked hs fun t ht he => ?_
    refine wp_seq (Fs.wp_readi ht he () off n) fun _ u hu => ?_
    subst hu
    exact ht
  | writei e src off n =>
    refine wp_locked hs fun t ht he => ?_
    exact wp_seq (Fs.wp_writei (f := fun _ => 0) ht he off n) fun _ u hu => hu.1
  | itrunc e =>
    exact wp_locked hs fun t ht he => wp_post (Fs.wp_itrunc ht he) fun _ u hu => hu.inv
  | iput e =>
    exact wp_mono (Fs.wp_iput hs (by simpa [InodeOp.held] using hheld)) (fun _ _ h => h)
      (fun _ _ hf => hf.elim)
  | recycle b => exact wp_mono (Fs.wp_recycle hs b) (fun _ _ h => h) (fun _ _ hf => hf.elim)
  | absorb b => exact wp_mono (Fs.wp_absorb hs b) (fun _ _ h => h) (fun _ _ hf => hf.elim)

/-- **Block ownership.**  Every sequence of inode operations keeps the invariant, and in every state
it reaches `readi` leaves the file system as it is.  A sequence that stops does so for the inode table
and not because a free block was freed. -/
theorem block_ownership (hs : FsInv s none) {ops : List InodeOp}
    (hops : Along (fun s op => op.held s = true) InodeOp.exec ops s) :
    (∀ t, runs InodeOp.exec ops s = .ok () t → FsInv t none ∧
      ∀ (τ : Type) (sink : τ → ℕ → List Byte → τ × Bool) (a : τ) (e : Fin NINODE)
        (off n : BitVec 32), t.Live e → ∃ r, Fs.readi sink a e off n t = .ok r t) ∧
    ∀ w t, runs InodeOp.exec ops s = .stop w t →
      TablePanic w ∧ w ≠ .panic "freeing free block" := by
  have hrun := wp_runs (fun op s h hheld => wp_inodeOp op h hheld) hs hops
  refine ⟨fun t ht => ?_, fun w t hw => ?_⟩
  · have hinv := wp_ok hrun ht
    refine ⟨hinv, fun τ sink a e off n he => ?_⟩
    have hread : wp (Fs.readi sink a e off n) (fun _ u => u = t) (fun _ _ => False) t :=
      Fs.wp_readi hinv he a off n
    obtain ⟨r, u, hr, rfl⟩ := wp_returns hread fun _ _ hf => hf
    exact ⟨r, hr⟩
  · have hpanic := wp_stop hrun hw
    refine ⟨hpanic, ?_⟩
    rcases hpanic with rfl | rfl | rfl <;> decide

/-- A disk without files, with the bits of the blocks in use. -/
def blankFs (sb : Superblock) (bits : Block) : Fs where
  sb := sb
  disk := fun b => if b = sb.bmapstart then bits else fun _ => 0
  dirty := fun _ => none
  logged := []
  inode := fun _ => ⟨Dinode.zero, 0, 0, 0, false⟩

/-- The invariant holds of a disk without files, if the bits are those of the metadata blocks. -/
theorem blankFs_inv {sb : Superblock} {bits : Block} (hsb : sb.Ok)
    (hblk : ∀ i < sb.ninodes, sb.iblock i ≠ sb.bmapstart)
    (hbits : ∀ x < sb.size, (blankFs sb bits).vol.used x = decide (x < sb.dataStart)) :
    FsInv (blankFs sb bits) none := by
  have htype : ∀ i, ((blankFs sb bits).ino none i).type = 0 := by
    intro i
    show ((blankFs sb bits).vol.dinode i).type = 0
    by_cases hi : i < sb.ninodes
    · rw [Fs.vol_dinode hi]
      show BitVec.ofNat 16 (Bytes.getLE 2 (if sb.iblock i = sb.bmapstart then bits else fun _
        => 0 : Block) _) = 0
      rw [if_neg (hblk i hi), Bytes.getLE_zero]
      rfl
    · rw [Fs.vol_dinode_of_not hi]
      rfl
  constructor
  case sb => exact hsb
  case owns =>
    have hslots : (blankFs sb bits).slots none = fun _ => 0 := funext fun p => if_pos (htype p.1)
    rw [hslots]
    refine ⟨hsb.dataStart_pos, fun _ h => absurd rfl h, fun _ _ h => absurd rfl h, fun x hx => ?_⟩
    rw [hbits x hx, decide_eq_true_eq]
    constructor
    · exact Or.inl
    · rintro (h | ⟨-, h⟩)
      · exact h
      · exact h ▸ hsb.dataStart_pos
  case below => exact fun i ht => absurd (htype i) ht
  case clean => exact fun _ _ => rfl
  case clean_ind => exact fun _ _ _ => rfl
  case inum => exact fun _ h => absurd h (Nat.lt_irrefl 0)
  case uniq => exact fun _ _ h => absurd h (Nat.lt_irrefl 0)
  case copy => exact fun _ h => absurd h.1 (Nat.lt_irrefl 0)

/-- A disk of ten blocks without files: the bits of the five metadata blocks are set. -/
def emptyFs : Fs := blankFs ⟨10, 5, 16, 0, 2, 2, 4⟩ fun k => if k.val = 0 then 31 else 0

theorem emptyFs_inv : FsInv emptyFs none :=
  blankFs_inv ⟨by decide, by decide, by decide⟩ (by decide) (by decide +kernel)

/-- What is made of a disk by inode operations keeps the invariant. -/
theorem inv_of_runs {s : Fs} {ops : List InodeOp} (hs : FsInv s none)
    (hok : (runs InodeOp.exec ops s).stopped = none)
    (hheld : alongB (fun s op => op.held s) InodeOp.exec ops s = true) :
    FsInv (runs InodeOp.exec ops s).state none := by
  have hrun := wp_runs (fun op s h hheld => wp_inodeOp op h hheld) hs (along_of_alongB hheld)
  have hinv := wp_ok hrun (Res.eq_ok_of_stopped hok)
  exact hinv

/-- A source that delivers `k` bytes in all and then fails. -/
def sourceOf (k : ℕ) : Source where
  copyin := fun tot m => (List.replicate (min m (k - tot)) 7, decide (tot + m ≤ k))
  length_le := fun tot m => by simp
  length_eq := fun tot m h => by
    have : tot + m ≤ k := by simpa using h
    simp only [length_replicate]
    omega

/-- A file is made, written until the disk is full, written from a failing source, truncated and
removed. -/
def fileOps : List InodeOp :=
  [.ialloc 2, .writei 0 (sourceOf 8000) 0 8000, .writei 0 (sourceOf 1500) 100 3000, .idup 0,
    .readi 0 (fun _ _ => true) 0 9000, .iput 0, .recycle 6, .itrunc 0, .iput 0]

theorem fileOps_held : alongB (fun s op => op.held s) InodeOp.exec fileOps emptyFs = true := by
  decide +kernel

theorem block_ownership_fileOps :
    (∀ t, runs InodeOp.exec fileOps emptyFs = .ok () t → FsInv t none ∧
      ∀ (τ : Type) (sink : τ → ℕ → List Byte → τ × Bool) (a : τ) (e : Fin NINODE)
        (off n : BitVec 32), t.Live e → ∃ r, Fs.readi sink a e off n t = .ok r t) ∧
    ∀ w t, runs InodeOp.exec fileOps emptyFs = .stop w t →
      TablePanic w ∧ w ≠ .panic "freeing free block" :=
  block_ownership emptyFs_inv (along_of_alongB fileOps_held)

end Xv6
