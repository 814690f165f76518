import Xv6.Fs.Contents

/-!
# Freeing the blocks of an inode: `itrunc`

`itrunc` frees the blocks one by one.  In between, the indirect block still lists entries that are
free already, so the slots that count are those of the inode at the start without the ones that are
gone (`Freed`).  When all are gone, clearing the size and copying the inode to disk gives the
invariant back.
-/

namespace Xv6

open Stateful Function

/-- The slot of an address of the inode. -/
def Slot.ofAddr (j : Fin (NDIRECT + 1)) : Slot :=
  if h : j.val < NDIRECT then .direct ⟨j, h⟩ else .indirect

theorem Slot.ofAddr_indirect : Slot.ofAddr Fs.indirectSlot = .indirect := rfl

theorem Dinode.slot_ofAddr (d : Dinode) (data : ℕ → Block) (j : Fin (NDIRECT + 1)) :
    d.slot data (Slot.ofAddr j) = (d.addrs j).toNat := by
  unfold Slot.ofAddr
  split_ifs with h
  · rfl
  · have hj : j = Fs.indirectSlot := Fin.ext (by
      have := j.isLt
      show j.val = NDIRECT
      omega)
    rw [hj]
    rfl

theorem Slot.ofAddr_inj {i j : Fin (NDIRECT + 1)} (h : Slot.ofAddr i = Slot.ofAddr j) : i = j := by
  unfold Slot.ofAddr at h
  have hi := i.isLt
  have hj := j.isLt
  split_ifs at h with h1 h2
  · simpa [Fin.ext_iff] using h
  · exact Fin.ext (by omega)

namespace Fs

variable {s t u : Fs} {e : Fin NINODE} {k : Slot} {gone : Slot → Bool}

/-- The slots that are left when some slots of one inode are gone. -/
def left (own : ℕ × Slot → ℕ) (i : ℕ) (gone : Slot → Bool) (p : ℕ × Slot) : ℕ :=
  if p.1 = i ∧ gone p.2 = true then 0 else own p

theorem left_update (own : ℕ × Slot → ℕ) (i : ℕ) (gone : Slot → Bool) (k : Slot) :
    left own i (Function.update gone k true) = Function.update (left own i gone) (i, k) 0 := by
  funext p
  obtain ⟨j, l⟩ := p
  by_cases hp : (j, l) = (i, k)
  · obtain ⟨rfl, rfl⟩ := Prod.mk.inj hp
    rw [update_self]
    exact if_pos ⟨rfl, update_self ..⟩
  · rw [update_of_ne hp]
    unfold left
    by_cases hl : l = k
    · have hj : j ≠ i := fun hj => hp (by rw [hj, hl])
      rw [if_neg fun h => hj h.1, if_neg fun h => hj h.1]
    · simp only [update_of_ne hl]

/-- The blocks in the slots that are gone have been freed. -/
structure Freed (e : Fin NINODE) (gone : Slot → Bool) (s t : Fs) : Prop where
  sb : t.sb = s.sb
  other : ∀ e', e' ≠ e → t.inode e' = s.inode e'
  self : ∃ a, t.inode e = { s.inode e with addrs := a }
  addrs : ∀ j, (t.inode e).addrs j =
    if gone (Slot.ofAddr j) = true then 0 else (s.inode e).addrs j
  dinode : t.vol.dinode = s.vol.dinode
  data : t.vol.data = s.vol.data
  dirty : ∀ b, s.dirty b = none → t.dirty b = none
  owns : Owns (left (s.slots (some e)) (s.inode e).inum gone) t.vol.used s.sb.dataStart s.sb.size

namespace Freed

theorem refl (hs : FsInv s (some e)) : Freed e (fun _ => false) s s where
  sb := rfl
  other := fun _ _ => rfl
  self := ⟨_, rfl⟩
  addrs := fun _ => (if_neg (by simp)).symm
  dinode := rfl
  data := rfl
  dirty := fun _ h => h
  owns := by
    have : left (s.slots (some e)) (s.inode e).inum (fun _ => false) = s.slots (some e) :=
      funext fun p => if_neg (by simp)
    rw [this]
    exact hs.owns

theorem congr (h : Freed e gone s t) (htype : (s.inode e).type ≠ 0) {gone' : Slot → Bool}
    (hg : ∀ k, gone' k ≠ gone k → s.slots (some e) ((s.inode e).inum, k) = 0) :
    Freed e gone' s t := by
  refine { h with addrs := fun j => ?_, owns := ?_ }
  · by_cases heq : gone' (Slot.ofAddr j) = gone (Slot.ofAddr j)
    · rw [heq]
      exact h.addrs j
    · have h0 := hg _ heq
      rw [FsInv.slots_self htype, Dinode.slot_ofAddr] at h0
      have hz : (s.inode e).addrs j = 0 := BitVec.eq_of_toNat_eq h0
      rw [h.addrs j, hz, ite_self, ite_self]
  · have : left (s.slots (some e)) (s.inode e).inum gone' =
        left (s.slots (some e)) (s.inode e).inum gone := by
      funext p
      unfold left
      by_cases hp : p.1 = (s.inode e).inum
      · by_cases heq : gone' p.2 = gone p.2
        · rw [heq]
        · have h0 := hg _ heq
          rw [← hp] at h0
          have h0' : s.slots (some e) p = 0 := h0
          rw [h0', ite_self, ite_self]
      · rw [if_neg fun h => hp h.1, if_neg fun h => hp h.1]
    rw [this]
    exact h.owns

theorem bfree_run (h : Freed e gone s t) (hsb : s.sb.Ok) (hk : gone k = false) {x : ℕ}
    (hx : s.slots (some e) ((s.inode e).inum, k) = x) (h0 : x ≠ 0) :
    bfree x t = .ok () (t.release x) ∧
      Owns (left (s.slots (some e)) (s.inode e).inum (Function.update gone k true))
        (t.release x).vol.used s.sb.dataStart s.sb.size ∧
      (t.release x).vol.dinode = s.vol.dinode ∧ (t.release x).vol.data = s.vol.data ∧
      ∀ b, s.dirty b = none → (t.release x).dirty b = none := by
  have hleft : left (s.slots (some e)) (s.inode e).inum gone ((s.inode e).inum, k) = x := by
    rw [← hx]
    exact if_neg (by simp [hk])
  have hne : left (s.slots (some e)) (s.inode e).inum gone ((s.inode e).inum, k) ≠ 0 := by
    rwa [hleft]
  have hrange := h.owns.range _ hne
  have hused := h.owns.used_own hne
  rw [hleft] at hrange hused
  have hvol := vol_release (s := t) (by rwa [h.sb]) (by rw [h.sb]; exact hrange.2)
  refine ⟨Fs.bfree_run (by rw [h.sb]; exact hrange.2) hused, ?_, ?_, ?_, ?_⟩
  · rw [hvol, left_update]
    have := h.owns.release hne
    rwa [hleft] at this
  · rw [hvol]
    exact h.dinode
  · rw [hvol]
    exact h.data
  · intro b hb
    show Function.update t.dirty _ none b = none
    rw [update_apply, h.dirty b hb, ite_self]

end Freed

theorem wp_truncSlot (h : Freed e gone s t) (hs : FsInv s (some e)) (he : s.Live e)
    {j : Fin (NDIRECT + 1)} (hj : gone (Slot.ofAddr j) = false) :
    wp (truncSlot e j) (fun _ => Freed e (Function.update gone (Slot.ofAddr j) true) s)
      (fun _ _ => False) t := by
  have htype := (hs.copy e he).1
  have haddr : (t.inode e).addrs j = (s.inode e).addrs j := by
    rw [h.addrs, hj]
    exact if_neg (by simp)
  have hslot : s.slots (some e) ((s.inode e).inum, Slot.ofAddr j) = ((s.inode e).addrs j).toNat := by
    rw [FsInv.slots_self htype, Dinode.slot_ofAddr]
  unfold truncSlot
  rw [wp_bind, wp_get]
  dsimp only
  rw [haddr]
  by_cases h0 : ((s.inode e).addrs j).toNat = 0
  · rw [if_neg (by simpa using h0)]
    refine h.congr htype fun k hk => ?_
    by_cases hkj : k = Slot.ofAddr j
    · subst hkj
      rwa [hslot]
    · exact absurd (update_of_ne hkj _ _) hk
  · obtain ⟨hrun, howns, hdin, hdata, hdirty⟩ := h.bfree_run hs.sb hj hslot h0
    rw [if_pos h0, wp_bind]
    refine wp_of_ok hrun ?_
    obtain ⟨a, ha⟩ := h.self
    unfold setAddr
    rw [wp_modify]
    -- the release does not touch the table
    refine
      { sb := h.sb, other := fun e' hne => ?_, self := ⟨Function.update a j 0, ?_⟩,
        addrs := fun i => ?_, dinode := hdin, data := hdata, dirty := hdirty, owns := howns }
    · rw [← h.other e' hne]
      exact update_of_ne hne _ _
    · refine (update_self ..).trans ?_
      show ({ t.inode e with addrs := Function.update (t.inode e).addrs j 0 } : Inode) = _
      rw [ha]
    · show (Function.update (t.release _).inode e _ e).addrs i = _
      rw [update_self]
      show Function.update (t.inode e).addrs j 0 i = _
      by_cases hij : i = j
      · subst hij
        rw [update_self, update_self, if_pos rfl]
      · rw [update_of_ne hij, h.addrs i,
          update_of_ne fun hk => hij (Slot.ofAddr_inj hk)]

/-- The slots that are gone when the first `d` direct blocks and the first `m` entries are. -/
def goneUpTo (d m : ℕ) : Slot → Bool
  | .direct k => decide (k.val < d)
  | .indirect => false
  | .entry j => decide (j.val < m)

theorem ofAddr_ofNat {d : ℕ} (hd : d < NDIRECT) :
    Slot.ofAddr (Fin.ofNat (NDIRECT + 1) d) = .direct ⟨d, hd⟩ := by
  have hval : (Fin.ofNat (NDIRECT + 1) d).val = d := Nat.mod_eq_of_lt (by omega)
  unfold Slot.ofAddr
  rw [dif_pos (by rwa [hval])]
  simp only [hval]

theorem goneUpTo_direct {d m : ℕ} (hd : d < NDIRECT) :
    Function.update (goneUpTo d m) (Slot.ofAddr (Fin.ofNat (NDIRECT + 1) d)) true =
      goneUpTo (d + 1) m := by
  rw [ofAddr_ofNat hd]
  funext k
  by_cases hk : k = .direct ⟨d, hd⟩
  · subst hk
    rw [update_self]
    simp [goneUpTo]
  · rw [update_of_ne hk]
    cases k with
    | direct l =>
      have hl : l.val ≠ d := fun h => hk (congrArg Slot.direct (Fin.ext h))
      simp only [goneUpTo, decide_eq_decide]
      omega
    | indirect => rfl
    | entry l => rfl

theorem goneUpTo_entry {d m : ℕ} (hm : m < NINDIRECT) :
    Function.update (goneUpTo d m) (.entry ⟨m, hm⟩) true = goneUpTo d (m + 1) := by
  funext k
  by_cases hk : k = .entry ⟨m, hm⟩
  · subst hk
    rw [update_self]
    simp [goneUpTo]
  · rw [update_of_ne hk]
    cases k with
    | direct l => rfl
    | indirect => rfl
    | entry l =>
      have hl : l.val ≠ m := fun h => hk (congrArg Slot.entry (Fin.ext h))
      simp only [goneUpTo, decide_eq_decide]
      omega

/-- The loop over the indirect block; `b` is that block as it was at the start. -/
theorem wp_truncEntries (hs : FsInv s (some e)) (he : s.Live e) (hind : (s.inode e).ind ≠ 0)
    {d fuel m : ℕ} (hm : m + fuel = NINDIRECT) (h : Freed e (goneUpTo d m) s t) :
    wp (truncEntries (s.vol.data (s.inode e).ind) fuel m)
      (fun _ => Freed e (goneUpTo d NINDIRECT) s) (fun _ _ => False) t := by
  induction fuel generalizing m t with
  | zero =>
    have hm' : m = NINDIRECT := by omega
    subst hm'
    exact h
  | succ fuel ih =>
    have hlt : m < NINDIRECT := by omega
    have htype := (hs.copy e he).1
    have hslot : s.slots (some e) ((s.inode e).inum, .entry ⟨m, hlt⟩) =
        (s.vol.data (s.inode e).ind).getLE 4 (4 * m) := by
      rw [FsInv.slots_self htype]
      exact if_neg hind
    rw [truncEntries]
    by_cases h0 : (s.vol.data (s.inode e).ind).getLE 4 (4 * m) = 0
    · rw [if_neg (by simpa using h0)]
      refine ih (by omega) (h.congr htype fun k hk => ?_)
      rw [← goneUpTo_entry hlt] at hk
      by_cases hkm : k = .entry ⟨m, hlt⟩
      · subst hkm
        rwa [hslot]
      · exact absurd (update_of_ne hkm _ _) hk
    · have hnot : goneUpTo d m (.entry ⟨m, hlt⟩) = false := by simp [goneUpTo]
      obtain ⟨hrun, howns, hdin, hdata, hdirty⟩ := h.bfree_run hs.sb hnot hslot h0
      rw [if_pos h0, wp_bind]
      refine wp_of_ok hrun (ih (by omega) ?_)
      rw [goneUpTo_entry hlt] at howns
      have haddr : ∀ j, goneUpTo d (m + 1) (Slot.ofAddr j) = goneUpTo d m (Slot.ofAddr j) := by
        intro j
        unfold Slot.ofAddr
        split_ifs <;> rfl
      exact
        { sb := h.sb, other := h.other, self := h.self, addrs := fun j => by rw [haddr]; exact h.addrs j,
          dinode := hdin, data := hdata, dirty := hdirty, owns := howns }

/-- The state after `itrunc`. -/
structure Truncated (e : Fin NINODE) (s t : Fs) : Prop where
  inv : FsInv t none
  sb : t.sb = s.sb
  other : ∀ e', e' ≠ e → t.inode e' = s.inode e'
  self : t.inode e = { s.inode e with addrs := fun _ => 0, size := 0 }
  dinode : t.vol.dinode = Function.update s.vol.dinode (s.inode e).inum (t.inode e).toDinode
  slots : t.slots none = fun p => if p.1 = (s.inode e).inum then 0 else s.slots none p
  data : t.vol.data = s.vol.data

/-- When all slots are gone, the inode is cleared and goes to disk. -/
theorem Freed.finish (h : Freed e (fun _ => true) s t) (hs : FsInv s none) (he : s.Live e) :
    Truncated e s ((t.setSize e 0).update e) := by
  have hlock := hs.lock he
  have hself : (t.setSize e 0).inode e = { s.inode e with addrs := fun _ => 0, size := 0 } := by
    obtain ⟨a, ha⟩ := h.self
    have haddr : a = fun _ => 0 := by
      funext j
      have := h.addrs j
      rw [ha] at this
      simpa using this
    rw [setSize_self, ha, haddr]
    rfl
  have hother : ∀ e', e' ≠ e → (t.setSize e 0).inode e' = s.inode e' := by
    intro e' hne
    rw [← h.other e' hne]
    exact update_of_ne hne _ _
  set v := t.setSize e 0 with hv
  have hdata : v.vol.data = s.vol.data := h.data
  have hr : s.Retouched e v :=
    ⟨h.sb, hother, ⟨{ (s.inode e).toDinode with addrs := fun _ => 0, size := 0 }, rfl, hself⟩,
      h.dinode⟩
  have hino : v.ino (some e) (s.inode e).inum =
      { (s.inode e).toDinode with addrs := fun _ => 0, size := 0 } := by
    rw [← (hr.same e).1, FsInv.ino_self, hself]
  have hslots : v.slots (some e) = left (s.slots (some e)) (s.inode e).inum fun _ => true := by
    funext p
    obtain ⟨i, k⟩ := p
    unfold left
    by_cases hi : i = (s.inode e).inum
    · subst hi
      rw [if_pos ⟨rfl, rfl⟩]
      unfold Fs.slots own
      simp only [hino]
      cases k with
      | direct k => simp [Dinode.slot]
      | indirect => simp [Dinode.slot, Dinode.ind]
      | entry j => simp [Dinode.slot, Dinode.ind]
    · rw [if_neg fun h => hi h.1]
      unfold Fs.slots own
      simp only [hr.ino_of_ne hi, hdata]
  have hinv : FsInv v (some e) := by
    refine hr.inv hlock (by rw [hslots]; exact h.owns) ?_ (fun b hb => h.dirty b (hs.clean b hb)) ?_
    · intro i
      by_cases hi : i = (s.inode e).inum
      · subst hi
        rw [hino]
        exact fun _ => ⟨Nat.zero_le _, fun bn hbn => absurd hbn (Nat.not_lt_zero _)⟩
      · rw [hr.ino_of_ne hi, hdata]
        exact hlock.below i
    · intro i ht h0
      by_cases hi : i = (s.inode e).inum
      · subst hi
        rw [hino] at h0
        exact absurd rfl h0
      · rw [hr.ino_of_ne hi] at ht h0 ⊢
        exact h.dirty _ (hlock.clean_ind i ht h0)
  have href : 0 < (v.inode e).ref := by rw [hself]; exact he.1
  refine
    { inv := hinv.update href, sb := h.sb, other := hother, self := hself, dinode := ?_, slots := ?_,
      data := (hinv.update_data href).trans hdata }
  · rw [vol_update hinv.sb (hinv.inum e href).2]
    show Function.update v.vol.dinode (v.inode e).inum _ = _
    rw [hr.dinode, (hr.same e).1]
    rfl
  · rw [hinv.update_slots href, hslots, hs.lock_slots he]
    funext p
    unfold left
    simp only [and_true]

/-- **`itrunc`** frees every block of the file and never frees a free block. -/
theorem wp_itrunc (hs : FsInv s none) (he : s.Live e) :
    wp (itrunc e) (fun _ => Truncated e s) (fun _ _ => False) s := by
  have hlock := hs.lock he
  have htype := (hs.copy e he).1
  unfold itrunc
  rw [wp_bind]
  have hloop : wp (Prog.forRange 0 NDIRECT fun i => truncSlot e (Fin.ofNat (NDIRECT + 1) i))
      (fun _ => Freed e (goneUpTo (0 + NDIRECT) 0) s) (fun _ _ => False) s := by
    refine wp_forRange (fun i t => Freed e (goneUpTo i 0) s t) ?_ ?_
    · refine (Freed.refl hlock).congr htype fun k hk => absurd ?_ hk
      cases k <;> simp [goneUpTo]
    · intro i t _ hi h
      have hi' : i < NDIRECT := by omega
      have hnot : goneUpTo i 0 (Slot.ofAddr (Fin.ofNat (NDIRECT + 1) i)) = false := by
        rw [ofAddr_ofNat hi']
        simp [goneUpTo]
      have := wp_truncSlot h hlock he hnot
      rwa [goneUpTo_direct hi'] at this
  refine wp_post hloop fun _ t ht => ?_
  rw [Nat.zero_add] at ht
  have haddr : (t.inode e).addrs indirectSlot = (s.inode e).addrs indirectSlot := by
    rw [ht.addrs]
    exact if_neg (by simp [Slot.ofAddr_indirect, goneUpTo])
  rw [wp_bind, wp_get]
  dsimp only
  rw [haddr]
  -- what is left to do once all slots are gone
  have hfin : ∀ u, Freed e (fun _ => true) s u →
      wp (do Prog.modify fun s => s.upd e fun ip => { ip with size := 0 }
             iupdate e) (fun _ => Truncated e s) (fun _ _ => False) u := by
    intro u hu
    rw [wp_bind, wp_modify]
    exact wp_of_ok (iupdate_run _ e) (hu.finish hs he)
  by_cases h0 : ((s.inode e).addrs indirectSlot).toNat = 0
  · rw [if_neg (by simpa using h0)]
    refine hfin t (ht.congr htype fun k hk => ?_)
    rw [FsInv.slots_self htype]
    cases k with
    | direct k => exact absurd (by simp [goneUpTo]) hk
    | indirect => exact h0
    | entry j => exact if_pos h0
  · rw [if_pos h0, wp_bind, wp_read, wp_bind]
    have hrange := hlock.slot_range (p := ((s.inode e).inum, .indirect))
      (by rwa [FsInv.slots_self htype])
    rw [FsInv.slots_self htype] at hrange
    have hview : t.view ((s.inode e).addrs indirectSlot).toNat = s.vol.data (s.inode e).ind := by
      rw [← ht.data]
      exact (vol_data (by rwa [ht.sb])).symm
    rw [hview]
    refine wp_post (wp_truncEntries hlock he h0 (Nat.zero_add _) ht) fun _ u hu => ?_
    refine wp_seq (wp_truncSlot hu hlock he rfl) fun _ w hw => ?_
    refine hfin w (hw.congr htype fun k hk => absurd ?_ hk)
    cases k with
    | direct k => simp [Slot.ofAddr_indirect, goneUpTo]
    | indirect => simp [Slot.ofAddr_indirect]
    | entry j => simp [Slot.ofAddr_indirect, goneUpTo]

end Fs

end Xv6
