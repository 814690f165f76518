import Xv6.Fs.Slots

/-!
# The invariant of the file system

`FsInv` says that every allocated block has one owner, a slot of an allocated inode, that the bitmap
marks exactly the metadata and the owned blocks, that files have all their blocks below their size,
and that the table entries in use are copies of different disk inodes.  While a function works on a
locked inode its in-memory copy is ahead of the disk: `FsInv s (some e)` reads the inode of entry `e`
from the table instead.  `Grow` says what mapping blocks may change.
-/

namespace Xv6

open Stateful Function List

namespace Fs

/-- The inodes, with that of a locked entry as it is in memory. -/
def ino (s : Fs) (ov : Option (Fin NINODE)) : ℕ → Dinode :=
  match ov with
  | some e => Function.update s.vol.dinode (s.inode e).inum (s.inode e).toDinode
  | none => s.vol.dinode

/-- The block numbers in all slots. -/
def slots (s : Fs) (ov : Option (Fin NINODE)) : ℕ × Slot → ℕ := own (s.ino ov) s.vol.data

/-- A table entry somebody refers to and has read from disk. -/
def Live (s : Fs) (e : Fin NINODE) : Prop := 0 < (s.inode e).ref ∧ (s.inode e).valid = true

end Fs

/-- The invariant; `ov` is the entry whose in-memory copy is ahead of the disk. -/
structure FsInv (s : Fs) (ov : Option (Fin NINODE)) : Prop where
  sb : s.sb.Ok
  /-- Every block has one owner and the bitmap is exact. -/
  owns : Owns (s.slots ov) s.vol.used s.sb.dataStart s.sb.size
  /-- Files have their blocks. -/
  below : ∀ i, (s.ino ov i).Below s.vol.data
  /-- Metadata and indirect blocks have no modification that is not logged. -/
  clean : ∀ b < s.sb.dataStart, s.dirty b = none
  clean_ind : ∀ i, (s.ino ov i).type ≠ 0 → (s.ino ov i).ind ≠ 0 → s.dirty (s.ino ov i).ind = none
  /-- The table refers to inodes of the disk, to each by one entry. -/
  inum : ∀ e, 0 < (s.inode e).ref → (s.inode e).dev = ROOTDEV ∧ (s.inode e).inum < s.sb.ninodes
  uniq : ∀ e e', 0 < (s.inode e).ref → 0 < (s.inode e').ref →
    (s.inode e).inum = (s.inode e').inum → e = e'
  /-- An entry that was read is an allocated inode, and a copy of it. -/
  copy : ∀ e, s.Live e → (s.inode e).type ≠ 0 ∧
    (ov ≠ some e → (s.inode e).toDinode = s.vol.dinode (s.inode e).inum)

namespace FsInv

variable {s t : Fs} {e : Fin NINODE} {x b : ℕ}

/-- An entry that was read stands for the inode on disk. -/
theorem lock_ino (h : FsInv s none) (he : s.Live e) : s.ino (some e) = s.ino none := by
  show Function.update s.vol.dinode _ _ = s.vol.dinode
  rw [(h.copy e he).2 (by simp), update_eq_self]

theorem lock_slots (h : FsInv s none) (he : s.Live e) : s.slots (some e) = s.slots none := by
  rw [Fs.slots, Fs.slots, h.lock_ino he]

theorem lock (h : FsInv s none) (he : s.Live e) : FsInv s (some e) :=
  { h with
    owns := by rw [h.lock_slots he]; exact h.owns
    below := by rw [h.lock_ino he]; exact h.below
    clean_ind := by rw [h.lock_ino he]; exact h.clean_ind
    copy := fun e' he' => ⟨(h.copy e' he').1, fun _ => (h.copy e' he').2 (by simp)⟩ }

/-- The inode an entry stands for, while it is worked on. -/
theorem ino_self (s : Fs) (e : Fin NINODE) :
    s.ino (some e) (s.inode e).inum = (s.inode e).toDinode := update_self ..

/-- Copying the entry to disk makes the disk agree with it. -/
theorem update_ino (h : FsInv s (some e)) (he : 0 < (s.inode e).ref) :
    (s.update e).ino none = s.ino (some e) := by
  show (s.update e).vol.dinode = _
  rw [Fs.vol_update h.sb (h.inum e he).2]
  rfl

theorem update_data (h : FsInv s (some e)) (he : 0 < (s.inode e).ref) :
    (s.update e).vol.data = s.vol.data := by
  rw [Fs.vol_update h.sb (h.inum e he).2]
  rfl

theorem update_slots (h : FsInv s (some e)) (he : 0 < (s.inode e).ref) :
    (s.update e).slots none = s.slots (some e) := by
  rw [Fs.slots, Fs.slots, h.update_ino he, h.update_data he]

theorem update (h : FsInv s (some e)) (he : 0 < (s.inode e).ref) : FsInv (s.update e) none := by
  have hvol := Fs.vol_update h.sb (h.inum e he).2
  have hino := h.update_ino he
  have hdata := h.update_data he
  have hslots := h.update_slots he
  have hdirty : ∀ c, s.dirty c = none → (s.update e).dirty c = none := by
    intro c hc
    show Function.update s.dirty _ none c = none
    rw [update_apply, hc, ite_self]
  refine
    { sb := h.sb, owns := ?_, below := ?_, clean := fun c hc => hdirty c (h.clean c hc)
      clean_ind := ?_, inum := h.inum, uniq := h.uniq, copy := ?_ }
  · have hused : (s.update e).vol.used = s.vol.used := by rw [hvol]; rfl
    rw [hslots, hused]
    exact h.owns
  · rw [hino, hdata]
    exact h.below
  · rw [hino]
    exact fun i h1 h2 => hdirty _ (h.clean_ind i h1 h2)
  · intro e' he'
    refine ⟨(h.copy e' he').1, fun _ => ?_⟩
    rw [hvol]
    show (s.inode e').toDinode =
      Function.update s.vol.dinode (s.inode e).inum (s.inode e).toDinode (s.inode e').inum
    by_cases hee : e' = e
    · subst hee
      rw [update_self]
    · have hne : (s.inode e').inum ≠ (s.inode e).inum := fun hn => hee (h.uniq _ _ he'.1 he hn)
      rw [update_of_ne hne]
      exact (h.copy e' he').2 fun hs => hee (Option.some.inj hs).symm

theorem slot_range {ov : Option (Fin NINODE)} (h : FsInv s ov) {p : ℕ × Slot}
    (hp : s.slots ov p ≠ 0) : s.sb.dataStart ≤ s.slots ov p ∧ s.slots ov p < s.sb.size :=
  h.owns.range p hp

theorem lt_word (h : s.sb.Ok) (hx : x < s.sb.size) : x < 2 ^ 32 := by
  have := h.size_lt
  omega

theorem slots_self (h : (s.inode e).type ≠ 0) (k : Slot) :
    s.slots (some e) ((s.inode e).inum, k) = (s.inode e).toDinode.slot s.vol.data k := by
  have : (s.ino (some e) (s.inode e).inum).type ≠ 0 := by rwa [ino_self]
  rw [Fs.slots, own_of_type this, ino_self]

theorem ind_ne_free {ov : Option (Fin NINODE)} (h : FsInv s ov) (hx : x < s.sb.size)
    (hu : s.vol.used x = false) {i : ℕ} (ht : (s.ino ov i).type ≠ 0) : (s.ino ov i).ind ≠ x := by
  have := h.owns.ne_of_free hx hu (i, .indirect)
  rwa [Fs.slots, own_of_type ht] at this

theorem ind_inj {ov : Option (Fin NINODE)} (h : FsInv s ov) {i j : ℕ}
    (hi : (s.ino ov i).type ≠ 0) (hj : (s.ino ov j).type ≠ 0) (h0 : (s.ino ov i).ind ≠ 0)
    (heq : (s.ino ov j).ind = (s.ino ov i).ind) : j = i := by
  have h1 : s.slots ov (i, .indirect) = (s.ino ov i).ind := by rw [Fs.slots, own_of_type hi]; rfl
  have h2 : s.slots ov (j, .indirect) = (s.ino ov j).ind := by rw [Fs.slots, own_of_type hj]; rfl
  have := h.owns.inj (i, .indirect) (j, .indirect) (by rwa [h1]) (by rw [h1, h2, heq])
  exact (congrArg Prod.fst this).symm

/-- A block that holds file contents is nobody's indirect block. -/
theorem ind_ne_data {ov : Option (Fin NINODE)} (h : FsInv s ov) {p : ℕ × Slot}
    (hp : s.slots ov p ≠ 0) (hk : p.2 ≠ .indirect) {i : ℕ} (ht : (s.ino ov i).type ≠ 0) :
    (s.ino ov i).ind ≠ s.slots ov p := by
  intro heq
  have h1 : s.slots ov (i, .indirect) = s.slots ov p := by
    rw [← heq, Fs.slots, own_of_type ht]
    rfl
  have := h.owns.inj p (i, .indirect) hp h1.symm
  exact hk (by rw [this])

end FsInv

/-- Only the in-memory copy of the inode of one entry has changed, and not its type. -/
structure Fs.Retouched (e : Fin NINODE) (s t : Fs) : Prop where
  sb : t.sb = s.sb
  other : ∀ e', e' ≠ e → t.inode e' = s.inode e'
  self : ∃ d : Dinode, d.type = (s.inode e).type ∧ t.inode e = { s.inode e with toDinode := d }
  dinode : t.vol.dinode = s.vol.dinode

namespace Fs.Retouched

variable {s t : Fs} {e : Fin NINODE}

section

variable (h : s.Retouched e t)
include h

theorem same (e' : Fin NINODE) :
    (t.inode e').inum = (s.inode e').inum ∧ (t.inode e').ref = (s.inode e').ref ∧
      (t.inode e').dev = (s.inode e').dev ∧ (t.inode e').valid = (s.inode e').valid ∧
      (t.inode e').type = (s.inode e').type := by
  by_cases hee : e' = e
  · subst hee
    obtain ⟨d, hd, hself⟩ := h.self
    rw [hself]
    exact ⟨rfl, rfl, rfl, rfl, hd⟩
  · rw [h.other e' hee]
    exact ⟨rfl, rfl, rfl, rfl, rfl⟩

theorem live (e' : Fin NINODE) : t.Live e' ↔ s.Live e' := by
  rw [Live, Live, (h.same e').2.1, (h.same e').2.2.2.1]

theorem ino_of_ne {i : ℕ} (hi : i ≠ (s.inode e).inum) :
    t.ino (some e) i = s.ino (some e) i := by
  show Function.update t.vol.dinode _ _ i = Function.update s.vol.dinode _ _ i
  rw [(h.same e).1, h.dinode, update_of_ne hi, update_of_ne hi]

theorem ino_type (i : ℕ) :
    (t.ino (some e) i).type = (s.ino (some e) i).type := by
  by_cases hi : i = (s.inode e).inum
  · subst hi
    rw [FsInv.ino_self, ← (h.same e).1, FsInv.ino_self]
    exact (h.same e).2.2.2.2
  · rw [h.ino_of_ne hi]

theorem inv (hs : FsInv s (some e))
    (howns : Owns (t.slots (some e)) t.vol.used s.sb.dataStart s.sb.size)
    (hbelow : ∀ i, (t.ino (some e) i).Below t.vol.data)
    (hclean : ∀ b < s.sb.dataStart, t.dirty b = none)
    (hind : ∀ i, (t.ino (some e) i).type ≠ 0 → (t.ino (some e) i).ind ≠ 0 →
      t.dirty (t.ino (some e) i).ind = none) : FsInv t (some e) where
  sb := by rw [h.sb]; exact hs.sb
  owns := by rwa [h.sb]
  below := hbelow
  clean := by rwa [h.sb]
  clean_ind := hind
  inum := by
    intro e' hr
    obtain ⟨h1, h2, h3, -, -⟩ := h.same e'
    rw [h1, h3, h.sb]
    exact hs.inum e' (by rwa [← h2])
  uniq := by
    intro e₁ e₂ hr₁ hr₂ heq
    rw [(h.same e₁).2.1] at hr₁
    rw [(h.same e₂).2.1] at hr₂
    rw [(h.same e₁).1, (h.same e₂).1] at heq
    exact hs.uniq e₁ e₂ hr₁ hr₂ heq
  copy := by
    intro e' hl
    have hl' := (h.live e').1 hl
    refine ⟨by rw [(h.same e').2.2.2.2]; exact (hs.copy e' hl').1, fun hne => ?_⟩
    have hee : e' ≠ e := fun heq => hne (by rw [heq])
    rw [h.other e' hee, h.dinode]
    exact (hs.copy e' hl').2 hne

end

end Fs.Retouched

/-! ### Mapping a block -/

namespace Fs

/-- The contents of the block in a slot; zeroes when there is none. -/
def contents (s : Fs) (ov : Option (Fin NINODE)) (p : ℕ × Slot) : Block := s.vol.data (s.slots ov p)

/-- Mapping blocks to the inode of an entry fills empty slots of that inode with zeroed blocks. -/
structure Grow (e : Fin NINODE) (s t : Fs) : Prop where
  sb : t.sb = s.sb
  other : ∀ e', e' ≠ e → t.inode e' = s.inode e'
  self : ∃ a, t.inode e = { s.inode e with addrs := a }
  dinode : t.vol.dinode = s.vol.dinode
  keep : ∀ p, s.slots (some e) p ≠ 0 → t.slots (some e) p = s.slots (some e) p
  contents : ∀ p, p.2 ≠ .indirect → t.contents (some e) p = s.contents (some e) p

/-- One block was put into one empty slot. -/
structure Assign (e : Fin NINODE) (k : Slot) (x : ℕ) (s t : Fs) : Prop where
  sb : t.sb = s.sb
  other : ∀ e', e' ≠ e → t.inode e' = s.inode e'
  self : ∃ a, t.inode e = { s.inode e with addrs := a }
  dinode : t.vol.dinode = s.vol.dinode
  used : t.vol.used = Function.update s.vol.used x true
  slots : t.slots (some e) = Function.update (s.slots (some e)) ((s.inode e).inum, k) x
  data : ∀ p, p.2 ≠ .indirect → s.slots (some e) p ≠ 0 →
    t.vol.data (s.slots (some e) p) = s.vol.data (s.slots (some e) p)
  zero : t.vol.data x = fun _ => 0
  dirty : ∀ b, b = x ∨ s.dirty b = none → t.dirty b = none

end Fs

section Growth

variable {s t u : Fs} {e : Fin NINODE} {k : Slot} {x : ℕ}

theorem vol_data_zero (h : s.sb.Ok) : s.vol.data 0 = fun _ => 0 :=
  Fs.vol_data_of_not fun h0 => by
    have := h.dataStart_pos
    omega

theorem Dinode.Below.mono {d d' : Dinode} {data data' : ℕ → Block} (h : d.Below data)
    (ht : d'.type = d.type) (hs : d'.size = d.size)
    (hk : ∀ k, d.type ≠ 0 → d.slot data k ≠ 0 → d'.slot data' k ≠ 0) : d'.Below data' := by
  intro ht'
  rw [ht] at ht'
  obtain ⟨h1, h2⟩ := h ht'
  rw [hs]
  refine ⟨h1, fun bn hbn => ?_⟩
  have := h2 bn hbn
  unfold fileBlock at this ⊢
  cases hb : blockSlot bn with
  | none => rw [hb] at this; exact absurd rfl this
  | some k => rw [hb] at this; exact hk k ht' this

namespace Fs

theorem Grow.refl (e : Fin NINODE) (s : Fs) : Grow e s s :=
  ⟨rfl, fun _ _ => rfl, ⟨_, rfl⟩, rfl, fun _ _ => rfl, fun _ _ => rfl⟩

theorem Grow.trans (h : Grow e s t) (h' : Grow e t u) : Grow e s u where
  sb := h'.sb.trans h.sb
  other := fun e' he => (h'.other e' he).trans (h.other e' he)
  self := by
    obtain ⟨a, ha⟩ := h.self
    obtain ⟨b, hb⟩ := h'.self
    exact ⟨b, by rw [hb, ha]⟩
  dinode := h'.dinode.trans h.dinode
  keep := fun p hp => by
    rw [h'.keep p (by rwa [h.keep p hp]), h.keep p hp]
  contents := fun p hp => (h'.contents p hp).trans (h.contents p hp)

theorem Grow.inum (h : Grow e s t) : (t.inode e).inum = (s.inode e).inum := by
  obtain ⟨a, ha⟩ := h.self
  rw [ha]

theorem Grow.live (h : Grow e s t) (e' : Fin NINODE) : t.Live e' ↔ s.Live e' := by
  by_cases he : e' = e
  · subst he
    obtain ⟨a, ha⟩ := h.self
    rw [Live, Live, ha]
  · rw [Live, Live, h.other e' he]

theorem Grow.size (h : Grow e s t) : (t.inode e).size = (s.inode e).size := by
  obtain ⟨a, ha⟩ := h.self
  rw [ha]

namespace Assign

theorem grow (h : Assign e k x s t) (hs : FsInv s (some e))
    (h0 : s.slots (some e) ((s.inode e).inum, k) = 0) : Grow e s t where
  sb := h.sb
  other := h.other
  self := h.self
  dinode := h.dinode
  keep := by
    intro p hp
    rw [h.slots, update_of_ne]
    rintro rfl
    exact hp h0
  contents := by
    intro p hk
    unfold Fs.contents
    by_cases hp : p = ((s.inode e).inum, k)
    · subst hp
      rw [h.slots, update_self, h.zero, h0, vol_data_zero hs.sb]
    · rw [h.slots, update_of_ne hp]
      by_cases hp0 : s.slots (some e) p = 0
      · rw [hp0, vol_data_zero hs.sb, vol_data_zero (by rw [h.sb]; exact hs.sb)]
      · exact h.data p hk hp0

/-- The invariant is kept when a free block is put into an empty slot. -/
theorem inv (h : Assign e k x s t) (hs : FsInv s (some e))
    (h0 : s.slots (some e) ((s.inode e).inum, k) = 0) (h1 : s.sb.dataStart ≤ x)
    (h2 : x < s.sb.size) (hu : s.vol.used x = false) : FsInv t (some e) := by
  have hg := h.grow hs h0
  have hr : s.Retouched e t := by
    obtain ⟨a, ha⟩ := h.self
    exact ⟨h.sb, h.other, ⟨{ (s.inode e).toDinode with addrs := a }, rfl, ha⟩, h.dinode⟩
  have hsize : ∀ i, (t.ino (some e) i).size = (s.ino (some e) i).size := by
    intro i
    by_cases hi : i = (s.inode e).inum
    · subst hi
      rw [FsInv.ino_self, ← hg.inum, FsInv.ino_self]
      exact hg.size
    · rw [hr.ino_of_ne hi]
  have hslot : ∀ {r : Fs} {i : ℕ} (k : Slot), (r.ino (some e) i).type ≠ 0 →
      (r.ino (some e) i).slot r.vol.data k = r.slots (some e) (i, k) :=
    fun k ht => (own_of_type ht k).symm
  refine hr.inv hs ?_ ?_ ?_ ?_
  · rw [h.slots, h.used]
    exact hs.owns.assign h0 h1 h2 hu
  · intro i
    refine (hs.below i).mono (hr.ino_type i) (hsize i) fun k' ht hk' => ?_
    rw [hslot k' ht] at hk'
    rwa [hslot k' (by rwa [hr.ino_type]), hg.keep _ hk']
  · exact fun b hb => h.dirty b (Or.inr (hs.clean b hb))
  · intro i ht hind
    have ht' : (s.ino (some e) i).type ≠ 0 := by rwa [← hr.ino_type]
    have hi : (t.ino (some e) i).ind = t.slots (some e) (i, .indirect) := hslot .indirect ht
    rw [hi] at hind ⊢
    rw [h.slots] at hind ⊢
    by_cases hp : (i, Slot.indirect) = ((s.inode e).inum, k)
    · rw [hp, update_self]
      exact h.dirty x (Or.inl rfl)
    · rw [update_of_ne hp] at hind ⊢
      rw [← hslot .indirect ht'] at hind ⊢
      exact h.dirty _ (Or.inr (hs.clean_ind i ht' hind))

end Assign

/-! ### `bmap` -/

/-- The in-memory inode after an address was stored in it. -/
theorem upd_addr (s : Fs) (e : Fin NINODE) (j : Fin (NDIRECT + 1)) (x : ℕ) :
    ((s.upd e fun ip => { ip with addrs := Function.update ip.addrs j (BitVec.ofNat 32 x) }).inode
      e).toDinode = (s.inode e).toDinode.setAddr j x := by
  unfold upd
  simp only [update_self]
  rfl

/-- Allocating a block changes the bitmap and one free data block. -/
theorem alloc_slots (hs : FsInv s (some e)) (h2 : x < s.sb.size) (hu : s.vol.used x = false) :
    own (s.ino (some e)) (Function.update s.vol.data x fun _ => 0) = s.slots (some e) :=
  own_congr_data fun _ ht _ => update_of_ne (hs.ind_ne_free h2 hu ht) _ _

theorem alloc_dirty {b : ℕ} (hb : b = x ∨ s.dirty b = none) : (s.alloc x).dirty b = none := by
  show Function.update (Function.update s.dirty _ none) x none b = none
  rcases hb with rfl | hb
  · rw [update_self]
  · simp only [update_apply, hb, ite_self]

/-- The block of a slot, other than a free one, is not touched by an allocation. -/
theorem alloc_data (hs : FsInv s (some e)) (h1 : s.sb.dataStart ≤ x) (h2 : x < s.sb.size)
    (hu : s.vol.used x = false) (p : ℕ × Slot) :
    (s.alloc x).vol.data (s.slots (some e) p) = s.vol.data (s.slots (some e) p) := by
  rw [vol_alloc hs.sb h1 h2]
  exact update_of_ne (hs.owns.ne_of_free h2 hu p) _ _

theorem assign_addr (hs : FsInv s (some e)) (he : s.Live e) (h1 : s.sb.dataStart ≤ x)
    (h2 : x < s.sb.size) (hu : s.vol.used x = false) (j : Fin (NDIRECT + 1))
    (hslot : ∀ k', ((s.inode e).toDinode.setAddr j x).slot (s.alloc x).vol.data k' =
      Function.update ((s.inode e).toDinode.slot (s.alloc x).vol.data) k x k') :
    Assign e k x s ((s.alloc x).upd e fun ip =>
      { ip with addrs := Function.update ip.addrs j (BitVec.ofNat 32 x) }) := by
  have hvol := vol_alloc hs.sb h1 h2
  have htype := (hs.copy e he).1
  set t := (s.alloc x).upd e fun ip =>
    { ip with addrs := Function.update ip.addrs j (BitVec.ofNat 32 x) } with ht
  have htvol : t.vol = (s.alloc x).vol := rfl
  have hdata : (s.alloc x).vol.data = Function.update s.vol.data x fun _ => 0 := by rw [hvol]; rfl
  have hinum : (t.inode e).inum = (s.inode e).inum := by
    rw [ht]
    unfold upd
    simp only [update_self]
    rfl
  refine
    { sb := rfl, other := ?_, self := ⟨_, update_self ..⟩, dinode := by rw [htvol, hvol]; rfl,
      used := by rw [htvol, hvol]; rfl, slots := ?_, data := ?_, zero := ?_,
      dirty := fun b hb => alloc_dirty hb }
  · intro e' hee
    exact update_of_ne hee _ _
  · have hino : t.ino (some e) = Function.update (s.ino (some e)) (s.inode e).inum
        ((s.inode e).toDinode.setAddr j x) := by
      show Function.update t.vol.dinode (t.inode e).inum (t.inode e).toDinode = _
      rw [hinum, ht, upd_addr, ← ht, htvol, hvol]
      show Function.update s.vol.dinode _ _ = Function.update (Function.update s.vol.dinode _ _) _ _
      rw [update_idem]
      rfl
    unfold slots
    rw [hino, htvol]
    have hself : s.ino (some e) (s.inode e).inum = (s.inode e).toDinode := FsInv.ino_self s e
    rw [own_update_inode (by rw [hself]; rfl) k (by rwa [hself])
      (by rwa [hself]), hdata, alloc_slots hs h2 hu]
    rfl
  · intro p _ _
    exact alloc_data hs h1 h2 hu p
  · rw [htvol, hdata, update_self]

/-- A new block whose number is stored in the indirect block. -/
theorem assign_entry (hs : FsInv s (some e)) (he : s.Live e) (h1 : s.sb.dataStart ≤ x)
    (h2 : x < s.sb.size) (hu : s.vol.used x = false) (hind : (s.inode e).ind ≠ 0)
    (j : Fin NINDIRECT) :
    Assign e (.entry j) x s ((s.alloc x).write (s.inode e).ind
      ((s.view (s.inode e).ind).putLE 4 (4 * j.val) x)) := by
  have htype := (hs.copy e he).1
  have hself : s.ino (some e) (s.inode e).inum = (s.inode e).toDinode := FsInv.ino_self s e
  have hown : s.slots (some e) ((s.inode e).inum, .indirect) = (s.inode e).ind :=
    FsInv.slots_self htype .indirect
  obtain ⟨hlo, hhi⟩ := hs.slot_range (by rwa [hown])
  rw [hown] at hlo hhi
  have hne : (s.inode e).ind ≠ x := by
    have := hs.ind_ne_free h2 hu (i := (s.inode e).inum) (by rwa [hself])
    rwa [hself] at this
  have hview : s.view (s.inode e).ind = s.vol.data (s.inode e).ind := (vol_data ⟨hlo, hhi⟩).symm
  have hvol : ((s.alloc x).write (s.inode e).ind
      ((s.view (s.inode e).ind).putLE 4 (4 * j.val) x)).vol =
      ((s.vol.setUsed x true).setData x fun _ => 0).setData (s.inode e).ind
        ((s.vol.data (s.inode e).ind).putLE 4 (4 * j.val) x) := by
    rw [vol_write_data (s := s.alloc x) hs.sb hlo hhi, vol_alloc hs.sb h1 h2, hview]
  refine
    { sb := rfl, other := fun _ _ => rfl, self := ⟨_, rfl⟩, dinode := by rw [hvol]; rfl,
      used := by rw [hvol]; rfl, slots := ?_, data := ?_, zero := ?_, dirty := ?_ }
  · have hino : ((s.alloc x).write (s.inode e).ind
        ((s.view (s.inode e).ind).putLE 4 (4 * j.val) x)).ino (some e) = s.ino (some e) := by
      show Function.update (Fs.vol _).dinode _ _ = _
      rw [hvol]
      rfl
    unfold slots
    rw [hino, hvol]
    show own (s.ino (some e)) (Function.update (Function.update s.vol.data x _) _ _) = _
    have hput : (s.vol.data (s.inode e).ind) =
        Function.update s.vol.data x (fun _ => 0) (s.inode e).ind :=
      (update_of_ne hne _ _).symm
    have key := @own_update_entry (s.ino (some e)) (Function.update s.vol.data x fun _ => 0)
      (s.inode e).inum x (by rwa [hself]) (by rwa [hself])
      (fun i hi ht heq => hi (hs.ind_inj (by rwa [hself]) ht
        (by rwa [hself]) heq)) j (FsInv.lt_word hs.sb h2)
    rw [hself] at key
    rw [hput, key, alloc_slots hs h2 hu]
    rfl
  · intro p hk hp
    have hnep : s.slots (some e) p ≠ (s.inode e).ind := by
      have := hs.ind_ne_data hp hk (i := (s.inode e).inum) (by rwa [hself])
      rw [hself] at this
      exact this.symm
    rw [hvol]
    show Function.update (Function.update s.vol.data x _) _ _ _ = _
    rw [update_of_ne hnep, update_of_ne (hs.owns.ne_of_free h2 hu p)]
  · rw [hvol]
    show Function.update (Function.update s.vol.data x _) _ _ _ = _
    rw [update_of_ne hne.symm, update_self]
  · intro b hb
    have := alloc_dirty (s := s) hb
    show Function.update (s.alloc x).dirty _ none b = none
    rw [update_apply, this, ite_self]

/-- What mapping the block in slot `k` does: the slot is filled, unless the disk is full, and a slot
that was filled is only read. -/
def Mapped (e : Fin NINODE) (k : Slot) (s : Fs) (x : ℕ) (t : Fs) : Prop :=
  FsInv t (some e) ∧ Grow e s t ∧ (x ≠ 0 → t.slots (some e) ((s.inode e).inum, k) = x) ∧
    (s.slots (some e) ((s.inode e).inum, k) ≠ 0 → t = s ∧ x ≠ 0)

theorem Mapped.of_ne (hs : FsInv s (some e))
    (hk : s.slots (some e) ((s.inode e).inum, k) = x) (hx : x ≠ 0) : Mapped e k s x s :=
  ⟨hs, Grow.refl e s, fun _ => hk, fun _ => ⟨rfl, hx⟩⟩

theorem Mapped.of_full (hs : FsInv t (some e)) (hg : Grow e s t)
    (hk : s.slots (some e) ((s.inode e).inum, k) = 0) : Mapped e k s 0 t :=
  ⟨hs, hg, fun h => absurd rfl h, fun h => absurd hk h⟩

theorem Mapped.of_assign (hs : FsInv s (some e))
    (hk : s.slots (some e) ((s.inode e).inum, k) = 0) (h1 : s.sb.dataStart ≤ x)
    (h2 : x < s.sb.size) (hu : s.vol.used x = false) (h : Assign e k x s t) : Mapped e k s x t :=
  ⟨h.inv hs hk h1 h2 hu, h.grow hs hk, fun _ => by rw [h.slots, update_self],
    fun h0 => absurd hk h0⟩

/-- How the block of a slot was found: it was there, the disk is full, or it is a new one. -/
inductive Found (e : Fin NINODE) (k : Slot) (s : Fs) : ℕ → Fs → Prop
  | there {x : ℕ} (hk : s.slots (some e) ((s.inode e).inum, k) = x) (hx : x ≠ 0) : Found e k s x s
  | full (hk : s.slots (some e) ((s.inode e).inum, k) = 0) (hfull : ∀ y < s.sb.size, s.vol.used y = true) :
      Found e k s 0 s
  | fresh {x : ℕ} {t : Fs} (hk : s.slots (some e) ((s.inode e).inum, k) = 0) (h1 : s.sb.dataStart ≤ x)
      (h2 : x < s.sb.size) (hu : s.vol.used x = false) (h : Assign e k x s t) : Found e k s x t

theorem Found.mapped (hs : FsInv s (some e)) (h : Found e k s x t) : Mapped e k s x t := by
  cases h with
  | there hk hx => exact Mapped.of_ne hs hk hx
  | full hk hfull => exact Mapped.of_full hs (Grow.refl _ _) hk
  | fresh hk h1 h2 hu h => exact Mapped.of_assign hs hk h1 h2 hu h

/-- How `bmap` found the block of a slot: an entry is looked up when the indirect block was found. -/
inductive Reached (e : Fin NINODE) : Slot → Fs → ℕ → Fs → Prop
  | direct {j : Fin NDIRECT} {s t : Fs} {x : ℕ} (h : Found e (.direct j) s x t) :
      Reached e (.direct j) s x t
  | noIndirect {j : Fin NINDIRECT} {s t : Fs} (h : Found e .indirect s 0 t) : Reached e (.entry j) s 0 t
  | entry {j : Fin NINDIRECT} {s m t : Fs} {ind x : ℕ} (h : Found e .indirect s ind m) (hi : ind ≠ 0)
      (h' : Found e (.entry j) m x t) : Reached e (.entry j) s x t

/-- `Reached`, with the blocks that are logged on the way: the bitmap block and the block itself for a new
block, and then the indirect block for an entry of it. -/
inductive Logs (e : Fin NINODE) : Slot → Fs → ℕ → Fs → Prop
  | direct {j : Fin NDIRECT} {s t : Fs} {x : ℕ} (h : Found e (.direct j) s x t)
      (hl : t.logged = s.logged ∨ t.logged = s.logged ++ [s.sb.bblock x, x]) : Logs e (.direct j) s x t
  | noIndirect {j : Fin NINDIRECT} {s t : Fs} (h : Found e .indirect s 0 t) : Logs e (.entry j) s 0 t
  | entry {j : Fin NINDIRECT} {s m t : Fs} {ind x : ℕ} (h : Found e .indirect s ind m)
      (hl : m.logged = s.logged ∨ m.logged = s.logged ++ [s.sb.bblock ind, ind]) (hi : ind ≠ 0)
      (h' : Found e (.entry j) m x t)
      (hl' : t.logged = m.logged ∨ t.logged = m.logged ++ [m.sb.bblock x, x, ind]) : Logs e (.entry j) s x t

theorem Logs.reached (h : Logs e k s x t) : Reached e k s x t := by
  cases h with
  | direct h _ => exact .direct h
  | noIndirect h => exact .noIndirect h
  | entry h _ hi h' _ => exact .entry h hi h'

section

variable (hs : FsInv s (some e))
include hs

theorem entry_eq_zero (he : s.Live e) (j : Fin NINDIRECT)
    (h : s.slots (some e) ((s.inode e).inum, .indirect) = 0) :
    s.slots (some e) ((s.inode e).inum, .entry j) = 0 := by
  rw [FsInv.slots_self (hs.copy e he).1] at h ⊢
  exact if_pos h

theorem Reached.mapped (he : s.Live e) (h : Reached e k s x t) :
    Mapped e k s x t := by
  cases h with
  | direct h => exact h.mapped hs
  | noIndirect h =>
    obtain ⟨ht, hg, -, hread⟩ := h.mapped hs
    refine Mapped.of_full ht hg (entry_eq_zero hs he _ ?_)
    by_contra hne
    exact (hread hne).2 rfl
  | entry h hi h' =>
    obtain ⟨hm, hg, hfill, hread⟩ := h.mapped hs
    obtain ⟨h1, h2, h3, h4⟩ := h'.mapped hm
    refine ⟨h1, hg.trans h2, fun hx => by rw [← hg.inum]; exact h3 hx, fun hne => ?_⟩
    obtain ⟨rfl, -⟩ := hread fun h0 => hne (entry_eq_zero hs he _ h0)
    exact h4 hne

theorem meta_used : ∀ x < s.sb.dataStart, s.vol.used x = true :=
  fun _ hx => hs.owns.used_of_lt hx (Nat.sub_le _ _)

/-- **Mapping an address of the inode.** -/
theorem wp_mapSlot (he : s.Live e) (j : Fin (NDIRECT + 1))
    (hk : s.slots (some e) ((s.inode e).inum, k) = ((s.inode e).addrs j).toNat)
    (hslot : ((s.inode e).addrs j).toNat = 0 → ∀ x, s.sb.dataStart ≤ x → x < s.sb.size →
      s.vol.used x = false → ∀ k', ((s.inode e).toDinode.setAddr j x).slot (s.alloc x).vol.data k' =
        Function.update ((s.inode e).toDinode.slot (s.alloc x).vol.data) k x k') :
    wp (mapSlot e j) (fun x t => Found e k s x t ∧
      (t.logged = s.logged ∨ t.logged = s.logged ++ [s.sb.bblock x, x])) (fun _ _ => False) s := by
  unfold mapSlot
  rw [wp_bind, wp_get]
  dsimp only
  split_ifs with h0
  swap
  · exact ⟨.there hk h0, Or.inl rfl⟩
  refine wp_seq (wp_balloc (meta_used hs)) ?_
  rintro x t (⟨rfl, rfl, hfull⟩ | ⟨h1, h2, hu, rfl⟩)
  · rw [if_pos rfl]
    exact ⟨.full (hk.trans h0) hfull, Or.inl rfl⟩
  · have hx : x ≠ 0 := by
      have := hs.sb.dataStart_pos
      omega
    rw [if_neg hx]
    refine ⟨.fresh (hk.trans h0) h1 h2 hu (assign_addr hs he h1 h2 hu j (hslot h0 x h1 h2 hu)), Or.inr ?_⟩
    exact append_assoc ..

theorem wp_mapSlot_direct (he : s.Live e) (j : Fin NDIRECT) :
    wp (mapSlot e j.castSucc) (fun x t => Found e (.direct j) s x t ∧
      (t.logged = s.logged ∨ t.logged = s.logged ++ [s.sb.bblock x, x])) (fun _ _ => False) s :=
  wp_mapSlot hs he j.castSucc (FsInv.slots_self (hs.copy e he).1 _) fun _ _ _ h2 _ =>
    Dinode.slot_setAddr_direct j (FsInv.lt_word hs.sb h2)

theorem wp_mapSlot_indirect (he : s.Live e) :
    wp (mapSlot e indirectSlot) (fun x t => Found e .indirect s x t ∧
      (t.logged = s.logged ∨ t.logged = s.logged ++ [s.sb.bblock x, x])) (fun _ _ => False) s := by
  refine wp_mapSlot hs he indirectSlot (FsInv.slots_self (hs.copy e he).1 _) ?_
  intro h0 x h1 h2 hu
  refine Dinode.slot_setAddr_indirect (FsInv.lt_word hs.sb h2) h0 ?_
  rw [vol_alloc hs.sb h1 h2]
  exact update_self ..

/-- How `bmap` finds a block that fits an inode, and what it logs. -/
theorem wp_bmap_logs (he : s.Live e) {bn : ℕ}
    (hk : Dinode.blockSlot bn = some k) :
    wp (bmap e bn) (Logs e k s) (fun _ _ => False) s := by
  unfold Dinode.blockSlot at hk
  unfold bmap
  split_ifs at hk with hd hi
  · cases hk
    rw [dif_pos hd]
    exact wp_post (wp_mapSlot_direct hs he ⟨bn, hd⟩) fun _ _ h => .direct h.1 h.2
  cases hk
  rw [dif_neg hd, if_pos hi, wp_bind]
  set j : Fin NINDIRECT := ⟨bn - NDIRECT, hi⟩ with hj
  refine wp_post (wp_mapSlot_indirect hs he) ?_
  rintro ind t ⟨hfound, hlogged⟩
  obtain ⟨ht, hg, hfill, -⟩ := hfound.mapped hs
  split_ifs with h0
  · subst h0
    exact .noIndirect hfound
  have hlive : t.Live e := (hg.live e).2 he
  have htype := (ht.copy e hlive).1
  have hind : (t.inode e).ind = ind := by
    rw [← hfill h0, ← hg.inum]
    exact (FsInv.slots_self htype .indirect).symm
  have hrange := ht.slot_range (p := ((t.inode e).inum, .indirect))
    (by rw [FsInv.slots_self htype]; exact fun h => h0 (hind.symm.trans h))
  rw [FsInv.slots_self htype] at hrange
  have hview : t.view ind = t.vol.data (t.inode e).ind := by
    rw [← hind]
    exact (vol_data hrange).symm
  have hget : (t.view ind).getLE 4 (4 * j.val) =
      t.slots (some e) ((t.inode e).inum, .entry j) := by
    rw [hview, FsInv.slots_self htype]
    exact (if_neg (by rwa [show (t.inode e).toDinode.ind = ind from hind])).symm
  rw [wp_bind, wp_read]
  show wp (if (t.view ind).getLE 4 (4 * j.val) = 0 then _ else _) _ _ t
  split_ifs with hz
  swap
  · exact .entry hfound hlogged h0 (.there hget.symm hz) (Or.inl rfl)
  rw [hget] at hz
  refine wp_seq (wp_balloc (meta_used ht)) ?_
  rintro x u (⟨rfl, rfl, hfull⟩ | ⟨h1, h2, hu, rfl⟩)
  · exact .entry hfound hlogged h0 (.full hz hfull) (Or.inl rfl)
  · have hx : x ≠ 0 := by
      have := ht.sb.dataStart_pos
      omega
    rw [if_pos hx, wp_bind, wp_log, wp_pure]
    have hassign := assign_entry ht hlive h1 h2 hu (fun h => h0 (hind.symm.trans h)) j
    rw [hind] at hassign
    refine .entry hfound hlogged h0 (.fresh hz h1 h2 hu hassign) (Or.inr ?_)
    show ((t.logged ++ [_]) ++ [x]) ++ [ind] = _
    rw [append_assoc, append_assoc]
    rfl

/-- How `bmap` finds a block that fits an inode. -/
theorem wp_bmap_reached (he : s.Live e) {bn : ℕ}
    (hk : Dinode.blockSlot bn = some k) :
    wp (bmap e bn) (Reached e k s) (fun _ _ => False) s :=
  wp_post (wp_bmap_logs hs he hk) fun _ _ h => h.reached

/-- **`bmap`** of a block that fits an inode. -/
theorem wp_bmap (he : s.Live e) {bn : ℕ}
    (hk : Dinode.blockSlot bn = some k) :
    wp (bmap e bn) (Mapped e k s) (fun _ _ => False) s :=
  wp_post (wp_bmap_reached hs he hk) fun _ _ h => h.mapped hs he

end

end Fs

end Growth

end Xv6
