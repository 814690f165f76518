import Xv6.Fs.Rooted

/-!
# Inodes without a name (`fs.c`, `sysfile.c`)

The calls on names with other calls in between.  A step is what a call does from the first inode lock that
it takes until it has released the last one, so that a lookup takes one step for each directory, `link` is
counted in one step and gets its entry in another one, and a directory can be removed between the lookup
and the `create` in it.

The references of the calls in progress are kept with those of the file table, in `opened`; `counted` lists
the inodes whose new link is counted and not entered yet.

* `Names.Kept`: the invariant;
* `Names.run_kept`: when no entry is made in a removed directory, an allocated inode has a name in a
  directory that the root leads to, or is held;
* `Names.exists_orphan`: a file made in a removed directory is left without a name and without references.
-/

namespace Xv6

open List

open Function (update update_eq_self_iff update_of_ne update_self)

namespace Names

open Tree

variable {N P : Type} [DecidableEq N] [Fintype P] [DecidableEq P]

/-- The inodes with calls in progress. -/
structure Live (P N : Type) extends Sys P N where
  counted : List ℕ

/-- The names lead from the root to an inode. -/
inductive Sys.RootReach (s : Sys P N) : ℕ → Prop
  | root : RootReach s ROOTINO
  | down {d i : ℕ} {name : N} (h : RootReach s d) (hd : s.IsDir d) (hi : i ≠ 0)
      (hm : (i, name) ∈ (s.node d).slots) : RootReach s i

namespace Live

/-- A change of the inodes. -/
def on (s : Live P N) (f : Sys P N → Sys P N) : Live P N := { s with toSys := f s.toSys }

end Live

namespace Sys

/-- One more reference. -/
def grab (s : Sys P N) (i : ℕ) : Sys P N := { s with opened := i :: s.opened }

/-- One reference less. -/
def ungrab (s : Sys P N) (i : ℕ) : Sys P N := { s with opened := s.opened.erase i }

/-- A reference is dropped. -/
def drop (s : Sys P N) (i : ℕ) : Sys P N := (s.ungrab i).iput i

end Sys

/-- The parts of calls, with the directory in which an entry is made, the inode that is counted or the one
that `..` leads to. -/
inductive Part
  | enter (d : ℕ)
  | climb (i : ℕ)
  | count (i : ℕ)
  | other
  deriving DecidableEq

/-- A part of a call. -/
inductive Move : Live P N → Part → Live P N → Prop
  /-- The start of a lookup. -/
  | start (s : Live P N) (p : P) (i : ℕ) (hi : i = ROOTINO ∨ s.cwd p = some i) :
      Move s .other (s.on (·.grab i))
  /-- A lookup goes on. -/
  | walk (s : Live P N) (d i : ℕ) (name : N) (hd : d ∈ s.opened) (hdir : s.IsDir d)
      (hi : dirlookup name (s.node d).slots = some i) : Move s .other (s.on fun u => (u.grab i).drop d)
  /-- A lookup goes on to `..`. -/
  | up (s : Live P N) (d : ℕ) (hd : d ∈ s.opened) (hdir : s.IsDir d) :
      Move s (.climb (s.node d).parent) (s.on fun u => (u.grab (s.node d).parent).drop d)
  /-- `iput`, and `close`: not of the reference of a `link` in progress. -/
  | put (s : Live P N) (i : ℕ) (hi : s.counted.count i < s.opened.count i) :
      Move s .other (s.on (·.drop i))
  /-- `create` of a file or a device. -/
  | create (s : Live P N) (d i : ℕ) (name : N) (type : Kind) (hd : d ∈ s.opened) (hdir : s.IsDir d)
      (hname : dirlookup name (s.node d).slots = none) (hi : 0 < i ∧ i < s.ninodes)
      (hfree : (s.node i).type = .free) (htype : type = .file ∨ type = .device)
      (hlen : (place (i, name) (s.node d).slots).length ≤ MAXENTRIES) :
      Move s (.enter d) (s.on fun u => ((u.create d i name type).grab i).drop d)
  /-- `create` of a directory. -/
  | mkdir (s : Live P N) (d i : ℕ) (name : N) (hd : d ∈ s.opened) (hdir : s.IsDir d)
      (hname : dirlookup name (s.node d).slots = none) (hi : 0 < i ∧ i < s.ninodes)
      (hfree : (s.node i).type = .free)
      (hlen : (place (i, name) (s.node d).slots).length ≤ MAXENTRIES) :
      Move s (.enter d) (s.on fun u => ((u.mkdir d i name).grab i).drop d)
  /-- `create` that has allocated an inode and fails. -/
  | createFails (s : Live P N) (d i : ℕ) (hd : d ∈ s.opened) (hdir : s.IsDir d)
      (hi : 0 < i ∧ i < s.ninodes) (hfree : (s.node i).type = .free) :
      Move s .other (s.on fun u => (u.set i Node.unused).drop d)
  /-- `link` counts the new name. -/
  | link (s : Live P N) (i : ℕ) (hi : s.counted.count i < s.opened.count i)
      (ht : (s.node i).type ≠ .free) (hnd : ¬ s.IsDir i) :
      Move s (.count i) { s.on (·.set i (s.withLinks i ((s.node i).nlink + 1))) with
        counted := i :: s.counted }
  /-- `link` enters the new name. -/
  | enter (s : Live P N) (d i : ℕ) (name : N) (hd : d ∈ s.opened) (hdir : s.IsDir d) (hi : i ∈ s.counted)
      (hname : dirlookup name (s.node d).slots = none)
      (hlen : (place (i, name) (s.node d).slots).length ≤ MAXENTRIES) :
      Move s (.enter d) { s.on (fun u => (u.set d (u.addEntry d i name)).drop d) with
        counted := s.counted.erase i }
  /-- `link` that fails. -/
  | linkFails (s : Live P N) (i : ℕ) (hi : i ∈ s.counted) :
      Move s .other { s.on (·.set i (s.withLinks i ((s.node i).nlink - 1))) with
        counted := s.counted.erase i }
  /-- `unlink`; a directory has to be empty. -/
  | unlink (s : Live P N) (d i : ℕ) (name : N) (hd : d ∈ s.opened) (hdir : s.IsDir d)
      (hname : dirlookup name (s.node d).slots = some i) (hne : i ≠ d) (ht : (s.node i).type ≠ .free)
      (hnlink : 0 < (s.node i).nlink.toInt)
      (hempty : s.IsDir i → ∀ e ∈ (s.node i).slots, e.1 = 0) :
      Move s .other (s.on fun u => ((u.unlink d i name).drop d).iput i)
  /-- `chdir`. -/
  | chdir (s : Live P N) (p : P) (i j : ℕ) (hi : i ∈ s.opened) (hdir : s.IsDir i) (hp : s.cwd p = some j) :
      Move s .other (s.on fun u =>
        ({ u with cwd := update u.cwd p (some i), opened := u.opened.erase i }).iput j)
  /-- `fork`. -/
  | fork (s : Live P N) (p q : P) (hq : s.cwd q = none) :
      Move s .other (s.on fun u => { u with cwd := update u.cwd q (u.cwd p) })
  /-- `exit`. -/
  | exit (s : Live P N) (p : P) (i : ℕ) (hp : s.cwd p = some i) :
      Move s .other (s.on fun u => ({ u with cwd := update u.cwd p none }).iput i)

/-- The invariant but for the inodes without links. -/
structure Core (s : Live P N) : Prop where
  tree : Tree s.toSys
  exact : ∀ i, (s.node i).type ≠ .free → ¬ s.IsDir i →
    (s.node i).nlink.toNat = s.names i + s.counted.count i
  inner : ∀ d, s.IsDir d → ¬ s.Linked d → ∀ e ∈ (s.node d).slots, e.1 = 0
  held : ∀ i, s.Held i → (s.node i).type ≠ .free
  pending : ∀ i, s.counted.count i ≤ s.opened.count i
  files : ∀ i ∈ s.counted, ¬ s.IsDir i
  reach : ∀ d, s.IsDir d → s.Linked d → s.RootReach d

/-- The inodes without links are held, but for the exceptions. -/
def Alive (s : Sys P N) (exc : ℕ → Prop) : Prop :=
  ∀ i, ¬ exc i → (s.node i).type ≠ .free → (s.node i).nlink = 0 → s.Held i

/-- The invariant. -/
structure Kept (s : Live P N) : Prop where
  core : Core s
  alive : Alive s.toSys fun _ => False

section Reach

variable {s t : Sys P N} {d i x : ℕ}

omit [DecidableEq N] [Fintype P] [DecidableEq P] in
theorem exists_mem_iff {l : List (ℕ × N)} : (∃ n, (x, n) ∈ l) ↔ 0 < l.countP (fun e => e.1 = x) := by
  rw [countP_pos_iff]
  constructor
  · rintro ⟨n, hn⟩
    exact ⟨(x, n), hn, by simp⟩
  · rintro ⟨⟨y, n⟩, hy, hx⟩
    have hyx : y = x := by simpa using hx
    exact ⟨n, hyx ▸ hy⟩

omit [DecidableEq N] [Fintype P] [DecidableEq P] in
/-- The names still lead to an inode when only entries of `i` change and none leads through `i`. -/
theorem Sys.RootReach.mono (hroot : ROOTINO ≠ i) (hdir : ∀ d ≠ i, s.IsDir d → t.IsDir d)
    (hsrc : s.IsDir i → ∀ e ∈ (s.node i).slots, e.1 = 0)
    (hedge : ∀ d y, d ≠ i → y ≠ 0 → y ≠ i → 0 < (s.node d).slots.countP (fun e => e.1 = y) →
      0 < (t.node d).slots.countP fun e => e.1 = y)
    (h : s.RootReach x) (hx : x ≠ i) : t.RootReach x := by
  induction h with
  | root => exact .root
  | @down d y name _ hd hy hm ih =>
    have hdi : d ≠ i := by
      rintro rfl
      exact hy (hsrc hd _ hm)
    obtain ⟨n, hn⟩ := exists_mem_iff.2 (hedge d y hdi hy hx (exists_mem_iff.1 ⟨name, hm⟩))
    exact .down (ih hdi) (hdir d hdi hd) hy hn

end Reach

section Changes

variable {s : Live P N} {t : Sys P N} {d i x : ℕ} {c : List ℕ} {exc : ℕ → Prop}

section

omit [DecidableEq N] [Fintype P] [DecidableEq P]

theorem Core.linked_of_nlink (h : Core s) (hd : s.IsDir d) (hn : (s.node d).nlink ≠ 0) : s.Linked d := by
  by_contra hl
  have hzero : s.subdirs d = 0 :=
    countP_eq_zero.2 fun e he => by simp [h.inner d hd hl e he]
  have hroot : d ≠ ROOTINO := fun hr => hl (.inl hr)
  have hnames : s.names d = 0 := Nat.eq_zero_of_not_pos fun hp => hl (.inr hp)
  have hlink := h.tree.dir d hd
  rw [hzero, hnames, if_neg hroot] at hlink
  exact hn (BitVec.eq_of_toNat_eq (by rw [hlink]; rfl))

/-- Linked directory `d` and inode `i` change, as in `change`. -/
theorem Core.change (h : Core s) (nd ni : Node N) (c : List ℕ) (hd : s.IsDir d) (hld : s.Linked d)
    (hid : i ≠ d) (hi : i ≠ 0 ∧ i < s.ninodes) (hroot : i ≠ ROOTINO) (hnd : nd.type = .dir)
    (hnis : ni.slots = (s.node i).slots) (hfree : ni.type ≠ .free)
    (hother : ∀ j, j ≠ 0 → j ≠ i →
      nd.slots.countP (fun e => e.1 = j) = (s.node d).slots.countP fun e => e.1 = j)
    (ht : t = (s.toSys.set d nd).set i ni) (htree : Tree t)
    (hexact : ni.type ≠ .dir → ni.nlink.toNat = t.names i + c.count i)
    (hsrc : s.IsDir i → ∀ e ∈ (s.node i).slots, e.1 = 0)
    (hnew : ni.type = .dir → t.Linked i → 0 < nd.slots.countP fun e => e.1 = i)
    (hc : ∀ x ≠ i, c.count x = s.counted.count x) (hcp : c.count i ≤ s.opened.count i)
    (hcf : i ∈ c → ni.type ≠ .dir) : Core { s with toSys := t, counted := c } := by
  obtain ⟨hti, htd, hto, hnames, htype⟩ := h.tree.changed hd hid hi.2 hnd hnis hother ht
  have hcwd : t.cwd = s.cwd := by rw [ht]; rfl
  have hopen : t.opened = s.opened := by rw [ht]; rfl
  have hlinked : ∀ j, j ≠ 0 → j ≠ i → (t.Linked j ↔ s.Linked j) := by
    intro j hj0 hji
    rw [Sys.Linked, Sys.Linked, hnames j hj0 hji]
  have hdir : ∀ x, x ≠ i → (t.IsDir x ↔ s.IsDir x) := fun x hxi => by
    rw [Sys.IsDir, Sys.IsDir, htype x hxi]
  have hmono : ∀ x, s.RootReach x → x ≠ i → t.RootReach x := by
    intro x hx hxi
    refine hx.mono hroot.symm (fun y hy hyd => (hdir y hy).2 hyd) hsrc (fun y z hyi hz0 hzi hpos => ?_) hxi
    by_cases hyd : y = d
    · rw [hyd] at hpos ⊢
      rwa [htd, hother z hz0 hzi]
    · rwa [hto y hyi hyd]
  refine ⟨htree, fun x hx hxd => ?_, fun x hx hxl => ?_, fun x hx => ?_, fun x => ?_, fun x hx => ?_,
    fun x hx hxl => ?_⟩
  · by_cases hxi : x = i
    · subst hxi
      rw [hti]
      exact hexact fun hty => hxd (by rwa [Sys.IsDir, hti])
    · have hx' : (s.node x).type ≠ .free := htype x hxi ▸ hx
      have hxd' : ¬ s.IsDir x := fun hsx => hxd ((hdir x hxi).2 hsx)
      have hne : x ≠ d := fun hxd'' => hxd' (hxd'' ▸ hd)
      rw [hto x hxi hne, hnames x (h.tree.ne_zero hx') hxi, hc x hxi]
      exact h.exact x hx' hxd'
  · by_cases hxi : x = i
    · subst hxi
      rw [hti, hnis]
      by_cases hsx : s.IsDir x
      · exact hsrc hsx
      · rw [h.tree.slots x hsx]
        simp
    · have hsx := (hdir x hxi).1 hx
      have hsl : ¬ s.Linked x := fun hl =>
        hxl ((hlinked x (h.tree.ne_zero (IsDir.ne_free hsx)) hxi).2 hl)
      have hxd : x ≠ d := fun hxd => hsl (hxd ▸ hld)
      rw [hto x hxi hxd]
      exact h.inner x hsx hsl
  · have hx' : s.Held x := by
      have hh : t.Held x := hx
      rwa [Sys.Held, hcwd, hopen] at hh
    by_cases hxi : x = i
    · rwa [hxi, hti]
    · rw [htype x hxi]
      exact h.held x hx'
  · show c.count x ≤ t.opened.count x
    rw [hopen]
    by_cases hxi : x = i
    · rwa [hxi]
    · rw [hc x hxi]
      exact h.pending x
  · show ¬ t.IsDir x
    by_cases hxi : x = i
    · subst hxi
      rw [Sys.IsDir, hti]
      exact hcf hx
    · rw [hdir x hxi]
      have hpos : 0 < s.counted.count x := hc x hxi ▸ count_pos_iff.2 hx
      exact h.files x (count_pos_iff.1 hpos)
  · show t.RootReach x
    by_cases hxi : x = i
    · subst hxi
      have hty : ni.type = .dir := by
        have hx' : t.IsDir x := hx
        rwa [Sys.IsDir, hti] at hx'
      obtain ⟨n, hn⟩ := exists_mem_iff.2 (hnew hty hxl)
      exact .down (hmono d (h.reach d hd hld) hid.symm) ((hdir d hid.symm).2 hd) hi.1 (by rwa [htd])
    · have hsx := (hdir x hxi).1 hx
      exact hmono x (h.reach x hsx ((hlinked x (h.tree.ne_zero (IsDir.ne_free hsx)) hxi).1 hxl)) hxi

theorem Core.free (h : Core s) (hn : (s.node i).nlink = 0 ∨ (s.node i).type = .free) (hh : ¬ s.Held i) :
    Core (s.on (·.set i Node.unused)) := by
  have hof : ∀ x ≠ i, (s.toSys.set i Node.unused).node x = s.node x := fun x hx =>
    update_of_ne hx _ _
  have hself : (s.toSys.set i Node.unused).node i = Node.unused := update_self _ _ _
  have hroot : ROOTINO ≠ i := by
    rintro rfl
    exact (h.tree.dir_unlinked h.tree.root hn).2.2 rfl
  have hzero : ∀ e ∈ (s.node i).slots, e.1 = 0 := by
    by_cases hd : s.IsDir i
    · obtain ⟨hnames, -, hr⟩ := h.tree.dir_unlinked hd hn
      exact h.inner i hd fun hl => hl.elim hr fun hp => absurd hnames hp.ne'
    · rw [h.tree.slots i hd]
      simp
  have hcount : ∀ j, j ≠ 0 → (s.node i).slots.countP (fun e => e.1 = j) = 0 := fun j hj =>
    countP_eq_zero.2 fun e he hej => by
      have hej' : e.1 = j := by simpa using hej
      exact hj (hej'.symm.trans (hzero e he))
  have hnames : ∀ j, j ≠ 0 → (s.toSys.set i Node.unused).names j = s.names j := fun j hj => by
    have hf := h.tree.names_free i j
    rwa [hcount j hj, Nat.add_zero] at hf
  have hlinked : ∀ j, j ≠ 0 → ((s.toSys.set i Node.unused).Linked j ↔ s.Linked j) := fun j hj => by
    rw [Sys.Linked, Sys.Linked, hnames j hj]
  have hdir : ∀ x, (s.toSys.set i Node.unused).IsDir x → x ≠ i ∧ s.IsDir x := by
    intro x hx
    have hxi : x ≠ i := by
      rintro rfl
      rw [Sys.IsDir, hself] at hx
      cases hx
    exact ⟨hxi, by rwa [Sys.IsDir, hof x hxi] at hx⟩
  refine ⟨h.tree.free hn, fun x hx hxd => ?_, fun x hx hxl => ?_, fun x hx => ?_, h.pending,
    fun x hx hxd => ?_,
    fun x hx hxl => ?_⟩
  · have hxi : x ≠ i := by
      rintro rfl
      exact hx (congrArg (fun n : Node N => n.type) hself)
    have hx' : (s.node x).type ≠ .free := by
      have hx'' : ((s.toSys.set i Node.unused).node x).type ≠ .free := hx
      rwa [hof x hxi] at hx''
    show ((s.toSys.set i Node.unused).node x).nlink.toNat = (s.toSys.set i Node.unused).names x + _
    rw [hof x hxi, hnames x (h.tree.ne_zero hx')]
    exact h.exact x hx' fun hsx => hxd (by
      show (s.toSys.set i Node.unused).IsDir x
      rw [Sys.IsDir, hof x hxi]
      exact hsx)
  · obtain ⟨hxi, hsx⟩ := hdir x hx
    show ∀ e ∈ ((s.toSys.set i Node.unused).node x).slots, e.1 = 0
    rw [hof x hxi]
    exact h.inner x hsx fun hl => hxl ((hlinked x (h.tree.ne_zero (IsDir.ne_free hsx))).2 hl)
  · have hxi : x ≠ i := by
      rintro rfl
      exact hh hx
    show ((s.toSys.set i Node.unused).node x).type ≠ .free
    rw [hof x hxi]
    exact h.held x hx
  · exact h.files x hx (hdir x hxd).2
  · obtain ⟨hxi, hsx⟩ := hdir x hx
    have hx0 := h.tree.ne_zero (IsDir.ne_free hsx)
    refine (h.reach x hsx ((hlinked x hx0).1 hxl)).mono hroot (fun y hy hyd => ?_) (fun _ => hzero)
      (fun y z hyi _ _ hpos => ?_) hxi
    · show (s.toSys.set i Node.unused).IsDir y
      rwa [Sys.IsDir, hof y hy]
    · show 0 < ((s.toSys.set i Node.unused).node y).slots.countP _
      rwa [hof y hyi]

end

omit [DecidableEq N] [DecidableEq P] in
theorem Core.iput (h : Core s) (i : ℕ) : Core (s.on (·.iput i)) := by
  by_cases hz : (s.node i).nlink = 0 ∧ ¬ s.Held i
  · have hput : s.toSys.iput i = s.toSys.set i Node.unused := if_pos hz
    show Core { s with toSys := s.toSys.iput i }
    rw [hput]
    exact h.free (.inl hz.1) hz.2
  · have hput : s.toSys.iput i = s.toSys := if_neg hz
    show Core { s with toSys := s.toSys.iput i }
    rwa [hput]

omit [DecidableEq N] [DecidableEq P] in
theorem Alive.iput {u : Sys P N} (h : Alive u fun x => exc x ∨ x = i) : Alive (u.iput i) exc := by
  intro x hx ht hn
  unfold Sys.iput at ht hn ⊢
  split at ht
  next hz =>
    rw [if_pos hz] at hn ⊢
    have hself : (u.set i Node.unused).node i = Node.unused := update_self _ _ _
    have hxi : x ≠ i := by
      rintro rfl
      rw [hself] at ht
      exact ht rfl
    rw [show (u.set i Node.unused).node x = u.node x from update_of_ne hxi _ _] at ht hn
    exact h x (fun he => he.elim hx hxi) ht hn
  next hz =>
    rw [if_neg hz] at hn ⊢
    by_cases hxi : x = i
    · subst hxi
      by_contra hh
      exact hz ⟨hn, hh⟩
    · exact h x (fun he => he.elim hx hxi) ht hn

section

omit [DecidableEq N] [Fintype P] [DecidableEq P]

/-- Other references, to allocated inodes, and enough of them for the links in progress. -/
theorem Core.refs (h : Core s) (cwd : P → Option ℕ) (opened : List ℕ)
    (hheld : ∀ x, (∃ p, cwd p = some x) ∨ x ∈ opened → (s.node x).type ≠ .free)
    (hpend : ∀ x, s.counted.count x ≤ opened.count x) :
    Core (s.on fun u => { u with cwd := cwd, opened := opened }) where
  tree := h.tree.moved cwd opened
  exact := h.exact
  inner := h.inner
  held := hheld
  pending := hpend
  files := h.files
  reach x hx hl := by
    have hr := h.reach x hx hl
    clear hl hx
    induction hr with
    | root => exact .root
    | down _ hd hi hm ih => exact .down ih hd hi hm

theorem Core.grab (h : Core s) (hi : (s.node i).type ≠ .free) : Core (s.on (·.grab i)) := by
  refine h.refs s.cwd (i :: s.opened) (fun x hx => ?_) fun x => ?_
  · rcases hx with hx | hx
    · exact h.held x (.inl hx)
    · rcases mem_cons.1 hx with rfl | hx
      · exact hi
      · exact h.held x (.inr hx)
  · exact (h.pending x).trans (count_le_count_cons)

theorem Core.ungrab (h : Core s) (hi : s.counted.count i < s.opened.count i) :
    Core (s.on (·.ungrab i)) := by
  refine h.refs s.cwd (s.opened.erase i) (fun x hx => ?_) fun x => ?_
  · exact h.held x (hx.imp id mem_of_mem_erase)
  · rw [count_erase]
    split
    next hxi =>
      have hxi' : i = x := by simpa using hxi
      subst hxi'
      omega
    next => simpa using h.pending x

end

omit [DecidableEq N] [DecidableEq P] in
theorem Core.drop (h : Core s) (hi : s.counted.count i < s.opened.count i) : Core (s.on (·.drop i)) :=
  (h.ungrab hi).iput i

omit [DecidableEq N] [Fintype P] [DecidableEq P] in
/-- A reference to a directory is never that of a link in progress. -/
theorem Core.spare (h : Core s) (hd : s.IsDir d) (hm : d ∈ s.opened) :
    s.counted.count d < s.opened.count d := by
  rw [count_eq_zero_of_not_mem fun hc => h.files d hc hd]
  exact count_pos_iff.2 hm

omit [DecidableEq N] [DecidableEq P] in
theorem Alive.drop {u : Sys P N} (h : Alive u exc) : Alive (u.drop i) exc := by
  refine Alive.iput fun x hx ht hn => ?_
  have hxi : x ≠ i := fun hxi => hx (.inr hxi)
  refine (h x (fun he => hx (.inl he)) ht hn).imp id fun hm => ?_
  exact (mem_erase_of_ne hxi).2 hm

omit [DecidableEq N] [Fintype P] [DecidableEq P] in
theorem Alive.grab {u : Sys P N} (h : Alive u exc) : Alive (u.grab i) exc := fun x hx ht hn =>
  (h x hx ht hn).imp id fun hm => mem_cons_of_mem i hm

omit [DecidableEq N] [Fintype P] [DecidableEq P] in
theorem Alive.change {u : Sys P N} {nd ni : Node N} (h : Alive u fun _ => False)
    (hd : (u.node d).type ≠ .free → nd.nlink = 0 → (u.node d).nlink = 0 ∨ exc d)
    (hdf : (u.node d).type ≠ .free)
    (hi : ni.nlink = 0 → ni.type ≠ .free → u.Held i ∨ exc i) :
    Alive ((u.set d nd).set i ni) exc := by
  intro x hx ht hn
  by_cases hxi : x = i
  · subst hxi
    rw [show ((u.set d nd).set x ni).node x = ni from update_self _ _ _] at ht hn
    exact (hi hn ht).resolve_right hx
  · rw [show ((u.set d nd).set i ni).node x = (u.set d nd).node x from update_of_ne hxi _ _] at ht hn
    by_cases hxd : x = d
    · subst hxd
      rw [show (u.set x nd).node x = nd from update_self _ _ _] at hn
      exact h x id hdf ((hd hdf hn).resolve_right hx)
    · rw [show (u.set d nd).node x = u.node x from update_of_ne hxd _ _] at ht hn
      exact h x id ht hn

end Changes

section Calls

variable {s : Live P N} {d i : ℕ} {name : N} {type : Kind}

section

omit [DecidableEq N] [Fintype P] [DecidableEq P]

theorem Tree.setLinks {u : Sys P N} (h : Tree u) (ht : (u.node i).type ≠ .free) (hd : ¬ u.IsDir i)
    {n : BitVec 16} (hle : u.names i ≤ n.toNat) (hlt : n.toNat < 2 ^ 15) :
    Tree (u.set i (u.withLinks i n)) := by
  have hself : (u.set i (u.withLinks i n)).node i = u.withLinks i n := update_self _ _ _
  have hof : ∀ x ≠ i, (u.set i (u.withLinks i n)).node x = u.node x := fun x hx => update_of_ne hx _ _
  have htype : ∀ x, ((u.set i (u.withLinks i n)).node x).type = (u.node x).type := fun x => by
    by_cases hx : x = i
    · rw [hx, hself]
      rfl
    · rw [hof x hx]
  have hslots : ∀ x, ((u.set i (u.withLinks i n)).node x).slots = (u.node x).slots := fun x => by
    by_cases hx : x = i
    · rw [hx, hself]
      rfl
    · rw [hof x hx]
  have hparent : ∀ x, ((u.set i (u.withLinks i n)).node x).parent = (u.node x).parent := fun x => by
    by_cases hx : x = i
    · rw [hx, hself]
      rfl
    · rw [hof x hx]
  have hdir : ∀ x, (u.set i (u.withLinks i n)).IsDir x ↔ u.IsDir x := fun x => by
    rw [Sys.IsDir, Sys.IsDir, htype]
  have hnames : ∀ x, (u.set i (u.withLinks i n)).names x = u.names x := fun x =>
    Finset.sum_congr rfl fun y _ => by rw [hslots]
  have hsub : ∀ x, (u.set i (u.withLinks i n)).subdirs x = u.subdirs x := fun x =>
    Sys.subdirs_congr (hslots x) fun e _ _ => hdir e
  refine ⟨(hdir _).2 h.root, by rw [htype]; exact h.zero, fun x hx => by rw [htype]; exact h.range x hx,
    fun x hx => by rw [hslots]; exact h.slots x fun hsx => hx ((hdir x).2 hsx),
    fun x => by rw [hslots]; exact h.size x,
    fun x hx0 hpos => by rw [htype]; exact h.named x hx0 (hnames x ▸ hpos), fun x hx hxd => ?_,
    fun x hx => ?_, fun x hx => by rw [hnames]; exact h.once x ((hdir x).1 hx),
    fun x e he hpos => ?_⟩
  · rw [hnames]
    by_cases hxi : x = i
    · subst hxi
      rw [hself]
      exact ⟨hle, hlt⟩
    · rw [hof x hxi]
      exact h.file x (htype x ▸ hx) fun hsx => hxd ((hdir x).2 hsx)
  · have hsx := (hdir x).1 hx
    have hxi : x ≠ i := fun hxi => hd (hxi ▸ hsx)
    rw [hnames, hsub, hof x hxi]
    exact h.dir x hsx
  · rw [hparent]
    rw [hslots] at hpos
    exact h.parent x e ((hdir e).1 he) hpos

theorem Core.setLinks (h : Core s) (ht : (s.node i).type ≠ .free) (hd : ¬ s.IsDir i) {n : BitVec 16}
    {c : List ℕ} (hexact : n.toNat = s.names i + c.count i) (hlt : n.toNat < 2 ^ 15)
    (hc : ∀ x ≠ i, c.count x = s.counted.count x) (hcp : c.count i ≤ s.opened.count i) :
    Core { s.on (·.set i (s.withLinks i n)) with counted := c } := by
  have hself : (s.toSys.set i (s.withLinks i n)).node i = s.withLinks i n := update_self _ _ _
  have hof : ∀ x ≠ i, (s.toSys.set i (s.withLinks i n)).node x = s.node x := fun x hx =>
    update_of_ne hx _ _
  have htype : ∀ x, ((s.toSys.set i (s.withLinks i n)).node x).type = (s.node x).type := fun x => by
    by_cases hx : x = i
    · rw [hx, hself]
      rfl
    · rw [hof x hx]
  have hslots : ∀ x, ((s.toSys.set i (s.withLinks i n)).node x).slots = (s.node x).slots := fun x => by
    by_cases hx : x = i
    · rw [hx, hself]
      rfl
    · rw [hof x hx]
  have hdir : ∀ x, (s.toSys.set i (s.withLinks i n)).IsDir x ↔ s.IsDir x := fun x => by
    rw [Sys.IsDir, Sys.IsDir, htype]
  have hnames : ∀ x, (s.toSys.set i (s.withLinks i n)).names x = s.names x := fun x =>
    Finset.sum_congr rfl fun y _ => by rw [hslots]
  have hlinked : ∀ x, (s.toSys.set i (s.withLinks i n)).Linked x ↔ s.Linked x := fun x => by
    rw [Sys.Linked, Sys.Linked, hnames]
  refine ⟨h.tree.setLinks ht hd (by omega) hlt, fun x hx hxd => ?_, fun x hx hxl => ?_, fun x hx => ?_,
    fun x => ?_, fun x hx hxd => ?_, fun x hx hxl => ?_⟩
  · show ((s.toSys.set i (s.withLinks i n)).node x).nlink.toNat =
      (s.toSys.set i (s.withLinks i n)).names x + c.count x
    rw [hnames]
    by_cases hxi : x = i
    · subst hxi
      rwa [hself]
    · rw [hof x hxi, hc x hxi]
      exact h.exact x (fun hf => hx ((htype x).trans hf)) fun hsx => hxd ((hdir x).2 hsx)
  · show ∀ e ∈ ((s.toSys.set i (s.withLinks i n)).node x).slots, e.1 = 0
    rw [hslots]
    exact h.inner x ((hdir x).1 hx) fun hl => hxl ((hlinked x).2 hl)
  · show ((s.toSys.set i (s.withLinks i n)).node x).type ≠ .free
    rw [htype]
    exact h.held x hx
  · show c.count x ≤ s.opened.count x
    by_cases hxi : x = i
    · rwa [hxi]
    · rw [hc x hxi]
      exact h.pending x
  · have hsx := (hdir x).1 hxd
    have hxi : x ≠ i := fun hxi => hd (hxi ▸ hsx)
    have hpos : 0 < s.counted.count x := hc x hxi ▸ count_pos_iff.2 hx
    exact h.files x (count_pos_iff.1 hpos) hsx
  · have hr := h.reach x ((hdir x).1 hx) ((hlinked x).1 hxl)
    clear hxl hx
    induction hr with
    | root => exact .root
    | @down d y name _ hdd hy hm ih =>
      exact .down ih ((hdir d).2 hdd) hy (by
        show _ ∈ ((s.toSys.set i (s.withLinks i n)).node d).slots
        rw [hslots]
        exact hm)

theorem Core.not_counted (h : Core s) (hfree : (s.node i).type = .free) : s.counted.count i = 0 := by
  by_contra hne
  have hm : i ∈ s.opened := count_pos_iff.1 ((Nat.pos_of_ne_zero hne).trans_le (h.pending i))
  exact h.held i (.inr hm) hfree

theorem Core.linked_of_entry (h : Core s) (hd : s.IsDir d) (hi : i ≠ 0)
    (hpos : 0 < (s.node d).slots.countP fun e => e.1 = i) : s.Linked d := by
  by_contra hl
  obtain ⟨n, hn⟩ := exists_mem_iff.2 hpos
  exact hi (h.inner d hd hl _ hn)

theorem Core.create (h : Core s) (hd : s.IsDir d) (hld : s.Linked d) (hi : 0 < i ∧ i < s.ninodes)
    (hfree : (s.node i).type = .free) (htype : type = .file ∨ type = .device)
    (hlen : (place (i, name) (s.node d).slots).length ≤ MAXENTRIES) :
    Core (s.on (·.create d i name type)) := by
  have hid := ne_of_free hd hfree
  have hi' : i ≠ 0 ∧ i < s.ninodes := ⟨hi.1.ne', hi.2⟩
  have hnil : (s.node i).slots = [] := h.tree.slots i (by simp [Sys.IsDir, hfree])
  have hroot : i ≠ ROOTINO := fun hr => IsDir.ne_free h.tree.root (hr ▸ hfree)
  have hnd : type ≠ .dir := by rcases htype with rfl | rfl <;> decide
  have hnf : type ≠ .free := by rcases htype with rfl | rfl <;> decide
  have hone : (s.toSys.create d i name type).names i = s.names i + 1 :=
    h.tree.names_place (s.addEntry d i name) ⟨type, 1, 0, []⟩ hd hid hi' hnil.symm rfl
  have hcount := h.not_counted hfree
  refine h.change (s.addEntry d i name) ⟨type, 1, 0, []⟩ s.counted hd hld hid hi' hroot hd hnil.symm hnf
    (fun j hj0 hji => count_place_other hj0 hji) rfl (h.tree.create hd hi hfree htype hlen) (fun _ => ?_)
    (fun hsi => absurd hfree (IsDir.ne_free hsi)) (fun hty => absurd hty hnd) (fun _ _ => rfl)
    (h.pending i) (fun _ => hnd)
  show 1 = (s.toSys.create d i name type).names i + _
  rw [hone, h.tree.names_eq_zero hi'.1 hfree, hcount]

theorem Core.mkdir (h : Core s) (hd : s.IsDir d) (hld : s.Linked d) (hi : 0 < i ∧ i < s.ninodes)
    (hfree : (s.node i).type = .free)
    (hlen : (place (i, name) (s.node d).slots).length ≤ MAXENTRIES) : Core (s.on (·.mkdir d i name)) := by
  have hid := ne_of_free hd hfree
  have hi' : i ≠ 0 ∧ i < s.ninodes := ⟨hi.1.ne', hi.2⟩
  have hnil : (s.node i).slots = [] := h.tree.slots i (by simp [Sys.IsDir, hfree])
  have hroot : i ≠ ROOTINO := fun hr => IsDir.ne_free h.tree.root (hr ▸ hfree)
  have hcount := h.not_counted hfree
  refine h.change (s.addDir d i name) ⟨.dir, 1, d, []⟩ s.counted hd hld hid hi' hroot hd hnil.symm
    (by show Kind.dir ≠ .free; decide) (fun j hj0 hji => count_place_other hj0 hji) rfl
    (h.tree.mkdir hd hi hfree hlen) (fun hty => absurd rfl hty)
    (fun hsi => absurd hfree (IsDir.ne_free hsi)) (fun _ _ => ?_) (fun _ _ => rfl) (h.pending i)
    (fun hm => absurd hcount (count_pos_iff.2 hm).ne')
  show 0 < (place (i, name) (s.node d).slots).countP _
  rw [count_place_self hi'.1]
  omega

end

omit [Fintype P] [DecidableEq P] in
theorem Core.unlink (h : Core s) (hd : s.IsDir d) (hid : i ≠ d) (ht : (s.node i).type ≠ .free)
    (hname : dirlookup name (s.node d).slots = some i)
    (hempty : s.IsDir i → ∀ e ∈ (s.node i).slots, e.1 = 0) : Core (s.on (·.unlink d i name)) := by
  have hi' : i ≠ 0 ∧ i < s.ninodes := ⟨h.tree.ne_zero ht, h.tree.lt_ninodes ht⟩
  have hpos : 0 < s.names i :=
    (dirlookup_count hname).trans_le (Sys.count_le_names (h.tree.lt_ninodes (IsDir.ne_free hd)) i)
  have hroot : i ≠ ROOTINO := by
    intro hr
    have honce := h.tree.once i (hr ▸ h.tree.root)
    rw [if_pos hr] at honce
    omega
  have hone : (s.toSys.unlink d i name).names i + 1 = s.names i :=
    h.tree.names_clear (s.cutEntry d i name) (s.withLinks i ((s.node i).nlink - 1)) hd hid hi' rfl hname rfl
  refine h.change (s.cutEntry d i name) (s.withLinks i ((s.node i).nlink - 1)) s.counted hd
    (h.linked_of_entry hd hi'.1 (dirlookup_count hname)) hid hi' hroot hd rfl ht
    (fun j hj0 hji => count_clear_other hname hj0 hji) rfl (h.tree.unlink hd hid ht hname hempty)
    (fun hnd => ?_) hempty (fun hty hl => ?_) (fun _ _ => rfl) (h.pending i) (fun hm => h.files i hm)
  · have hexact := h.exact i ht hnd
    have hsub := toNat_sub_one (x := (s.node i).nlink) (by omega)
    show ((s.node i).nlink - 1).toNat = (s.toSys.unlink d i name).names i + _
    omega
  · have honce := h.tree.once i hty
    rw [if_neg hroot] at honce
    rcases hl with hl | hl
    · exact absurd hl hroot
    · have hl' : 0 < (s.toSys.unlink d i name).names i := hl
      omega

omit [DecidableEq N] [Fintype P] [DecidableEq P] in
theorem Core.enter (h : Core s) (hd : s.IsDir d) (hld : s.Linked d) (hi : i ∈ s.counted)
    (hlen : (place (i, name) (s.node d).slots).length ≤ MAXENTRIES) :
    Core { s.on (·.set d (s.addEntry d i name)) with counted := s.counted.erase i } := by
  have hnd := h.files i hi
  have hid : i ≠ d := fun hid => hnd (hid ▸ hd)
  have hcount : 0 < s.counted.count i := count_pos_iff.2 hi
  have ht := h.held i (.inr (count_pos_iff.1 (hcount.trans_le (h.pending i))))
  have hi' : i ≠ 0 ∧ i < s.ninodes := ⟨h.tree.ne_zero ht, h.tree.lt_ninodes ht⟩
  have hexact := h.exact i ht hnd
  have hlt := (h.tree.file i ht hnd).2
  have hnode : update (update s.node d (s.addEntry d i name)) i (s.node i) =
      update s.node d (s.addEntry d i name) :=
    update_eq_self_iff.2 (update_of_ne hid _ _).symm
  have hsame : (s.toSys.set d (s.addEntry d i name)).set i (s.node i) = s.toSys.set d
    (s.addEntry d i name) :=
    congrArg (fun g => (⟨s.ninodes, g, s.cwd, s.opened⟩ : Sys P N)) hnode
  have hone := h.tree.names_place (s.addEntry d i name) (s.node i) hd hid hi' rfl rfl
  have hsub := h.tree.subdirs_place (s.addEntry d i name) (s.node i) hd hid hi'.1 hd (.inl rfl) rfl
  rw [if_neg (show (s.node i).type ≠ .dir from hnd)] at hsub
  have htree : Tree ((s.toSys.set d (s.addEntry d i name)).set i (s.node i)) := by
    refine h.tree.change (s.addEntry d i name) (s.node i) hd hid hi' hd rfl hlen rfl ht (.inl ⟨rfl, rfl⟩)
      (fun j hj0 hji => count_place_other hj0 hji) rfl (fun _ => ?_) (fun hty => absurd hty hnd) ?_
    · rw [hone]
      omega
    · rw [hsub]
      exact h.tree.dir d hd
  have hroot : i ≠ ROOTINO := fun hr => hnd (hr ▸ h.tree.root)
  have hcore := h.change (s.addEntry d i name) (s.node i) (s.counted.erase i) hd hld hid hi' hroot hd rfl ht
    (fun j hj0 hji => count_place_other hj0 hji) rfl htree
    (fun _ => by rw [hone, count_erase_self]; omega) (fun hsi => absurd hsi hnd)
    (fun hty => absurd hty hnd) (fun x hx => count_erase_of_ne hx)
    (by rw [count_erase_self]; have := h.pending i; omega) (fun _ => hnd)
  rwa [hsame] at hcore

end Calls

/-! ### Runs -/

/-- No entry is made in a directory without links, no link is counted at the largest count, and no lookup
goes to a `..` that was freed: a removed directory may outlive its parent, and `ilock` panics there. -/
def NoStray (s : Live P N) : Part → Prop
  | .enter d => (s.node d).nlink ≠ 0
  | .count i => (s.node i).nlink ≠ 32767
  | .climb i => (s.node i).type ≠ .free
  | .other => True

instance : ∀ (s : Live P N) (m : Part), Decidable (NoStray s m)
  | s, .enter d => inferInstanceAs (Decidable ((s.node d).nlink ≠ 0))
  | s, .count i => inferInstanceAs (Decidable ((s.node i).nlink ≠ 32767))
  | s, .climb i => inferInstanceAs (Decidable ((s.node i).type ≠ .free))
  | _, .other => inferInstanceAs (Decidable True)

/-- A run in which every part of a call meets a condition on the state before it. -/
inductive LiveRun (ok : Live P N → Part → Prop) (s₀ : Live P N) : Live P N → Prop
  | start : LiveRun ok s₀ s₀
  | step {s t : Live P N} {m : Part} (h : LiveRun ok s₀ s) (hm : ok s m) (hs : Move s m t) : LiveRun ok s₀ t

/-- The disk with its root directory, and one process there. -/
def boot (n : ℕ) (p : P) : Live P N := { (mkfs n p : Sys P N) with counted := [] }

section Runs

variable {s t : Live P N} {m : Part} {n : ℕ} {p : P} {d i : ℕ}

omit [DecidableEq N] [Fintype P] [DecidableEq P] in
theorem Alive.set {u : Sys P N} {ni : Node N} (h : Alive u fun _ => False)
    (hi : ni.type ≠ .free → ni.nlink = 0 → u.Held i) : Alive (u.set i ni) fun _ => False := by
  intro x _ ht hn
  by_cases hxi : x = i
  · subst hxi
    rw [show (u.set x ni).node x = ni from update_self _ _ _] at ht hn
    exact hi ht hn
  · rw [show (u.set i ni).node x = u.node x from update_of_ne hxi _ _] at ht hn
    exact h x id ht hn

/-- **A part of a call keeps the invariant.** -/
theorem Move.kept (h : Kept s) (hm : NoStray s m) (hs : Move s m t) : Kept t := by
  obtain ⟨hc, ha⟩ := h
  cases hs with
  | start p i hi =>
    refine ⟨hc.grab ?_, ha.grab⟩
    rcases hi with rfl | hi
    · exact IsDir.ne_free hc.tree.root
    · exact hc.held i (.inl ⟨p, hi⟩)
  | walk d i name hd hdir hi =>
    have hpos : 0 < s.names i := (dirlookup_count hi).trans_le
      (Sys.count_le_names (hc.tree.lt_ninodes (IsDir.ne_free hdir)) i)
    have hg := hc.grab (hc.tree.named i (dirlookup_ne_zero hi) hpos)
    exact ⟨hg.drop ((hc.spare hdir hd).trans_le count_le_count_cons), ha.grab.drop⟩
  | up d hd hdir =>
    exact ⟨(hc.grab hm).drop ((hc.spare hdir hd).trans_le count_le_count_cons), ha.grab.drop⟩
  | put i hi => exact ⟨hc.drop hi, ha.drop⟩
  | create d i name type hd hdir _ hi hfree htype hlen =>
    have hld := hc.linked_of_nlink hdir hm
    have hid := ne_of_free hdir hfree
    have hcr := hc.create hdir hld hi hfree htype hlen
    have hnf : ((s.toSys.create d i name type).node i).type ≠ .free := by
      rw [show (s.toSys.create d i name type).node i = ⟨type, 1, 0, []⟩ from update_self _ _ _]
      rcases htype with rfl | rfl
      · show Kind.file ≠ _; decide
      · show Kind.device ≠ _; decide
    have hal : Alive (s.toSys.create d i name type) fun _ => False :=
      ha.change (fun _ hz => .inl hz) (IsDir.ne_free hdir)
        (fun hz => absurd hz (by show (1 : BitVec 16) ≠ 0; decide))
    exact ⟨(hcr.grab hnf).drop ((hc.spare hdir hd).trans_le count_le_count_cons), hal.grab.drop⟩
  | mkdir d i name hd hdir _ hi hfree hlen =>
    have hld := hc.linked_of_nlink hdir hm
    have hcr := hc.mkdir hdir hld hi hfree hlen
    have hnf : ((s.toSys.mkdir d i name).node i).type ≠ .free := by
      rw [show (s.toSys.mkdir d i name).node i = ⟨.dir, 1, d, []⟩ from update_self _ _ _]
      show Kind.dir ≠ _
      decide
    have hal : Alive (s.toSys.mkdir d i name) fun _ => False := by
      refine ha.change (fun _ hz => absurd hz ?_) (IsDir.ne_free hdir)
        (fun hz => absurd hz (by show (1 : BitVec 16) ≠ 0; decide))
      intro hz
      have hlt := hc.tree.dir_nlink_lt hdir
      have hz' : ((s.node d).nlink + 1).toNat = 0 := by rw [show (s.node d).nlink + 1 = 0 from hz]; rfl
      rw [BitVec.toNat_add, show (1 : BitVec 16).toNat = 1 from rfl, Nat.mod_eq_of_lt (by omega)] at hz'
      omega
    exact ⟨(hcr.grab hnf).drop ((hc.spare hdir hd).trans_le count_le_count_cons), hal.grab.drop⟩
  | createFails d i hd hdir _ hfree =>
    have hnot : ¬ s.Held i := fun hh => hc.held i hh hfree
    exact ⟨(hc.free (.inr hfree) hnot).drop (hc.spare hdir hd), (ha.set fun hne => absurd rfl hne).drop⟩
  | link i hi ht hnd =>
    have hexact := hc.exact i ht hnd
    have hlt := (hc.tree.file i ht hnd).2
    have hmax : (s.node i).nlink.toNat ≠ 32767 := fun hq => hm (BitVec.eq_of_toNat_eq hq)
    have hadd : ((s.node i).nlink + 1).toNat = (s.node i).nlink.toNat + 1 := by
      rw [BitVec.toNat_add, show (1 : BitVec 16).toNat = 1 from rfl, Nat.mod_eq_of_lt (by omega)]
    refine ⟨hc.setLinks ht hnd (by rw [hadd, count_cons_self]; omega) (by omega)
      (fun x hx => count_cons_of_ne hx.symm) (by rw [count_cons_self]; omega), ha.set fun _ hz => ?_⟩
    have hz' : ((s.node i).nlink + 1).toNat = 0 := by rw [show (s.node i).nlink + 1 = 0 from hz]; rfl
    omega
  | enter d i name hd hdir hi _ hlen =>
    have hld := hc.linked_of_nlink hdir hm
    have hen := hc.enter hdir hld hi hlen
    have hcd : (s.counted.erase i).count d < s.opened.count d :=
      (List.Sublist.count_le d erase_sublist).trans_lt (hc.spare hdir hd)
    have hal : Alive (s.toSys.set d (s.addEntry d i name)) fun _ => False :=
      ha.set fun _ hz => ha d id (IsDir.ne_free hdir) hz
    exact ⟨hen.drop hcd, hal.drop⟩
  | linkFails i hi =>
    have hnd := hc.files i hi
    have hcount : 0 < s.counted.count i := count_pos_iff.2 hi
    have hheld : s.Held i := .inr (count_pos_iff.1 (hcount.trans_le (hc.pending i)))
    have ht := hc.held i hheld
    have hexact := hc.exact i ht hnd
    have hlt := (hc.tree.file i ht hnd).2
    have hsub := toNat_sub_one (x := (s.node i).nlink) (by omega)
    refine ⟨hc.setLinks ht hnd (by rw [hsub, count_erase_self]; omega) (by omega)
      (fun x hx => count_erase_of_ne hx) ?_, ha.set fun _ _ => hheld⟩
    rw [count_erase_self]
    have := hc.pending i
    omega
  | unlink d i name hd hdir hname hne ht _ hempty =>
    have hun := hc.unlink hdir hne ht hname hempty
    have hld := hc.linked_of_entry hdir (dirlookup_ne_zero hname) (dirlookup_count hname)
    have hal : Alive (s.toSys.unlink d i name) fun x => x = i := by
      refine ha.change (fun _ hz => ?_) (IsDir.ne_free hdir) (fun _ _ => .inr rfl)
      -- a directory that is linked and has had a directory in it has a link left
      have hz' : (if (s.node i).type = .dir then (s.node d).nlink - 1 else (s.node d).nlink) = 0 := hz
      by_cases hty : (s.node i).type = .dir
      · rw [if_pos hty] at hz'
        have hsub : 0 < s.subdirs d := by
          obtain ⟨k, hk⟩ := exists_mem_iff.2 (dirlookup_count hname)
          exact countP_pos_iff.2 ⟨_, hk, by simpa [hty] using dirlookup_ne_zero hname⟩
        have hlink := hc.tree.dir d hdir
        have htwo : 2 ≤ (s.node d).nlink.toNat := by
          rcases hld with hr | hr
          · rw [if_pos hr] at hlink
            omega
          · omega
        have hone := toNat_sub_one (x := (s.node d).nlink) (by omega)
        rw [hz', show (0 : BitVec 16).toNat = 0 from rfl] at hone
        omega
      · rw [if_neg hty] at hz'
        exact .inl hz'
    have hdr := hun.drop (hc.spare hdir hd)
    exact ⟨hdr.iput i, Alive.iput (Alive.drop fun x hx => hal x fun he => hx (.inr he))⟩
  | chdir p i j hi hdir hp =>
    have hr := hc.refs (update s.cwd p (some i)) (s.opened.erase i) (fun x hx => ?_) (fun x => ?_)
    · refine ⟨hr.iput j, Alive.iput fun x hx ht hn => ?_⟩
      have hxj : x ≠ j := fun hxj => hx (.inr hxj)
      rcases ha x id ht hn with ⟨q, hq⟩ | hm
      · have hqp : q ≠ p := by
          rintro rfl
          exact hxj (Option.some.inj (hq.symm.trans hp))
        exact .inl ⟨q, (update_of_ne hqp _ _).trans hq⟩
      · by_cases hxi : x = i
        · exact .inl ⟨p, by rw [hxi]; exact update_self _ _ _⟩
        · exact .inr ((mem_erase_of_ne hxi).2 hm)
    · rcases hx with ⟨q, hq⟩ | hx
      · by_cases hqp : q = p
        · rw [hqp, update_self] at hq
          cases hq
          exact IsDir.ne_free hdir
        · rw [update_of_ne hqp] at hq
          exact hc.held x (.inl ⟨q, hq⟩)
      · exact hc.held x (.inr (mem_of_mem_erase hx))
    · by_cases hxi : x = i
      · have := hc.spare hdir hi
        rw [hxi, count_erase_self]
        omega
      · rw [count_erase_of_ne hxi]
        exact hc.pending x
  | fork p q hq =>
    refine ⟨hc.refs _ s.opened (fun x hx => ?_) hc.pending, fun x _ ht hn => ?_⟩
    · rcases hx with ⟨r, hr⟩ | hx
      · by_cases hrq : r = q
        · rw [hrq, update_self] at hr
          exact hc.held x (.inl ⟨p, hr⟩)
        · rw [update_of_ne hrq] at hr
          exact hc.held x (.inl ⟨r, hr⟩)
      · exact hc.held x (.inr hx)
    · rcases ha x id ht hn with ⟨r, hr⟩ | hm
      · have hrq : r ≠ q := by
          rintro rfl
          exact Option.some_ne_none x (hr.symm.trans hq)
        exact .inl ⟨r, (update_of_ne hrq _ _).trans hr⟩
      · exact .inr hm
  | exit p i hp =>
    have hr := hc.refs (update s.cwd p none) s.opened (fun x hx => ?_) hc.pending
    · refine ⟨hr.iput i, Alive.iput fun x hx ht hn => ?_⟩
      have hxi : x ≠ i := fun hxi => hx (.inr hxi)
      rcases ha x id ht hn with ⟨q, hq⟩ | hm
      · have hqp : q ≠ p := by
          rintro rfl
          exact hxi (Option.some.inj (hq.symm.trans hp))
        exact .inl ⟨q, (update_of_ne hqp _ _).trans hq⟩
      · exact .inr hm
    · rcases hx with ⟨q, hq⟩ | hx
      · by_cases hqp : q = p
        · simp [hqp, update_self] at hq
        · rw [update_of_ne hqp] at hq
          exact hc.held x (.inl ⟨q, hq⟩)
      · exact hc.held x (.inr hx)

omit [DecidableEq N] [Fintype P] in
theorem kept_boot (n : ℕ) (p : P) : Kept (boot n p : Live P N) := by
  have hfree : ∀ i, i ≠ ROOTINO → ((boot n p : Live P N).node i).type = .free := by
    intro i hi
    show (if i = ROOTINO then (⟨.dir, 1, ROOTINO, []⟩ : Node N) else Node.unused).type = .free
    rw [if_neg hi]
    rfl
  have hnil : ∀ i, ((boot n p : Live P N).node i).slots = [] := by
    intro i
    show (if i = ROOTINO then (⟨.dir, 1, ROOTINO, []⟩ : Node N) else Node.unused).slots = []
    split <;> rfl
  have hroot : ∀ i, ((boot n p : Live P N).node i).type ≠ .free → i = ROOTINO := fun i hi => by
    by_contra hne
    exact hi (hfree i hne)
  refine ⟨⟨tree_mkfs n p, fun i hi hd => ?_, fun d _ _ e he => ?_, fun i hi => ?_, fun i => Nat.le_refl 0,
    fun i hi => (by cases hi), fun d hd _ => ?_⟩, fun i _ hi hz => ?_⟩
  · exact absurd (by rw [hroot i hi]; rfl) hd
  · simp [hnil d] at he
  · rcases hi with ⟨q, hq⟩ | hi
    · have hq' : update (fun _ => none) p (some ROOTINO) q = some i := hq
      by_cases hqp : q = p
      · rw [hqp, update_self] at hq'
        cases hq'
        show Kind.dir ≠ .free
        decide
      · rw [update_of_ne hqp] at hq'
        cases hq'
    · cases hi
  · rw [hroot d (IsDir.ne_free hd)]
    exact .root
  · rw [hroot i hi] at hz
    exact absurd hz (by show (1 : BitVec 16) ≠ 0; decide)

theorem LiveRun.kept (h : LiveRun NoStray (boot n p) s) : Kept s := by
  induction h with
  | start => exact kept_boot n p
  | step _ hm hs ih => exact hs.kept ih hm

/-- **No orphaned inodes**, in a run in which no entry is made in a directory without links and no link is
counted at the largest count: in every state an allocated inode other than the root has a name in a
directory that the names lead to from the root, or it is held, without links unless a `link` is under
way. -/
theorem run_kept (h : LiveRun NoStray (boot n p) s) (hi : i ≠ ROOTINO) (ht : (s.node i).type ≠ .free) :
    (∃ d name, s.RootReach d ∧ s.IsDir d ∧ (i, name) ∈ (s.node d).slots) ∨
      s.Held i ∧ (i ∉ s.counted → (s.node i).nlink = 0) := by
  obtain ⟨hc, ha⟩ := h.kept
  by_cases hpos : 0 < s.names i
  · obtain ⟨d, hd⟩ := Sys.exists_entry hpos
    have hdir : s.IsDir d := by
      by_contra hnd
      rw [hc.tree.slots d hnd] at hd
      exact absurd hd (Nat.lt_irrefl 0)
    obtain ⟨name, hname⟩ := exists_mem_iff.2 hd
    have hld := hc.linked_of_entry hdir (hc.tree.ne_zero ht) hd
    exact .inl ⟨d, name, hc.reach d hdir hld, hdir, hname⟩
  · have hnames : s.names i = 0 := Nat.eq_zero_of_not_pos hpos
    have hzero : i ∉ s.counted → (s.node i).nlink = 0 := by
      intro hnc
      by_cases hd : s.IsDir i
      · by_contra hn
        exact (hc.linked_of_nlink hd hn).elim hi hpos
      · have hexact := hc.exact i ht hd
        rw [hnames, count_eq_zero_of_not_mem hnc] at hexact
        exact BitVec.eq_of_toNat_eq hexact
    refine .inr ⟨?_, hzero⟩
    by_cases hnc : i ∈ s.counted
    · exact .inr (count_pos_iff.1 ((count_pos_iff.2 hnc).trans_le (hc.pending i)))
    · exact ha i id ht (hzero hnc)

/-- A directory and a file are made in the root directory, and the file is removed while it is open. -/
theorem run_kept_unlinked : ∃ s : Live Unit ℕ, LiveRun NoStray (boot 4 ()) s ∧
    (s.node 2).type = .dir ∧ (s.node 3).type = .file ∧ s.names 3 = 0 ∧
    ∀ i, i = 2 ∨ i = 3 → (∃ d name, s.RootReach d ∧ s.IsDir d ∧ (i, name) ∈ (s.node d).slots) ∨
      s.Held i ∧ (i ∉ s.counted → (s.node i).nlink = 0) := by
  have h := (LiveRun.start : LiveRun NoStray (boot 4 () : Live Unit ℕ) _)
    |>.step (by trivial) (.start _ () 1 (.inl rfl))
    |>.step (by decide +kernel) (.mkdir _ 1 2 0 (by decide +kernel) (by decide +kernel) (by decide +kernel)
      (by decide +kernel) (by decide +kernel) (by decide +kernel))
    |>.step (by trivial) (.start _ () 1 (.inl rfl))
    |>.step (by decide +kernel) (.create _ 1 3 1 .file (by decide +kernel) (by decide +kernel)
      (by decide +kernel) (by decide +kernel) (by decide +kernel) (.inl rfl) (by decide +kernel))
    |>.step (by trivial) (.start _ () 1 (.inl rfl))
    |>.step (by trivial) (.unlink _ 1 3 1 (by decide +kernel) (by decide +kernel)
      (by decide +kernel) (by decide)
      (by decide +kernel) (by decide +kernel) (by decide +kernel))
  refine ⟨_, h, by decide +kernel, by decide +kernel, by decide +kernel, ?_⟩
  rintro i (rfl | rfl)
  · exact run_kept h (by decide) (by decide +kernel)
  · exact run_kept h (by decide) (by decide +kernel)

/-- A process goes to a directory, removes it, makes a file in it and goes back: the directory is freed,
and the file is left with one link, no name and no reference. -/
theorem exists_orphan : ∃ s : Live Unit ℕ, LiveRun (fun _ _ => True) (boot 4 ()) s ∧
    (s.node 3).type = .file ∧ (s.node 3).nlink = 1 ∧ s.names 3 = 0 ∧ ¬ s.Held 3 := by
  have h := (LiveRun.start : LiveRun (fun _ _ => True) (boot 4 () : Live Unit ℕ) _)
    |>.step trivial (.start _ () 1 (.inl rfl))
    |>.step trivial (.mkdir _ 1 2 0 (by decide +kernel) (by decide +kernel) (by decide +kernel)
      (by decide +kernel) (by decide +kernel) (by decide +kernel))
    |>.step trivial (.put _ 2 (by decide +kernel))
    |>.step trivial (.start _ () 1 (.inl rfl))
    |>.step trivial (.walk _ 1 2 0 (by decide +kernel) (by decide +kernel) (by decide +kernel))
    |>.step trivial (.chdir _ () 2 1 (by decide +kernel) (by decide +kernel) (by decide +kernel))
    |>.step trivial (.start _ () 1 (.inl rfl))
    |>.step trivial (.unlink _ 1 2 0 (by decide +kernel) (by decide +kernel) (by decide +kernel) (by decide)
      (by decide +kernel) (by decide +kernel) (by decide +kernel))
    |>.step trivial (.start _ () 2 (.inr (by decide +kernel)))
    |>.step trivial (.create _ 2 3 0 .file (by decide +kernel) (by decide +kernel) (by decide +kernel)
      (by decide +kernel) (by decide +kernel) (.inl rfl) (by decide +kernel))
    |>.step trivial (.put _ 3 (by decide +kernel))
    |>.step trivial (.start _ () 1 (.inl rfl))
    |>.step trivial (.chdir _ () 1 2 (by decide +kernel) (by decide +kernel) (by decide +kernel))
  exact ⟨_, h, by decide +kernel, by decide +kernel, by decide +kernel, by decide +kernel⟩

end Runs

end Names

end Xv6
