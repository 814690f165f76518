import Xv6.Fs.Names

/-!
# Entries that a process can reach (`fs.c`, `sysfile.c`)

`unlink` of a directory that is the current directory of a process leaves a directory without a name in
use.  Its `..` still refers to the directory it was in, which can then be removed and freed.

* `Names.Rooted`: every current directory has a name or is the root, and so has every directory with
  entries;
* `Names.run_allocated`: while no current directory is removed, whatever a path leads to is allocated;
* `Names.exists_dangling`: the `..` of a removed current directory refers to a free inode.
-/

namespace Xv6

open Function

namespace Names

variable {N P : Type} [DecidableEq N] [Fintype P] [DecidableEq P]

/-- The inode is the root directory or has a name. -/
def Sys.Linked (s : Sys P N) (i : ℕ) : Prop := i = ROOTINO ∨ 0 < s.names i

/-- The invariant of the directories that paths lead through. -/
structure Rooted (s : Sys P N) : Prop where
  parent : (s.node ROOTINO).parent = ROOTINO
  cwd : ∀ p i, s.cwd p = some i → s.IsDir i ∧ s.Linked i
  inner : ∀ d, s.IsDir d → ¬ s.Linked d → ∀ e ∈ (s.node d).slots, e.1 = 0

section Changes

variable {s t : Sys P N} {d i j : ℕ} {p : P}

omit [DecidableEq N] [Fintype P] [DecidableEq P] in
theorem Rooted.linked_of_entry (h : Tree s) (hr : Rooted s) (hi : i ≠ 0)
    (hpos : 0 < (s.node d).slots.countP fun e => e.1 = i) : s.IsDir d ∧ s.Linked d := by
  obtain ⟨e, he, hei⟩ := List.countP_pos_iff.1 hpos
  have hei' : e.1 = i := by simpa using hei
  have hdir : s.IsDir d := by
    by_contra hd
    simp [h.slots d hd] at he
  refine ⟨hdir, ?_⟩
  by_contra hl
  exact hi (hei' ▸ hr.inner d hdir hl e he)

omit [DecidableEq N] [Fintype P] [DecidableEq P] in
theorem Sys.exists_entry (hi : 0 < s.names i) : ∃ d, 0 < (s.node d).slots.countP fun e => e.1 = i := by
  obtain ⟨d, -, hd⟩ := Finset.exists_ne_zero_of_sum_ne_zero (ne_of_gt hi)
  exact ⟨d, Nat.pos_of_ne_zero hd⟩

omit [Fintype P] [DecidableEq P] in
/-- **What a path leads to is linked and allocated.** -/
theorem Rooted.reaches (h : Tree s) (hr : Rooted s) (hp : s.Reaches p i) :
    s.Linked i ∧ (s.node i).type ≠ .free := by
  induction hp with
  | root => exact ⟨.inl rfl, Tree.IsDir.ne_free h.root⟩
  | cwd hc => exact ⟨(hr.cwd _ _ hc).2, Tree.IsDir.ne_free (hr.cwd _ _ hc).1⟩
  | @up d _ hd ih =>
    rcases ih.1 with hroot | hpos
    · rw [hroot, hr.parent]
      exact ⟨.inl rfl, Tree.IsDir.ne_free h.root⟩
    · obtain ⟨x, hx⟩ := Sys.exists_entry hpos
      rw [h.parent x d hd hx]
      obtain ⟨hxd, hxl⟩ := hr.linked_of_entry h (h.ne_zero (Tree.IsDir.ne_free hd)) hx
      exact ⟨hxl, Tree.IsDir.ne_free hxd⟩
  | @down d i name _ hd hname ih =>
    have hpos : 0 < s.names i := (dirlookup_count hname).trans_le
      (Sys.count_le_names (h.lt_ninodes (Tree.IsDir.ne_free hd)) i)
    exact ⟨.inr hpos, h.named i (dirlookup_ne_zero hname) hpos⟩

omit [DecidableEq N] [Fintype P] [DecidableEq P] in
/-- Linked directory `d` and inode `i` change, as in `Tree.change`. -/
theorem Rooted.change (h : Tree s) (hr : Rooted s) (nd ni : Node N) (hd : s.IsDir d) (hld : s.Linked d)
    (hid : i ≠ d) (hi : i ≠ 0 ∧ i < s.ninodes) (hnd : nd.type = .dir) (hndp : nd.parent = (s.node d).parent)
    (hnis : ni.slots = (s.node i).slots)
    (hsame : ni.type = (s.node i).type ∧ ni.parent = (s.node i).parent ∨ (s.node i).type = .free)
    (hother : ∀ j, j ≠ 0 → j ≠ i →
      nd.slots.countP (fun e => e.1 = j) = (s.node d).slots.countP fun e => e.1 = j)
    (ht : t = (s.set d nd).set i ni)
    (hkeep : s.names i ≤ t.names i ∨
      (∀ p, s.cwd p ≠ some i) ∧ (s.IsDir i → ∀ e ∈ (s.node i).slots, e.1 = 0)) : Rooted t := by
  obtain ⟨hti, htd, hto, hnames, hkind⟩ := h.changed hd hid hi.2 hnd hnis hother ht
  have hcwd : t.cwd = s.cwd := by rw [ht]; rfl
  have hlinked : ∀ j, j ≠ 0 → j ≠ i → (t.Linked j ↔ s.Linked j) := by
    intro j hj0 hji
    rw [Sys.Linked, Sys.Linked, hnames j hj0 hji]
  have htype : ∀ x, x ≠ i → (t.IsDir x ↔ s.IsDir x) := by
    intro x hxi
    rw [Sys.IsDir, Sys.IsDir, hkind x hxi]
  refine ⟨?_, fun p j hj => ?_, fun x hx hxl => ?_⟩
  · by_cases hri : ROOTINO = i
    · rcases hsame with ⟨-, hpa⟩ | hfree
      · rw [hri, hti, hpa, ← hri]
        exact hr.parent
      · exact absurd (hri ▸ hfree) (Tree.IsDir.ne_free h.root)
    · by_cases hrd : ROOTINO = d
      · rw [hrd, htd, hndp, ← hrd]
        exact hr.parent
      · rw [hto _ hri hrd]
        exact hr.parent
  · rw [hcwd] at hj
    obtain ⟨hjd, hjl⟩ := hr.cwd p j hj
    by_cases hji : j = i
    · subst hji
      rcases hsame with ⟨hty, -⟩ | hfree
      · rcases hkeep with hle | ⟨hno, -⟩
        · refine ⟨by rwa [Sys.IsDir, hti, hty], hjl.imp id fun hpos => by omega⟩
        · exact absurd hj (hno p)
      · exact absurd hfree (Tree.IsDir.ne_free hjd)
    · exact ⟨(htype j hji).2 hjd, (hlinked j (h.ne_zero (Tree.IsDir.ne_free hjd)) hji).2 hjl⟩
  · by_cases hxi : x = i
    · subst hxi
      rw [hti, hnis]
      by_cases hsx : s.IsDir x
      · rcases hkeep with hle | ⟨-, hzero⟩
        · refine hr.inner x hsx fun hl => hxl (hl.imp id fun hpos => by omega)
        · exact hzero hsx
      · rw [h.slots x hsx]
        simp
    · have hsx := (htype x hxi).1 hx
      have hx0 := h.ne_zero (Tree.IsDir.ne_free hsx)
      have hsl : ¬ s.Linked x := fun hl => hxl ((hlinked x hx0 hxi).2 hl)
      have hxd : x ≠ d := fun hxd => hsl (hxd ▸ hld)
      rw [hto x hxi hxd]
      exact hr.inner x hsx hsl

omit [DecidableEq N] [Fintype P] [DecidableEq P] in
/-- An inode without links that is no current directory goes. -/
theorem Rooted.free (h : Tree s) (hr : Rooted s) (hn : (s.node i).nlink = 0 ∨ (s.node i).type = .free)
    (hno : ∀ p, s.cwd p ≠ some i) : Rooted (s.set i Node.unused) := by
  have hof : ∀ x ≠ i, (s.set i Node.unused).node x = s.node x := fun x hx => update_of_ne hx _ _
  have hroot : ROOTINO ≠ i := by
    rintro rfl
    exact (h.dir_unlinked h.root hn).2.2 rfl
  have hlinked : ∀ j, s.IsDir j → ((s.set i Node.unused).Linked j ↔ s.Linked j) := fun j hj => by
    rw [Sys.Linked, Sys.Linked, h.names_free_dir hn hj]
  refine ⟨by rw [hof _ hroot]; exact hr.parent, fun p j hj => ?_, fun x hx hxl => ?_⟩
  · obtain ⟨hjd, hjl⟩ := hr.cwd p j hj
    have hji : j ≠ i := fun hji => hno p (hji ▸ hj)
    exact ⟨by rwa [Sys.IsDir, hof j hji], (hlinked j hjd).2 hjl⟩
  · have hxi : x ≠ i := by
      rintro rfl
      rw [Sys.IsDir, show (s.set x Node.unused).node x = Node.unused from update_self _ _ _] at hx
      cases hx
    rw [Sys.IsDir, hof x hxi] at hx
    rw [hof x hxi]
    exact hr.inner x hx fun hl => hxl ((hlinked x hx).2 hl)

omit [DecidableEq N] [DecidableEq P] in
theorem Rooted.iput (h : Tree s) (hr : Rooted s) (i : ℕ) : Rooted (s.iput i) := by
  unfold Sys.iput
  split
  next hi => exact hr.free h (.inl hi.1) fun p hp => hi.2 (.inl ⟨p, hp⟩)
  next => exact hr

end Changes

/-! ### Runs -/

/-- The call does not give a name to an inode whose link count is the largest, and does not remove a
current directory. -/
def NoRemoval (s : Sys P N) (c : Call) : Prop :=
  NoOverflow s c ∧ ∀ i, c = .unlink i → s.IsDir i → ∀ p, s.cwd p ≠ some i

section Runs

variable {s t : Sys P N} {c : Call} {n : ℕ} {p : P}

omit [DecidableEq N] [Fintype P] in
theorem rooted_mkfs (n : ℕ) (p : P) : Rooted (mkfs n p : Sys P N) := by
  refine ⟨rfl, fun q i hi => ?_, fun d _ _ e he => ?_⟩
  · have hi' : update (fun _ => none) p (some ROOTINO) q = some i := hi
    by_cases hq : q = p
    · rw [hq, update_self] at hi'
      cases hi'
      exact ⟨rfl, .inl rfl⟩
    · simp [update_of_ne hq] at hi'
  · have hnil : ((mkfs n p : Sys P N).node d).slots = [] := by
      show (if d = ROOTINO then (⟨.dir, 1, ROOTINO, []⟩ : Node N) else Node.unused).slots = []
      split <;> rfl
    rw [hnil] at he
    cases he

/-- **A call keeps the current directories linked.** -/
theorem Step.rooted (h : Tree s) (hr : Rooted s) (hc : NoRemoval s c) (hs : Step s c t) : Rooted t := by
  cases hs with
  | lookup p i _ _ => exact hr.iput h i
  | create p d i name type hd hdir _ hi hfree htype hlen =>
    have hid := Tree.ne_of_free hdir hfree
    have hi' : i ≠ 0 ∧ i < s.ninodes := ⟨hi.1.ne', hi.2⟩
    have hnil : (s.node i).slots = [] := h.slots i (by simp [Sys.IsDir, hfree])
    refine Rooted.iput (h.create hdir hi hfree htype hlen) (hr.change h (s.addEntry d i name)
      ⟨type, 1, 0, []⟩ hdir (hr.reaches h hd).1 hid hi' hdir rfl hnil.symm (.inr hfree)
      (fun j hj0 hji => Tree.count_place_other hj0 hji) rfl (.inl ?_)) d
    rw [h.names_eq_zero hi'.1 hfree]
    exact Nat.zero_le _
  | mkdir p d i name hd hdir _ hi hfree hlen =>
    have hid := Tree.ne_of_free hdir hfree
    have hi' : i ≠ 0 ∧ i < s.ninodes := ⟨hi.1.ne', hi.2⟩
    have hnil : (s.node i).slots = [] := h.slots i (by simp [Sys.IsDir, hfree])
    refine Rooted.iput (h.mkdir hdir hi hfree hlen) (hr.change h (s.addDir d i name)
      ⟨.dir, 1, d, []⟩ hdir (hr.reaches h hd).1 hid hi' hdir rfl hnil.symm (.inr hfree)
      (fun j hj0 hji => Tree.count_place_other hj0 hji) rfl (.inl ?_)) d
    rw [h.names_eq_zero hi'.1 hfree]
    exact Nat.zero_le _
  | createFails p d i _ _ _ hfree =>
    refine Rooted.iput (h.free (.inr hfree)) (hr.free h (.inr hfree) fun q hq => ?_) d
    exact Tree.IsDir.ne_free (hr.cwd q i hq).1 hfree
  | link p d i name _ ht hnd hd hdir _ hlen =>
    have hid : i ≠ d := fun hid => hnd (hid ▸ hdir)
    have hi' : i ≠ 0 ∧ i < s.ninodes := ⟨h.ne_zero ht, h.lt_ninodes ht⟩
    have htree := h.link hdir ht hnd (hc.1 i rfl) hlen
    have hone : (s.link d i name).names i = s.names i + 1 :=
      h.names_place (s.addEntry d i name) (s.withLinks i ((s.node i).nlink + 1)) hdir hid hi' rfl rfl
    exact Rooted.iput (htree.iput d) (Rooted.iput htree (hr.change h (s.addEntry d i name)
      (s.withLinks i ((s.node i).nlink + 1)) hdir (hr.reaches h hd).1 hid hi' hdir rfl rfl (.inl ⟨rfl, rfl⟩)
      (fun j hj0 hji => Tree.count_place_other hj0 hji) rfl (.inl (by rw [hone]; omega))) d) i
  | linkFails p i _ _ _ =>
    have hsame : s.set i (s.withLinks i ((s.node i).nlink + 1 - 1)) = s := by
      unfold Sys.withLinks Sys.set
      rw [BitVec.add_sub_cancel, update_eq_self]
    rw [hsame]
    exact hr.iput h i
  | unlink p d i name hd hdir hname hne ht _ hempty =>
    have hi' : i ≠ 0 ∧ i < s.ninodes := ⟨h.ne_zero ht, h.lt_ninodes ht⟩
    have htree := h.unlink hdir hne ht hname hempty
    -- a current directory is a directory, and no current directory is removed
    have hno : ∀ q, s.cwd q ≠ some i := fun q hq => hc.2 i rfl (hr.cwd q i hq).1 q hq
    exact Rooted.iput (htree.iput d) (Rooted.iput htree (hr.change h (s.cutEntry d i name)
      (s.withLinks i ((s.node i).nlink - 1)) hdir (hr.reaches h hd).1 hne hi' hdir rfl rfl (.inl ⟨rfl, rfl⟩)
      (fun j hj0 hji => Tree.count_clear_other hname hj0 hji) rfl (.inr ⟨hno, hempty⟩)) d) i
  | «open» p i _ _ => exact { hr with }
  | close i _ =>
    have hr' : Rooted { s with opened := s.opened.erase i } := { hr with }
    exact hr'.iput (h.moved _ _) i
  | chdir p i j hi hdir _ =>
    have hr' : Rooted { s with cwd := update s.cwd p (some i) } := by
      refine { hr with cwd := fun q k hk => ?_ }
      have hk' : update s.cwd p (some i) q = some k := hk
      by_cases hq : q = p
      · rw [hq, update_self] at hk'
        cases hk'
        exact ⟨hdir, (hr.reaches h hi).1⟩
      · rw [update_of_ne hq] at hk'
        exact hr.cwd q k hk'
    exact hr'.iput (h.moved _ _) j
  | fork p q _ =>
    refine { hr with cwd := fun r k hk => ?_ }
    have hk' : update s.cwd q (s.cwd p) r = some k := hk
    by_cases hrq : r = q
    · rw [hrq, update_self] at hk'
      exact hr.cwd p k hk'
    · rw [update_of_ne hrq] at hk'
      exact hr.cwd r k hk'
  | exit p i _ =>
    have hr' : Rooted { s with cwd := update s.cwd p none } := by
      refine { hr with cwd := fun q k hk => ?_ }
      have hk' : update s.cwd p none q = some k := hk
      by_cases hq : q = p
      · simp [hq, update_self] at hk'
      · rw [update_of_ne hq] at hk'
        exact hr.cwd q k hk'
    exact hr'.iput (h.moved _ _) i

theorem Run.rooted (h : Run NoRemoval (mkfs n p) s) : Tree s ∧ Rooted s := by
  induction h with
  | start => exact ⟨tree_mkfs n p, rooted_mkfs n p⟩
  | step _ hc hs ih => exact ⟨hs.tree ih.1 hc.1, hs.rooted ih.1 ih.2 hc⟩

/-- **No dangling entries**, in a run in which no current directory is removed and `link` never meets the
largest count: every entry of a directory that a path leads to, and its `..`, is of an allocated inode, and
whatever a path leads to is allocated. -/
theorem run_allocated (h : Run NoRemoval (mkfs n p) s) (q : P) :
    (∀ i, s.Reaches q i → (s.node i).type ≠ .free) ∧
    ∀ d, s.Reaches q d → s.IsDir d → (s.node (s.node d).parent).type ≠ .free ∧
      ∀ e ∈ (s.node d).slots, e.1 ≠ 0 → (s.node e.1).type ≠ .free := by
  obtain ⟨ht, hr⟩ := h.rooted
  refine ⟨fun i hi => (hr.reaches ht hi).2, fun d hd hdir => ⟨(hr.reaches ht (hd.up hdir)).2, ?_⟩⟩
  intro e he he0
  have hpos : 0 < (s.node d).slots.countP (fun x => x.1 = e.1) := List.countP_pos_iff.2 ⟨e, he, by simp⟩
  exact ht.named e.1 he0 (hpos.trans_le (Sys.count_le_names (ht.lt_ninodes (Tree.IsDir.ne_free hdir)) _))

/-- A process makes two directories, goes to the inner one, and its `..` is allocated. -/
theorem run_allocated_inner : ∃ s : Sys Unit ℕ, Run NoRemoval (mkfs 4 ()) s ∧ s.cwd () = some 3 ∧
    (s.node (s.node 3).parent).type ≠ .free := by
  have h := (Run.start : Run NoRemoval (mkfs 4 () : Sys Unit ℕ) _)
    |>.step ⟨fun _ hi => (by cases hi), fun _ hi => (by cases hi)⟩
      (.mkdir _ () 1 2 0 .root (by decide +kernel) rfl (by decide) rfl (by decide +kernel))
    |>.step ⟨fun _ hi => (by cases hi), fun _ hi => (by cases hi)⟩
      (.mkdir _ () 2 3 0 (.down .root (by decide +kernel) (show dirlookup 0 _ = some 2 by decide +kernel))
        (by decide +kernel) (by decide +kernel) (by decide +kernel) (by decide +kernel) (by decide +kernel))
    |>.step ⟨fun _ hi => (by cases hi), fun _ hi => (by cases hi)⟩
      (.chdir _ () 3 1 (.down (.down .root (by decide +kernel) (show dirlookup 0 _ =
      some 2 by decide +kernel))
        (by decide +kernel) (show dirlookup 0 _ = some 3 by decide +kernel)) (by decide +kernel)
        (by decide +kernel))
  exact ⟨_, h, by decide +kernel, ((run_allocated h ()).2 3 (.cwd (by decide +kernel)) (by decide +kernel)).1⟩

/-- A process goes to a directory in a directory and removes both: `..` in its current directory is of a
free inode, and a lookup of `..` panics in `ilock`. -/
theorem exists_dangling : ∃ s : Sys Unit ℕ, Run (fun _ _ => True) (mkfs 4 ()) s ∧ s.cwd () = some 3 ∧
    s.IsDir 3 ∧ (s.node (s.node 3).parent).type = .free ∧ s.Reaches () (s.node 3).parent := by
  have h := (Run.start : Run (fun _ _ => True) (mkfs 4 () : Sys Unit ℕ) _)
    |>.step trivial
      (.mkdir _ () 1 2 0 .root (by decide +kernel) rfl (by decide) rfl (by decide +kernel))
    |>.step trivial
      (.mkdir _ () 2 3 0 (.down .root (by decide +kernel) (show dirlookup 0 _ = some 2 by decide +kernel))
        (by decide +kernel) (by decide +kernel) (by decide +kernel) (by decide +kernel) (by decide +kernel))
    |>.step trivial
      (.chdir _ () 3 1 (.down (.down .root (by decide +kernel) (show dirlookup 0 _ =
      some 2 by decide +kernel))
        (by decide +kernel) (show dirlookup 0 _ = some 3 by decide +kernel)) (by decide +kernel)
        (by decide +kernel))
    |>.step trivial
      (.unlink _ () 2 3 0 (.down .root (by decide +kernel) (show dirlookup 0 _ = some 2 by decide +kernel))
        (by decide +kernel) (by decide +kernel) (by decide) (by decide +kernel) (by decide +kernel)
        (by decide +kernel))
    |>.step trivial
      (.unlink _ () 1 2 0 .root (by decide +kernel) (by decide +kernel) (by decide) (by decide +kernel)
        (by decide +kernel) (by decide +kernel))
  exact ⟨_, h, by decide +kernel, by decide +kernel, by decide +kernel,
    .up (.cwd (by decide +kernel)) (by decide +kernel)⟩

end Runs

end Names

end Xv6
