import Xv6.Param
import Mathlib.Algebra.BigOperators.Group.Finset.Basic
import Mathlib.Algebra.Order.BigOperators.Group.Finset
import Mathlib.Data.Fintype.Basic
import Mathlib.Logic.Relation
import Mathlib.Tactic

/-!
# Directories and link counts (`fs.c`, `sysfile.c`)

The system calls on names, one after the other, on inodes with their type, their link count and, for a
directory, its entries.  The entries `.` and `..`, which `create` writes first and no call changes, are
kept apart: `.` is the directory itself and `..` is `parent`.  Of the names of entries only equality
matters.  A path is a walk from the root or the current directory (`Reaches`); what a lookup does to a
directory that it passes is to drop its reference (`lookup`).  A call that fails, also for want of a block,
undoes what it has done.  A panic and a deadlock are no steps.

An inode stays in memory while it is the current directory of a process or open; `iput` frees it when it
has no links and is not held.

* `Names.Tree`: the link counts and the names, and `..` in a directory that has a name;
* `Names.Step.tree`: a call keeps it, unless `link` meets the largest link count;
* `Names.run_nlink`, `Names.run_forest`: link counts and directories in every run without such a `link`;
* `Names.exists_undercount`, `Names.exists_directory_with_names`: 32768 and 65536 names for one file.
-/

namespace Xv6

open Function List

namespace Names

/-- The root directory. -/
abbrev ROOTINO : ℕ := 1

/-- The entries that fit in a directory besides `.` and `..`: 268 blocks of 64 entries. -/
abbrev MAXENTRIES : ℕ := 17150

/-- The types of inodes. -/
inductive Kind
  | free
  | dir
  | file
  | device
  deriving DecidableEq

variable {N : Type} [DecidableEq N]

/-! ### Entries -/

/-- `dirlookup`: the inode of a name. An entry with inode 0 is empty. -/
def dirlookup (name : N) : List (ℕ × N) → Option ℕ
  | [] => none
  | e :: l => if e.1 ≠ 0 ∧ e.2 = name then some e.1 else dirlookup name l

/-- The entries after `dirlink`, which fills the first empty one. -/
def place (e : ℕ × N) : List (ℕ × N) → List (ℕ × N)
  | [] => [e]
  | x :: l => if x.1 = 0 then e :: l else x :: place e l

/-- The entries after `unlink` of a name. -/
def clear (name : N) : List (ℕ × N) → List (ℕ × N)
  | [] => []
  | e :: l => if e.1 ≠ 0 ∧ e.2 = name then (0, e.2) :: l else e :: clear name l

section Entries

variable {e : ℕ × N} {l : List (ℕ × N)} {name : N} {i : ℕ} {f : ℕ → Bool}

omit [DecidableEq N] in
theorem countP_place (hf : f 0 = false) (e : ℕ × N) (l : List (ℕ × N)) :
    (place e l).countP (fun x => f x.1) = l.countP (fun x => f x.1) + (f e.1).toNat := by
  induction l with
  | nil => cases h : f e.1 <;> simp [place, h]
  | cons x l ih =>
    unfold place
    split
    next hx => cases h : f e.1 <;> simp [hx, hf, h]
    next => simp only [countP_cons, ih]; omega

omit [DecidableEq N] in
theorem length_place_le (e : ℕ × N) (l : List (ℕ × N)) : (place e l).length ≤ l.length + 1 := by
  induction l with
  | nil => simp [place]
  | cons x l ih => unfold place; split <;> simp [ih]

theorem countP_clear (hf : f 0 = false) (h : dirlookup name l = some i) :
    (clear name l).countP (fun x => f x.1) + (f i).toNat = l.countP (fun x => f x.1) := by
  induction l with
  | nil => cases h
  | cons x l ih =>
    unfold dirlookup at h
    unfold clear
    split at h
    next hx =>
      cases h
      cases hx1 : f x.1 <;> simp [hx, hf, hx1]
    next hx =>
      rw [if_neg hx, countP_cons, countP_cons, ← ih h]
      omega

theorem length_clear (name : N) (l : List (ℕ × N)) : (clear name l).length = l.length := by
  induction l with
  | nil => rfl
  | cons x l ih => unfold clear; split <;> simp [ih]

theorem dirlookup_ne_zero (h : dirlookup name l = some i) : i ≠ 0 := by
  induction l with
  | nil => cases h
  | cons x l ih =>
    unfold dirlookup at h
    split at h
    next hx => cases h; exact hx.1
    next => exact ih h

theorem dirlookup_count (h : dirlookup name l = some i) : 0 < l.countP (fun x => x.1 = i) := by
  have hc := countP_clear (f := fun j => decide (j = i)) (by simpa using (dirlookup_ne_zero h).symm) h
  simp only [decide_true, Bool.toNat_true] at hc
  omega

end Entries

/-! ### States -/

/-- An inode. -/
structure Node (N : Type) where
  type : Kind
  nlink : BitVec 16
  /-- The entry `..`. -/
  parent : ℕ
  /-- The entries after `.` and `..`. -/
  slots : List (ℕ × N)

/-- An inode that is not allocated. -/
def Node.unused : Node N := ⟨.free, 0, 0, []⟩

/-- The inodes, the current directories and the open files. -/
structure Sys (P N : Type) where
  ninodes : ℕ
  node : ℕ → Node N
  cwd : P → Option ℕ
  /-- The inodes of the entries of the file table. -/
  opened : List ℕ

variable {P : Type} [Fintype P] [DecidableEq P]

namespace Sys

/-- An inode becomes `n`. -/
def set (s : Sys P N) (i : ℕ) (n : Node N) : Sys P N := { s with node := update s.node i n }

/-- The inode has a reference between calls. -/
def Held (s : Sys P N) (i : ℕ) : Prop := (∃ p, s.cwd p = some i) ∨ i ∈ s.opened

instance (s : Sys P N) (i : ℕ) : Decidable (s.Held i) := by unfold Held; infer_instance

/-- `iput` on the reference of a call. -/
def iput (s : Sys P N) (i : ℕ) : Sys P N :=
  if (s.node i).nlink = 0 ∧ ¬ s.Held i then s.set i Node.unused else s

/-- The inode is a directory. -/
def IsDir (s : Sys P N) (i : ℕ) : Prop := (s.node i).type = .dir

instance (s : Sys P N) (i : ℕ) : Decidable (s.IsDir i) := by unfold IsDir; infer_instance

/-- A path of process `p` leads to the inode. -/
inductive Reaches (s : Sys P N) (p : P) : ℕ → Prop
  | root : Reaches s p ROOTINO
  | cwd {i : ℕ} (h : s.cwd p = some i) : Reaches s p i
  | up {d : ℕ} (h : Reaches s p d) (hd : s.IsDir d) : Reaches s p (s.node d).parent
  | down {d i : ℕ} {name : N} (h : Reaches s p d) (hd : s.IsDir d)
      (hi : dirlookup name (s.node d).slots = some i) : Reaches s p i

/-- The entry of a name is written in directory `d`. -/
def addEntry (s : Sys P N) (d i : ℕ) (name : N) : Node N :=
  { s.node d with slots := place (i, name) (s.node d).slots }

/-- The entry of a directory is written in directory `d`, which `..` in the new one refers to. -/
def addDir (s : Sys P N) (d i : ℕ) (name : N) : Node N :=
  ⟨(s.node d).type, (s.node d).nlink + 1, (s.node d).parent, place (i, name) (s.node d).slots⟩

/-- The entry of a name is cleared in directory `d`, with the `..` of a directory. -/
def cutEntry (s : Sys P N) (d i : ℕ) (name : N) : Node N :=
  ⟨(s.node d).type, if (s.node i).type = .dir then (s.node d).nlink - 1 else (s.node d).nlink,
    (s.node d).parent, clear name (s.node d).slots⟩

/-- The inode with another link count. -/
def withLinks (s : Sys P N) (i : ℕ) (n : BitVec 16) : Node N := { s.node i with nlink := n }

/-- The inodes after `create` of a file or a device. -/
def create (s : Sys P N) (d i : ℕ) (name : N) (type : Kind) : Sys P N :=
  (s.set d (s.addEntry d i name)).set i ⟨type, 1, 0, []⟩

/-- The inodes after `create` of a directory. -/
def mkdir (s : Sys P N) (d i : ℕ) (name : N) : Sys P N :=
  (s.set d (s.addDir d i name)).set i ⟨.dir, 1, d, []⟩

/-- The inodes after `link`. -/
def link (s : Sys P N) (d i : ℕ) (name : N) : Sys P N :=
  (s.set d (s.addEntry d i name)).set i (s.withLinks i ((s.node i).nlink + 1))

/-- The inodes after `unlink`, before they are put. -/
def unlink (s : Sys P N) (d i : ℕ) (name : N) : Sys P N :=
  (s.set d (s.cutEntry d i name)).set i (s.withLinks i ((s.node i).nlink - 1))

end Sys

/-- The calls, with the inode that a name is given to or taken from. -/
inductive Call
  | lookup
  | create
  | mkdir
  | link (i : ℕ)
  | unlink (i : ℕ)
  | open
  | close
  | chdir
  | fork
  | exit
  deriving DecidableEq

/-- A system call. -/
inductive Step : Sys P N → Call → Sys P N → Prop
  /-- A lookup comes to an inode and drops it. -/
  | lookup (s : Sys P N) (p : P) (i : ℕ) (hi : s.Reaches p i) (ht : (s.node i).type ≠ .free) :
      Step s .lookup (s.iput i)
  /-- `open` with `O_CREATE`, and `mknod`, on a new name. -/
  | create (s : Sys P N) (p : P) (d i : ℕ) (name : N) (type : Kind) (hd : s.Reaches p d) (hdir : s.IsDir d)
      (hname : dirlookup name (s.node d).slots = none) (hi : 0 < i ∧ i < s.ninodes)
      (hfree : (s.node i).type = .free) (htype : type = .file ∨ type = .device)
      (hlen : (place (i, name) (s.node d).slots).length ≤ MAXENTRIES) :
      Step s .create ((s.create d i name type).iput d)
  /-- `mkdir`. -/
  | mkdir (s : Sys P N) (p : P) (d i : ℕ) (name : N) (hd : s.Reaches p d) (hdir : s.IsDir d)
      (hname : dirlookup name (s.node d).slots = none) (hi : 0 < i ∧ i < s.ninodes)
      (hfree : (s.node i).type = .free)
      (hlen : (place (i, name) (s.node d).slots).length ≤ MAXENTRIES) :
      Step s .mkdir ((s.mkdir d i name).iput d)
  /-- A call of `create` that has allocated an inode and fails. -/
  | createFails (s : Sys P N) (p : P) (d i : ℕ) (hd : s.Reaches p d) (hdir : s.IsDir d)
      (hi : 0 < i ∧ i < s.ninodes) (hfree : (s.node i).type = .free) :
      Step s .create ((s.set i Node.unused).iput d)
  /-- `link`. -/
  | link (s : Sys P N) (p : P) (d i : ℕ) (name : N) (hi : s.Reaches p i) (ht : (s.node i).type ≠ .free)
      (hnd : ¬ s.IsDir i) (hd : s.Reaches p d) (hdir : s.IsDir d)
      (hname : dirlookup name (s.node d).slots = none)
      (hlen : (place (i, name) (s.node d).slots).length ≤ MAXENTRIES) :
      Step s (.link i) (((s.link d i name).iput d).iput i)
  /-- `link` that has counted the new name and fails. -/
  | linkFails (s : Sys P N) (p : P) (i : ℕ) (hi : s.Reaches p i) (ht : (s.node i).type ≠ .free)
      (hnd : ¬ s.IsDir i) :
      Step s (.link i) ((s.set i (s.withLinks i ((s.node i).nlink + 1 - 1))).iput i)
  /-- `unlink`; a directory has to be empty. -/
  | unlink (s : Sys P N) (p : P) (d i : ℕ) (name : N) (hd : s.Reaches p d) (hdir : s.IsDir d)
      (hname : dirlookup name (s.node d).slots = some i) (hne : i ≠ d) (ht : (s.node i).type ≠ .free)
      (hnlink : 0 < (s.node i).nlink.toInt)
      (hempty : s.IsDir i → ∀ e ∈ (s.node i).slots, e.1 = 0) :
      Step s (.unlink i) (((s.unlink d i name).iput d).iput i)
  /-- `open`. -/
  | open (s : Sys P N) (p : P) (i : ℕ) (hi : s.Reaches p i) (ht : (s.node i).type ≠ .free) :
      Step s .open { s with opened := i :: s.opened }
  /-- `close` of the last descriptor of an open file. -/
  | close (s : Sys P N) (i : ℕ) (hi : i ∈ s.opened) :
      Step s .close ({ s with opened := s.opened.erase i }.iput i)
  /-- `chdir`. -/
  | chdir (s : Sys P N) (p : P) (i j : ℕ) (hi : s.Reaches p i) (hdir : s.IsDir i) (hp : s.cwd p = some j) :
      Step s .chdir ({ s with cwd := update s.cwd p (some i) }.iput j)
  /-- `fork`. -/
  | fork (s : Sys P N) (p q : P) (hq : s.cwd q = none) :
      Step s .fork { s with cwd := update s.cwd q (s.cwd p) }
  /-- `exit`. -/
  | exit (s : Sys P N) (p : P) (i : ℕ) (hp : s.cwd p = some i) :
      Step s .exit ({ s with cwd := update s.cwd p none }.iput i)

/-- The disk with its root directory and `n` inodes after it, and one process there. -/
def mkfs (n : ℕ) (p : P) : Sys P N where
  ninodes := n + 2
  node i := if i = ROOTINO then ⟨.dir, 1, ROOTINO, []⟩ else Node.unused
  cwd := update (fun _ => none) p (some ROOTINO)
  opened := []

/-! ### Names and link counts -/

namespace Sys

/-- The entries that name an inode, in all directories. -/
def names (s : Sys P N) (i : ℕ) : ℕ :=
  ∑ d ∈ Finset.range s.ninodes, (s.node d).slots.countP fun e => e.1 = i

/-- The entries of a directory that name directories. -/
def subdirs (s : Sys P N) (d : ℕ) : ℕ :=
  (s.node d).slots.countP fun e => e.1 ≠ 0 ∧ (s.node e.1).type = .dir

end Sys

/-- The invariant of names and link counts. -/
structure Tree (s : Sys P N) : Prop where
  root : s.IsDir ROOTINO
  zero : (s.node 0).type = .free
  range : ∀ i, s.ninodes ≤ i → (s.node i).type = .free
  slots : ∀ i, ¬ s.IsDir i → (s.node i).slots = []
  size : ∀ i, (s.node i).slots.length ≤ MAXENTRIES
  named : ∀ i ≠ 0, 0 < s.names i → (s.node i).type ≠ .free
  file : ∀ i, (s.node i).type ≠ .free → ¬ s.IsDir i →
    s.names i ≤ (s.node i).nlink.toNat ∧ (s.node i).nlink.toNat < 2 ^ 15
  dir : ∀ i, s.IsDir i →
    (s.node i).nlink.toNat = s.names i + s.subdirs i + if i = ROOTINO then 1 else 0
  once : ∀ i, s.IsDir i → s.names i ≤ if i = ROOTINO then 0 else 1
  parent : ∀ d e, s.IsDir e → 0 < (s.node d).slots.countP (fun x => x.1 = e) → (s.node e).parent = d

section Counting

variable {s t : Sys P N} {d i j : ℕ} {n nd ni : Node N}

section

omit [DecidableEq N] [Fintype P] [DecidableEq P]

theorem Sys.names_set (hd : d < s.ninodes) (n : Node N) (j : ℕ) :
    (s.set d n).names j + (s.node d).slots.countP (fun e => e.1 = j) =
      s.names j + n.slots.countP (fun e => e.1 = j) := by
  have hm : d ∈ Finset.range s.ninodes := Finset.mem_range.2 hd
  have hsplit : ∀ g : ℕ → ℕ, ∑ x ∈ Finset.range s.ninodes, g x =
      g d + ∑ x ∈ (Finset.range s.ninodes).erase d, g x := fun g => (Finset.add_sum_erase _ g hm).symm
  have hs : s.names j = _ := hsplit fun x => (s.node x).slots.countP fun e : ℕ × N => decide (e.1 = j)
  have ht : (s.set d n).names j = _ :=
    hsplit fun x => ((s.set d n).node x).slots.countP fun e : ℕ × N => decide (e.1 = j)
  have hrest : ∀ x ∈ (Finset.range s.ninodes).erase d,
      ((s.set d n).node x).slots.countP (fun e => decide (e.1 = j)) =
        (s.node x).slots.countP fun e => decide (e.1 = j) := by
    intro x hx
    rw [show (s.set d n).node x = s.node x from update_of_ne (Finset.ne_of_mem_erase hx) _ _]
  rw [hs, ht, Finset.sum_congr rfl hrest, show (s.set d n).node d = n from update_self _ _ _]
  omega

theorem Sys.count_le_names (hd : d < s.ninodes) (j : ℕ) :
    (s.node d).slots.countP (fun e => e.1 = j) ≤ s.names j :=
  Finset.single_le_sum (f := fun x => (s.node x).slots.countP fun e => e.1 = j) (fun _ _ => Nat.zero_le _)
    (Finset.mem_range.2 hd)

theorem Sys.countP_dir_congr {l : List (ℕ × N)}
    (htype : ∀ e, e ≠ 0 → 0 < l.countP (fun x => x.1 = e) → (t.IsDir e ↔ s.IsDir e)) :
    l.countP (fun e => e.1 ≠ 0 ∧ (t.node e.1).type = .dir) =
      l.countP fun e => e.1 ≠ 0 ∧ (s.node e.1).type = .dir := by
  refine countP_congr fun e he => ?_
  have hpos : 0 < l.countP (fun x => x.1 = e.1) := countP_pos_iff.2 ⟨e, he, by simp⟩
  by_cases h0 : e.1 = 0
  · simp [h0]
  · simpa [h0, Sys.IsDir] using htype e.1 h0 hpos

theorem Sys.subdirs_congr (hslots : (t.node d).slots = (s.node d).slots)
    (htype : ∀ e, e ≠ 0 → 0 < (s.node d).slots.countP (fun x => x.1 = e) → (t.IsDir e ↔ s.IsDir e)) :
    t.subdirs d = s.subdirs d := by
  unfold Sys.subdirs
  rw [hslots]
  exact Sys.countP_dir_congr htype

theorem Sys.names_change (nd ni : Node N) (hd : d < s.ninodes) (hi : i < s.ninodes) (hid : i ≠ d)
    (hnis : ni.slots = (s.node i).slots) (j : ℕ) :
    ((s.set d nd).set i ni).names j + (s.node d).slots.countP (fun e => e.1 = j) =
      s.names j + nd.slots.countP (fun e => e.1 = j) := by
  have h1 := Sys.names_set (s := s) hd nd j
  have h2 := Sys.names_set (s := s.set d nd) (d := i) hi ni j
  rw [show (s.set d nd).node i = s.node i from update_of_ne hid _ _, hnis] at h2
  omega

end

namespace Tree

open Sys (IsDir)

section

omit [DecidableEq N] [Fintype P] [DecidableEq P]

theorem lt_ninodes (h : Tree s) (hi : (s.node i).type ≠ .free) : i < s.ninodes := by
  by_contra hge
  exact hi (h.range i (not_lt.1 hge))

theorem ne_zero (h : Tree s) (hi : (s.node i).type ≠ .free) : i ≠ 0 := by
  rintro rfl
  exact hi h.zero

theorem count_eq_zero (h : Tree s) (hi : s.names i = 0) (d : ℕ) :
    (s.node d).slots.countP (fun e => e.1 = i) = 0 := by
  by_cases hd : d < s.ninodes
  · exact Nat.le_zero.1 (hi ▸ Sys.count_le_names hd i)
  · have hfree := h.range d (not_lt.1 hd)
    rw [h.slots d (by simp [IsDir, hfree])]
    rfl

theorem IsDir.ne_free (h : s.IsDir i) : (s.node i).type ≠ .free := by
  rw [show (s.node i).type = .dir from h]
  decide

end

/-- Directory `d` and inode `i` are now `nd` and `ni`; the other inodes, and the names of inodes other than
`i`, are as they were. -/
structure Changed (s t : Sys P N) (d i : ℕ) (nd ni : Node N) : Prop where
  self : t.node i = ni
  dir : t.node d = nd
  other : ∀ x, x ≠ i → x ≠ d → t.node x = s.node x
  names : ∀ j, j ≠ 0 → j ≠ i → t.names j = s.names j
  type : ∀ x, x ≠ i → (t.node x).type = (s.node x).type

section

omit [DecidableEq N] [Fintype P] [DecidableEq P]

section

variable (h : Tree s)
include h

/-- The only entries that come or go are ones of `i` in `d`. -/
theorem changed (hd : s.IsDir d) (hid : i ≠ d) (hi : i < s.ninodes) (hnd : nd.type = .dir)
    (hnis : ni.slots = (s.node i).slots)
    (hother : ∀ j, j ≠ 0 → j ≠ i →
      nd.slots.countP (fun e => e.1 = j) = (s.node d).slots.countP fun e => e.1 = j)
    (ht : t = (s.set d nd).set i ni) : Changed s t d i nd ni := by
  subst ht
  have hdir : ((s.set d nd).set i ni).node d = nd :=
    (update_of_ne hid.symm _ _).trans (update_self _ _ _)
  have hto : ∀ x, x ≠ i → x ≠ d → ((s.set d nd).set i ni).node x = s.node x := fun x hxi hxd =>
    (update_of_ne hxi _ _).trans (update_of_ne hxd _ _)
  refine ⟨update_self _ _ _, hdir, hto, fun j hj0 hji => ?_, fun x hxi => ?_⟩
  · have hj := Sys.names_change nd ni (h.lt_ninodes (IsDir.ne_free hd)) hi hid hnis j
    rw [hother j hj0 hji] at hj
    omega
  · by_cases hxd : x = d
    · rw [hxd, hdir, hnd]
      exact hd.symm
    · rw [hto x hxi hxd]

/-- Directory `d` and inode `i` change, and the only entries that come or go are ones of `i` in `d`. -/
theorem change (nd ni : Node N) (hd : s.IsDir d) (hid : i ≠ d) (hi : i ≠ 0 ∧ i < s.ninodes)
    (hnd : nd.type = .dir) (hndp : nd.parent = (s.node d).parent) (hlen : nd.slots.length ≤ MAXENTRIES)
    (hnis : ni.slots = (s.node i).slots) (hfree : ni.type ≠ .free)
    (hsame : ni.type = (s.node i).type ∧ ni.parent = (s.node i).parent ∨
      (s.node i).type = .free ∧ s.names i = 0)
    (hother : ∀ j, j ≠ 0 → j ≠ i →
      nd.slots.countP (fun e => e.1 = j) = (s.node d).slots.countP fun e => e.1 = j)
    (ht : t = (s.set d nd).set i ni)
    (hfile : ni.type ≠ .dir → t.names i ≤ ni.nlink.toNat ∧ ni.nlink.toNat < 2 ^ 15)
    (hdir : ni.type = .dir → ni.nlink.toNat = t.names i + t.subdirs i + (if i = ROOTINO then 1 else 0) ∧
      (t.names i ≤ if i = ROOTINO then 0 else 1) ∧
      (0 < nd.slots.countP (fun e => e.1 = i) → ni.parent = d))
    (hdlink : nd.nlink.toNat = s.names d + t.subdirs d + if d = ROOTINO then 1 else 0) : Tree t := by
  have hd0 := h.ne_zero (IsDir.ne_free hd)
  obtain ⟨hti, htd, hto, hnames, htype⟩ := h.changed hd hid hi.2 hnd hnis hother ht
  have hN : t.ninodes = s.ninodes := by rw [ht]; rfl
  have hparent : ∀ x, x ≠ i → (t.node x).parent = (s.node x).parent := by
    intro x hxi
    by_cases hxd : x = d
    · rw [hxd, htd, hndp]
    · rw [hto x hxi hxd]
  have hslots : ∀ x, x ≠ d → (t.node x).slots = (s.node x).slots := by
    intro x hxd
    by_cases hxi : x = i
    · rw [hxi, hti, hnis]
    · rw [hto x hxi hxd]
  -- the type of `i` is the same, or no entry names it
  have hisdir : ∀ x e, 0 < (s.node x).slots.countP (fun y => y.1 = e) → (t.IsDir e ↔ s.IsDir e) := by
    intro x e hpos
    by_cases hei : e = i
    · rcases hsame with ⟨hty, -⟩ | ⟨-, hn⟩
      · rw [hei, IsDir, IsDir, hti, hty]
      · exact absurd (h.count_eq_zero (hei ▸ hn) x) hpos.ne'
    · rw [IsDir, IsDir, htype e hei]
  have hsub : ∀ x, x ≠ d → t.subdirs x = s.subdirs x := fun x hxd =>
    Sys.subdirs_congr (hslots x hxd) fun e _ hpos => hisdir x e hpos
  constructor
  case root =>
    by_cases hri : ROOTINO = i
    · rcases hsame with ⟨hty, -⟩ | ⟨hty, -⟩
      · rw [IsDir, hri, hti, hty, ← hri]
        exact h.root
      · exact absurd hty (hri ▸ IsDir.ne_free h.root)
    · exact (htype _ hri).trans h.root
  case zero =>
    rw [htype 0 hi.1.symm]
    exact h.zero
  case range =>
    intro x hx
    rw [hN] at hx
    rw [htype x (fun hxi => absurd hi.2 (by omega))]
    exact h.range x hx
  case slots =>
    intro x hx
    by_cases hxd : x = d
    · exact absurd (by rw [IsDir, hxd, htd, hnd]) hx
    · rw [hslots x hxd]
      by_cases hxi : x = i
      · rcases hsame with ⟨hty, -⟩ | ⟨hty, -⟩
        · refine h.slots x fun hsx => hx ?_
          rwa [IsDir, hxi, hti, hty, ← hxi]
        · exact h.slots x (by rw [IsDir, hxi, hty]; decide)
      · exact h.slots x fun hsx => hx ((htype x hxi).trans hsx)
  case size =>
    intro x
    by_cases hxd : x = d
    · rwa [hxd, htd]
    · rw [hslots x hxd]
      exact h.size x
  case named =>
    intro x hx0 hpos
    by_cases hxi : x = i
    · rwa [hxi, hti]
    · rw [htype x hxi]
      exact h.named x hx0 (hnames x hx0 hxi ▸ hpos)
  case file =>
    intro x hx hxd
    by_cases hxi : x = i
    · subst hxi
      rw [hti]
      exact hfile (by rwa [IsDir, hti] at hxd)
    · have hx' : (s.node x).type ≠ .free := htype x hxi ▸ hx
      have hne : x ≠ d := fun hxd' => hxd ((htype x hxi).trans (hxd' ▸ hd))
      rw [hto x hxi hne, hnames x (h.ne_zero hx') hxi]
      exact h.file x hx' fun hsx => hxd ((htype x hxi).trans hsx)
  case dir =>
    intro x hx
    by_cases hxi : x = i
    · subst hxi
      rw [IsDir, hti] at hx
      rw [hti]
      exact (hdir hx).1
    · by_cases hxd : x = d
      · subst hxd
        rwa [htd, hnames x hd0 hxi]
      · have hsx : s.IsDir x := (htype x hxi).symm.trans hx
        rw [hto x hxi hxd, hnames x (h.ne_zero (IsDir.ne_free hsx)) hxi, hsub x hxd]
        exact h.dir x hsx
  case once =>
    intro x hx
    by_cases hxi : x = i
    · subst hxi
      rw [IsDir, hti] at hx
      exact (hdir hx).2.1
    · have hsx : s.IsDir x := (htype x hxi).symm.trans hx
      rw [hnames x (h.ne_zero (IsDir.ne_free hsx)) hxi]
      exact h.once x hsx
  case parent =>
    intro x e he hpos
    by_cases hei : e = i
    · subst hei
      rw [hti]
      rw [IsDir, hti] at he
      by_cases hxd : x = d
      · subst hxd
        rw [htd] at hpos
        exact (hdir he).2.2 hpos
      · rw [hslots x hxd] at hpos
        rcases hsame with ⟨hty, hpa⟩ | ⟨-, hn⟩
        · rw [hpa]
          exact h.parent x e (hty.symm.trans he) hpos
        · exact absurd (h.count_eq_zero hn x) hpos.ne'
    · have hse : s.IsDir e := (htype e hei).symm.trans he
      rw [hparent e hei]
      refine h.parent x e hse ?_
      by_cases hxd : x = d
      · subst hxd
        rwa [htd, hother e (h.ne_zero (IsDir.ne_free hse)) hei] at hpos
      · rwa [hslots x hxd] at hpos

/-- The types of inodes that have names do not change in `change`. -/
theorem isDir_change (hd : s.IsDir d) (hnd : nd.type = .dir)
    (hsame : ni.type = (s.node i).type ∨ s.names i = 0) {l : List (ℕ × N)} {x e : ℕ}
    (hl : l = (s.node x).slots) (hpos : 0 < l.countP (fun y => y.1 = e)) :
    ((s.set d nd).set i ni).IsDir e ↔ s.IsDir e := by
  subst hl
  by_cases hei : e = i
  · rcases hsame with hty | hn
    · rw [hei, IsDir, IsDir, show ((s.set d nd).set i ni).node i = ni from
        update_self _ _ _, hty]
    · exact absurd (h.count_eq_zero (hei ▸ hn) x) hpos.ne'
  · rw [IsDir, show ((s.set d nd).set i ni).node e = (s.set d nd).node e from
      update_of_ne hei _ _]
    by_cases hed : e = d
    · rw [hed, show (s.set d nd).node d = nd from update_self _ _ _]
      exact iff_of_true hnd hd
    · rw [show (s.set d nd).node e = s.node e from update_of_ne hed _ _]
      rfl

theorem dir_nlink_lt (hd : s.IsDir d) : (s.node d).nlink.toNat < 2 ^ 15 - 1 := by
  have hlink := h.dir d hd
  have honce := h.once d hd
  have hsub : s.subdirs d ≤ 17150 := (countP_le_length).trans (h.size d)
  split at hlink
  next hr => rw [if_pos hr] at honce; omega
  next hr => rw [if_neg hr] at honce; omega

theorem names_eq_zero (hi : i ≠ 0) (hfree : (s.node i).type = .free) : s.names i = 0 := by
  by_contra hpos
  exact h.named i hi (Nat.pos_of_ne_zero hpos) hfree

theorem dir_unlinked (hd : s.IsDir i) (hn : (s.node i).nlink = 0 ∨ (s.node i).type = .free) :
    s.names i = 0 ∧ s.subdirs i = 0 ∧ i ≠ ROOTINO := by
  have hlink := h.dir i hd
  rcases hn with hn | hn
  · rw [hn, show (0 : BitVec 16).toNat = 0 from rfl] at hlink
    refine ⟨by omega, by omega, fun hr => ?_⟩
    rw [if_pos hr] at hlink
    omega
  · exact absurd hn (IsDir.ne_free hd)

/-- The names that go with an inode are the entries in it. -/
theorem names_free (i j : ℕ) :
    (s.set i Node.unused).names j + (s.node i).slots.countP (fun e => e.1 = j) = s.names j := by
  by_cases hi : i < s.ninodes
  · exact (Sys.names_set hi Node.unused j).trans (by simp [Node.unused])
  · have hfree := h.range i (not_lt.1 hi)
    rw [h.slots i (by simp [IsDir, hfree]), countP_nil, Nat.add_zero]
    refine Finset.sum_congr rfl fun x hx => ?_
    have hxi : x ≠ i := fun hxi => hi (hxi ▸ Finset.mem_range.1 hx)
    rw [show (s.set i Node.unused).node x = s.node x from update_of_ne hxi _ _]

/-- A directory keeps its name when an inode without links goes. -/
theorem names_free_dir (hn : (s.node i).nlink = 0 ∨ (s.node i).type = .free) (hj : s.IsDir j) :
    (s.set i Node.unused).names j = s.names j := by
  have hcount : (s.node i).slots.countP (fun e => e.1 = j) = 0 := by
    by_cases hd : s.IsDir i
    · have hsub := countP_eq_zero.1 (h.dir_unlinked hd hn).2.1
      refine countP_eq_zero.2 fun e he hej => hsub e he ?_
      have hej' : e.1 = j := by simpa using hej
      simpa [hej'] using ⟨h.ne_zero (IsDir.ne_free hj), hj⟩
    · rw [h.slots i hd]
      rfl
  rw [← h.names_free i j, hcount, Nat.add_zero]

theorem free (hn : (s.node i).nlink = 0 ∨ (s.node i).type = .free) :
    Tree (s.set i Node.unused) := by
  have hself : (s.set i Node.unused).node i = Node.unused := update_self _ _ _
  have hof : ∀ x ≠ i, (s.set i Node.unused).node x = s.node x := fun x hx => update_of_ne hx _ _
  have hdir0 := fun hd : s.IsDir i => h.dir_unlinked hd hn
  have hroot : i ≠ ROOTINO := fun hr => (hdir0 (hr ▸ h.root)).2.2 hr
  have hnames0 : i ≠ 0 → s.names i = 0 := by
    intro hi0
    by_contra hpos
    have hty := h.named i hi0 (Nat.pos_of_ne_zero hpos)
    by_cases hd : s.IsDir i
    · exact hpos (hdir0 hd).1
    · have hfile := (h.file i hty hd).1
      rcases hn with hn | hn
      · rw [hn] at hfile
        exact hpos (Nat.le_zero.1 hfile)
      · exact hty hn
  have hnames := h.names_free i
  have hisdir : ∀ e, (s.set i Node.unused).IsDir e → e ≠ i ∧ s.IsDir e := by
    intro e he
    have hei : e ≠ i := by
      rintro rfl
      rw [IsDir, hself] at he
      cases he
    exact ⟨hei, by rwa [IsDir, hof e hei] at he⟩
  have hsub : ∀ x ≠ i, (s.set i Node.unused).subdirs x = s.subdirs x := by
    intro x hx
    refine Sys.subdirs_congr (by rw [hof x hx]) fun e he0 hpos => ?_
    have hei : e ≠ i := fun hei => hpos.ne' (hei ▸ h.count_eq_zero (hnames0 (hei ▸ he0)) x)
    rw [IsDir, IsDir, hof e hei]
  have hnamesDir : ∀ j, s.IsDir j → (s.set i Node.unused).names j = s.names j :=
    fun j hj => h.names_free_dir hn hj
  constructor
  case root =>
    rw [IsDir, hof _ hroot.symm]
    exact h.root
  case zero =>
    by_cases hi : (0 : ℕ) = i
    · rw [hi, hself]
      rfl
    · rw [hof 0 hi]
      exact h.zero
  case range =>
    intro x hx
    by_cases hxi : x = i
    · rw [hxi, hself]
      rfl
    · rw [hof x hxi]
      exact h.range x hx
  case slots =>
    intro x hx
    by_cases hxi : x = i
    · rw [hxi, hself]
      rfl
    · rw [hof x hxi]
      exact h.slots x fun hd => hx (by rwa [IsDir, hof x hxi])
  case size =>
    intro x
    by_cases hxi : x = i
    · rw [hxi, hself]
      exact Nat.zero_le _
    · rw [hof x hxi]
      exact h.size x
  case named =>
    intro x hx0 hpos
    have hle := hnames x
    by_cases hxi : x = i
    · have := hnames0 (hxi ▸ hx0)
      rw [hxi] at hle hpos
      omega
    · rw [hof x hxi]
      exact h.named x hx0 (by omega)
  case file =>
    intro x hx hxd
    have hxi : x ≠ i := by
      rintro rfl
      rw [hself] at hx
      exact hx rfl
    rw [hof x hxi] at hx ⊢
    have hfile := h.file x hx fun hd => hxd (by rwa [IsDir, hof x hxi])
    have hle := hnames x
    exact ⟨by omega, hfile.2⟩
  case dir =>
    intro x hx
    obtain ⟨hxi, hsx⟩ := hisdir x hx
    rw [hof x hxi, hnamesDir x hsx, hsub x hxi]
    exact h.dir x hsx
  case once =>
    intro x hx
    obtain ⟨hxi, hsx⟩ := hisdir x hx
    rw [hnamesDir x hsx]
    exact h.once x hsx
  case parent =>
    intro x e he hpos
    obtain ⟨hei, hse⟩ := hisdir e he
    rw [hof e hei]
    by_cases hxi : x = i
    · rw [hxi, hself] at hpos
      exact absurd hpos (by simp [Node.unused])
    · rw [hof x hxi] at hpos
      exact h.parent x e hse hpos

/-- The entries of `d` that name directories, when one of `i` comes. -/
theorem subdirs_place (nd ni : Node N) (hd : s.IsDir d) (hid : i ≠ d) (hi : i ≠ 0) (hnd : nd.type = .dir)
    (hsame : ni.type = (s.node i).type ∨ s.names i = 0) {name : N}
    (hslots : nd.slots = place (i, name) (s.node d).slots) :
    ((s.set d nd).set i ni).subdirs d = s.subdirs d + if ni.type = .dir then 1 else 0 := by
  have htd : ((s.set d nd).set i ni).node d = nd :=
    (update_of_ne hid.symm _ _).trans (update_self _ _ _)
  have hti : ((s.set d nd).set i ni).node i = ni := update_self _ _ _
  have hcount := countP_place (f := fun x => decide (x ≠ 0 ∧ (((s.set d nd).set i ni).node x).type = .dir))
    (by simp) (i, name) (s.node d).slots
  unfold Sys.subdirs
  rw [htd, hslots, hcount, Sys.countP_dir_congr fun e _ hpos => h.isDir_change hd hnd hsame rfl hpos, hti]
  by_cases hty : ni.type = .dir <;> simp [hty, hi]

end

end

omit [Fintype P] [DecidableEq P] in
/-- The entries of `d` that name directories, when one of `i` goes. -/
theorem subdirs_clear (h : Tree s) (nd ni : Node N) (hd : s.IsDir d) (hid : i ≠ d) (hi : i ≠ 0)
    (hnd : nd.type = .dir)
    (hsame : ni.type = (s.node i).type) {name : N} (hname : dirlookup name (s.node d).slots = some i)
    (hslots : nd.slots = clear name (s.node d).slots) :
    ((s.set d nd).set i ni).subdirs d + (if ni.type = .dir then 1 else 0) = s.subdirs d := by
  have htd : ((s.set d nd).set i ni).node d = nd :=
    (update_of_ne hid.symm _ _).trans (update_self _ _ _)
  have hti : ((s.set d nd).set i ni).node i = ni := update_self _ _ _
  have hcount := countP_clear (f := fun x => decide (x ≠ 0 ∧ (((s.set d nd).set i ni).node x).type = .dir))
    (by simp) hname
  rw [Sys.countP_dir_congr fun e _ hpos => h.isDir_change hd hnd (.inl hsame) rfl hpos, hti] at hcount
  unfold Sys.subdirs
  rw [htd, hslots, ← hcount]
  by_cases hty : ni.type = .dir <;> simp [hty, hi]

section

omit [DecidableEq N] [Fintype P] [DecidableEq P]

/-- An allocated inode is not the one that `ialloc` finds. -/
theorem ne_of_free (hd : s.IsDir d) (hfree : (s.node i).type = .free) : i ≠ d := by
  rintro rfl
  exact IsDir.ne_free hd hfree

theorem count_place_other {name : N} {l : List (ℕ × N)} {j : ℕ} (hj0 : j ≠ 0) (hji : j ≠ i) :
    (place (i, name) l).countP (fun e => e.1 = j) = l.countP fun e => e.1 = j := by
  have hc := countP_place (f := fun x => decide (x = j)) (by simpa using hj0.symm) (i, name) l
  simpa [hji.symm] using hc

theorem count_place_self {name : N} {l : List (ℕ × N)} (hi : i ≠ 0) :
    (place (i, name) l).countP (fun e => e.1 = i) = l.countP (fun e => e.1 = i) + 1 := by
  have hc := countP_place (f := fun x => decide (x = i)) (by simpa using hi.symm) (i, name) l
  simpa using hc

end

omit [Fintype P] [DecidableEq P] [DecidableEq N] in
/-- The names of `i` after an entry of it comes. -/
theorem names_place (h : Tree s) (nd ni : Node N) (hd : s.IsDir d) (hid : i ≠ d)
    (hi : i ≠ 0 ∧ i < s.ninodes) (hnis : ni.slots = (s.node i).slots) {name : N}
    (hslots : nd.slots = place (i, name) (s.node d).slots) :
    ((s.set d nd).set i ni).names i = s.names i + 1 := by
  have hc := Sys.names_change nd ni (h.lt_ninodes (IsDir.ne_free hd)) hi.2 hid hnis i
  rw [hslots, count_place_self hi.1] at hc
  omega

omit [Fintype P] [DecidableEq P] in
/-- The names of `i` after an entry of it goes. -/
theorem names_clear (h : Tree s) (nd ni : Node N) (hd : s.IsDir d) (hid : i ≠ d)
    (hi : i ≠ 0 ∧ i < s.ninodes) (hnis : ni.slots = (s.node i).slots) {name : N}
    (hname : dirlookup name (s.node d).slots = some i)
    (hslots : nd.slots = clear name (s.node d).slots) :
    ((s.set d nd).set i ni).names i + 1 = s.names i := by
  have hc := Sys.names_change nd ni (h.lt_ninodes (IsDir.ne_free hd)) hi.2 hid hnis i
  have hcl := countP_clear (f := fun x => decide (x = i)) (by simpa using hi.1.symm) hname
  simp only [decide_true, Bool.toNat_true] at hcl
  rw [hslots] at hc
  omega

section

omit [DecidableEq N] [Fintype P] [DecidableEq P]

/-- `create` of a file or a device. -/
theorem create (h : Tree s) (hd : s.IsDir d) (hi : 0 < i ∧ i < s.ninodes) (hfree : (s.node i).type = .free)
    {type : Kind} (htype : type = .file ∨ type = .device) {name : N}
    (hlen : (place (i, name) (s.node d).slots).length ≤ MAXENTRIES) : Tree (s.create d i name type) := by
  have hid := ne_of_free hd hfree
  have hi' : i ≠ 0 ∧ i < s.ninodes := ⟨hi.1.ne', hi.2⟩
  have hnames := h.names_eq_zero hi'.1 hfree
  have hnil : (s.node i).slots = [] := h.slots i (by simp [IsDir, hfree])
  have hnd : type ≠ .dir := by rcases htype with rfl | rfl <;> decide
  have hnf : type ≠ .free := by rcases htype with rfl | rfl <;> decide
  have hone : (s.create d i name type).names i = s.names i + 1 :=
    h.names_place (s.addEntry d i name) ⟨type, 1, 0, []⟩ hd hid hi' hnil.symm rfl
  have hsub : (s.create d i name type).subdirs d = s.subdirs d + if type = .dir then 1 else 0 :=
    h.subdirs_place (s.addEntry d i name) ⟨type, 1, 0, []⟩ hd hid hi'.1 hd (.inr hnames) rfl
  rw [hnames] at hone
  rw [if_neg hnd] at hsub
  refine h.change (s.addEntry d i name) ⟨type, 1, 0, []⟩ hd hid hi' hd rfl hlen hnil.symm hnf
    (.inr ⟨hfree, hnames⟩) (fun j hj0 hji => count_place_other hj0 hji) rfl
    (fun _ => ⟨hone.le, by show 1 < 2 ^ 15; decide⟩) (fun hdir => absurd hdir hnd) ?_
  rw [hsub]
  exact h.dir d hd

/-- `mkdir`. -/
theorem mkdir (h : Tree s) (hd : s.IsDir d) (hi : 0 < i ∧ i < s.ninodes) (hfree : (s.node i).type = .free)
    {name : N} (hlen : (place (i, name) (s.node d).slots).length ≤ MAXENTRIES) :
    Tree (s.mkdir d i name) := by
  have hid := ne_of_free hd hfree
  have hi' : i ≠ 0 ∧ i < s.ninodes := ⟨hi.1.ne', hi.2⟩
  have hnames := h.names_eq_zero hi'.1 hfree
  have hnil : (s.node i).slots = [] := h.slots i (by simp [IsDir, hfree])
  have hroot : i ≠ ROOTINO := fun hr => IsDir.ne_free h.root (hr ▸ hfree)
  have hone : (s.mkdir d i name).names i = s.names i + 1 :=
    h.names_place (s.addDir d i name) ⟨.dir, 1, d, []⟩ hd hid hi' hnil.symm rfl
  have hsubd : (s.mkdir d i name).subdirs d = s.subdirs d + if Kind.dir = .dir then 1 else 0 :=
    h.subdirs_place (s.addDir d i name) ⟨.dir, 1, d, []⟩ hd hid hi'.1 hd (.inr hnames) rfl
  have hsubi : (s.mkdir d i name).subdirs i = 0 := by
    unfold Sys.subdirs
    rw [show (s.mkdir d i name).node i = ⟨.dir, 1, d, []⟩ from update_self _ _ _]
    rfl
  have hlink := h.dir d hd
  have hadd : ((s.node d).nlink + 1).toNat = (s.node d).nlink.toNat + 1 := by
    have hlt := h.dir_nlink_lt hd
    rw [BitVec.toNat_add, show (1 : BitVec 16).toNat = 1 from rfl, Nat.mod_eq_of_lt (by omega)]
  refine h.change (s.addDir d i name) ⟨.dir, 1, d, []⟩ hd hid hi' hd rfl hlen hnil.symm
    (by show Kind.dir ≠ .free; decide) (.inr ⟨hfree, hnames⟩)
    (fun j hj0 hji => count_place_other hj0 hji) rfl (fun hn => absurd rfl hn)
    (fun _ => ⟨?_, ?_, fun _ => rfl⟩) ?_
  · rw [hsubi, hone, hnames, if_neg hroot]
    rfl
  · rw [hone, hnames, if_neg hroot]
  · show ((s.node d).nlink + 1).toNat = _
    rw [hsubd, if_pos rfl]
    omega

/-- `link`, on an inode that is not at the largest link count. -/
theorem link (h : Tree s) (hd : s.IsDir d) (ht : (s.node i).type ≠ .free) (hnd : ¬ s.IsDir i)
    (hmax : (s.node i).nlink ≠ 32767) {name : N}
    (hlen : (place (i, name) (s.node d).slots).length ≤ MAXENTRIES) : Tree (s.link d i name) := by
  have hid : i ≠ d := fun hid => hnd (hid ▸ hd)
  have hi' : i ≠ 0 ∧ i < s.ninodes := ⟨h.ne_zero ht, h.lt_ninodes ht⟩
  obtain ⟨hle, hlt⟩ := h.file i ht hnd
  have hmax' : (s.node i).nlink.toNat ≠ 32767 := fun hm => hmax (BitVec.eq_of_toNat_eq hm)
  have hadd : ((s.node i).nlink + 1).toNat = (s.node i).nlink.toNat + 1 := by
    rw [BitVec.toNat_add, show (1 : BitVec 16).toNat = 1 from rfl, Nat.mod_eq_of_lt (by omega)]
  have hone : (s.link d i name).names i = s.names i + 1 :=
    h.names_place (s.addEntry d i name) (s.withLinks i ((s.node i).nlink + 1)) hd hid hi' rfl rfl
  have hsub : (s.link d i name).subdirs d = s.subdirs d + if (s.node i).type = .dir then 1 else 0 :=
    h.subdirs_place (s.addEntry d i name) (s.withLinks i ((s.node i).nlink + 1)) hd hid
      hi'.1 hd (.inl rfl) rfl
  rw [if_neg (show (s.node i).type ≠ .dir from hnd)] at hsub
  refine h.change (s.addEntry d i name) (s.withLinks i ((s.node i).nlink + 1)) hd hid hi' hd rfl
    hlen rfl ht (.inl ⟨rfl, rfl⟩) (fun j hj0 hji => count_place_other hj0 hji) rfl (fun _ => ?_)
    (fun hdir => absurd hdir hnd) ?_
  · show _ ≤ ((s.node i).nlink + 1).toNat ∧ ((s.node i).nlink + 1).toNat < _
    omega
  · rw [hsub]
    exact h.dir d hd

end

theorem count_clear_other {name : N} {l : List (ℕ × N)} (hname : dirlookup name l = some i) (hj0 : j ≠ 0)
    (hji : j ≠ i) : (clear name l).countP (fun e => e.1 = j) = l.countP fun e => e.1 = j := by
  have hc := countP_clear (f := fun x => decide (x = j)) (by simpa using hj0.symm) hname
  simpa [hji.symm] using hc

theorem toNat_sub_one {x : BitVec 16} (hx : 0 < x.toNat) : (x - 1).toNat = x.toNat - 1 := by
  rw [BitVec.toNat_sub, show (1 : BitVec 16).toNat = 1 from rfl]
  have := x.isLt
  omega

omit [Fintype P] [DecidableEq P] in
/-- `unlink`. -/
theorem unlink (h : Tree s) (hd : s.IsDir d) (hid : i ≠ d) (ht : (s.node i).type ≠ .free) {name : N}
    (hname : dirlookup name (s.node d).slots = some i)
    (hempty : s.IsDir i → ∀ e ∈ (s.node i).slots, e.1 = 0) : Tree (s.unlink d i name) := by
  have hi' : i ≠ 0 ∧ i < s.ninodes := ⟨h.ne_zero ht, h.lt_ninodes ht⟩
  have hpos : 0 < s.names i :=
    (dirlookup_count hname).trans_le (Sys.count_le_names (h.lt_ninodes (IsDir.ne_free hd)) i)
  have hone : (s.unlink d i name).names i + 1 = s.names i :=
    h.names_clear (s.cutEntry d i name) (s.withLinks i ((s.node i).nlink - 1)) hd hid hi' rfl hname rfl
  have hsubd : (s.unlink d i name).subdirs d + (if (s.node i).type = .dir then 1 else 0) = s.subdirs d :=
    h.subdirs_clear (s.cutEntry d i name) (s.withLinks i ((s.node i).nlink - 1)) hd hid
      hi'.1 hd rfl hname rfl
  have hdlink := h.dir d hd
  refine h.change (s.cutEntry d i name) (s.withLinks i ((s.node i).nlink - 1)) hd hid hi' hd rfl
    (by show (clear name _).length ≤ _; rw [length_clear]; exact h.size d) rfl ht (.inl ⟨rfl, rfl⟩)
    (fun j hj0 hji => count_clear_other hname hj0 hji) rfl (fun hnd => ?_) (fun hdir => ?_) ?_
  · have hfile := h.file i ht hnd
    have hs := toNat_sub_one (x := (s.node i).nlink) (by omega)
    show _ ≤ ((s.node i).nlink - 1).toNat ∧ ((s.node i).nlink - 1).toNat < _
    omega
  · have hdir' : s.IsDir i := hdir
    have hlink := h.dir i hdir'
    have honce := h.once i hdir'
    have hroot : i ≠ ROOTINO := fun hr => by rw [if_pos hr] at honce; omega
    rw [if_neg hroot] at hlink honce
    have hzero : ∀ u : Sys P N, (s.node i).slots.countP
        (fun e => e.1 ≠ 0 ∧ (u.node e.1).type = .dir) = 0 := fun u =>
      countP_eq_zero.2 fun e he => by simp [hempty hdir' e he]
    have hsubi : (s.unlink d i name).subdirs i = 0 := by
      unfold Sys.subdirs
      rw [show (s.unlink d i name).node i = s.withLinks i ((s.node i).nlink - 1) from
        update_self _ _ _]
      exact hzero _
    have hsub0 : s.subdirs i = 0 := hzero s
    have hs := toNat_sub_one (x := (s.node i).nlink) (by omega)
    refine ⟨?_, by rw [if_neg hroot]; omega, fun hc => h.parent d i hdir' (dirlookup_count hname)⟩
    show ((s.node i).nlink - 1).toNat = _
    rw [hsubi, if_neg hroot]
    omega
  · show (if (s.node i).type = .dir then (s.node d).nlink - 1 else (s.node d).nlink).toNat = _
    by_cases hdir : (s.node i).type = .dir
    · rw [if_pos hdir] at hsubd ⊢
      have hs := toNat_sub_one (x := (s.node d).nlink) (by omega)
      omega
    · rw [if_neg hdir] at hsubd ⊢
      omega

omit [DecidableEq N] [Fintype P] [DecidableEq P] in
theorem moved (h : Tree s) (cwd : P → Option ℕ) (opened : List ℕ) :
    Tree { s with cwd := cwd, opened := opened } := { h with }

omit [DecidableEq N] [DecidableEq P] in
theorem iput (h : Tree s) (i : ℕ) : Tree (s.iput i) := by
  unfold Sys.iput
  split
  next hi => exact h.free (.inl hi.1)
  next => exact h

end Tree

end Counting

/-! ### Runs -/

/-- A run from `s₀` in which every call meets a condition on the state before it. -/
inductive Run (ok : Sys P N → Call → Prop) (s₀ : Sys P N) : Sys P N → Prop
  | start : Run ok s₀ s₀
  | step {s t : Sys P N} {c : Call} (h : Run ok s₀ s) (hc : ok s c) (hs : Step s c t) : Run ok s₀ t

/-- The call does not give a name to an inode whose link count is the largest. -/
def NoOverflow (s : Sys P N) (c : Call) : Prop := ∀ i, c = .link i → (s.node i).nlink ≠ 32767

section Runs

variable {s t : Sys P N} {c : Call} {n : ℕ} {p : P}

omit [DecidableEq N] [Fintype P] in
theorem tree_mkfs (n : ℕ) (p : P) : Tree (mkfs n p : Sys P N) := by
  have hnode : ∀ i, ((mkfs n p : Sys P N).node i).slots = [] := by
    intro i
    show (if i = ROOTINO then (⟨.dir, 1, ROOTINO, []⟩ : Node N) else Node.unused).slots = []
    split <;> rfl
  have hdir : ∀ i, (mkfs n p : Sys P N).IsDir i ↔ i = ROOTINO := by
    intro i
    show (if i = ROOTINO then (⟨.dir, 1, ROOTINO, []⟩ : Node N) else Node.unused).type = .dir ↔ _
    split <;> simp_all [Node.unused]
  have hfree : ∀ i, i ≠ ROOTINO → ((mkfs n p : Sys P N).node i).type = .free := by
    intro i hi
    show (if i = ROOTINO then (⟨.dir, 1, ROOTINO, []⟩ : Node N) else Node.unused).type = .free
    rw [if_neg hi]
    rfl
  have hnames : ∀ i, (mkfs n p : Sys P N).names i = 0 := fun i =>
    Finset.sum_eq_zero fun d _ => by rw [hnode d]; rfl
  have hsub : ∀ i, (mkfs n p : Sys P N).subdirs i = 0 := fun i => by
    unfold Sys.subdirs
    rw [hnode i]
    rfl
  refine ⟨(hdir _).2 rfl, hfree 0 (by decide), fun i hi => hfree i ?_, fun i _ => hnode i,
    fun i => by rw [hnode i]; exact Nat.zero_le _, fun i _ hi => absurd (hnames i) hi.ne',
    fun i hi hd => absurd (hfree i fun hr => hd ((hdir i).2 hr)) hi, fun i hi => ?_, fun i _ => ?_,
    fun d e _ hpos => ?_⟩
  · have hi' : n + 2 ≤ i := hi
    show i ≠ 1
    omega
  · rw [hnames, hsub, if_pos ((hdir i).1 hi), (hdir i).1 hi]
    rfl
  · rw [hnames]
    exact Nat.zero_le _
  · rw [hnode d] at hpos
    exact absurd hpos (Nat.lt_irrefl 0)

/-- **A call keeps the names and the link counts together**, unless `link` meets the largest count. -/
theorem Step.tree (h : Tree s) (hc : NoOverflow s c) (hs : Step s c t) : Tree t := by
  cases hs with
  | lookup p i _ _ => exact h.iput i
  | create p d i name type _ hdir _ hi hfree htype hlen => exact (h.create hdir hi hfree htype hlen).iput d
  | mkdir p d i name _ hdir _ hi hfree hlen => exact (h.mkdir hdir hi hfree hlen).iput d
  | createFails p d i _ _ _ hfree => exact (h.free (.inr hfree)).iput d
  | link p d i name _ ht hnd _ hdir _ hlen => exact ((h.link hdir ht hnd (hc i rfl) hlen).iput d).iput i
  | linkFails p i _ _ _ =>
    have hsame : s.set i (s.withLinks i ((s.node i).nlink + 1 - 1)) = s := by
      unfold Sys.withLinks Sys.set
      rw [BitVec.add_sub_cancel, update_eq_self]
    rw [hsame]
    exact h.iput i
  | unlink p d i name _ hdir hname hne ht _ hempty =>
    exact ((h.unlink hdir hne ht hname hempty).iput d).iput i
  | «open» p i _ _ => exact h.moved _ _
  | close i _ => exact (h.moved _ _).iput i
  | chdir p i j _ _ _ => exact (h.moved _ _).iput j
  | fork p q _ => exact h.moved _ _
  | exit p i _ => exact (h.moved _ _).iput i

theorem Run.tree {ok : Sys P N → Call → Prop} (hok : ∀ s c, ok s c → NoOverflow s c)
    (h : Run ok (mkfs n p) s) : Tree s := by
  induction h with
  | start => exact tree_mkfs n p
  | step _ hc hs ih => exact hs.tree ih (hok _ _ hc)

/-- **Link counts never undercount**, in a run in which `link` never meets the largest count: the link
count of a file or a device is at least the number of its names, an inode that `unlink` finds has a link,
and an inode that is free has no name. -/
theorem run_nlink (h : Run NoOverflow (mkfs n p) s) :
    (∀ i, (s.node i).type ≠ .free → ¬ s.IsDir i → (s.names i : ℤ) ≤ (s.node i).nlink.toInt) ∧
    (∀ d i name, s.IsDir d → dirlookup name (s.node d).slots = some i → 1 ≤ (s.node i).nlink.toInt) ∧
    ∀ i, i ≠ 0 → (s.node i).type = .free → s.names i = 0 := by
  have ht := h.tree fun _ _ hc => hc
  have hint : ∀ x : BitVec 16, x.toNat < 2 ^ 15 → x.toInt = x.toNat := fun x hx =>
    BitVec.toInt_eq_toNat_of_lt (by omega)
  refine ⟨fun i hi hd => ?_, fun d i name hd hname => ?_, fun i hi hfree => ht.names_eq_zero hi hfree⟩
  · obtain ⟨hle, hlt⟩ := ht.file i hi hd
    rw [hint _ hlt]
    exact_mod_cast hle
  · have hpos : 0 < s.names i := (dirlookup_count hname).trans_le
      (Sys.count_le_names (ht.lt_ninodes (Tree.IsDir.ne_free hd)) i)
    have hty := ht.named i (dirlookup_ne_zero hname) hpos
    by_cases hid : s.IsDir i
    · have hlt := ht.dir_nlink_lt hid
      have hlink := ht.dir i hid
      rw [hint _ (by omega)]
      omega
    · obtain ⟨hle, hlt⟩ := ht.file i hty hid
      rw [hint _ hlt]
      omega

/-- **Directories form a forest**, in a run in which `link` never meets the largest count: a directory has
at most one name, and `..` in it is the directory with that name. -/
theorem run_forest (h : Run NoOverflow (mkfs n p) s) :
    (∀ i, s.IsDir i → s.names i ≤ 1) ∧
    ∀ d i name, s.IsDir i → (i, name) ∈ (s.node d).slots → (s.node i).parent = d := by
  have ht := h.tree fun _ _ hc => hc
  refine ⟨fun i hi => (ht.once i hi).trans (by split <;> decide), fun d i name hi hmem => ?_⟩
  exact ht.parent d i hi (countP_pos_iff.2 ⟨(i, name), hmem, by simp⟩)

/-- A file with two names. -/
theorem run_nlink_two : ∃ s : Sys Unit ℕ, Run NoOverflow (mkfs 4 ()) s ∧ s.names 2 = 2 ∧
    (s.names 2 : ℤ) ≤ (s.node 2).nlink.toInt := by
  have h := (Run.start : Run NoOverflow (mkfs 4 () : Sys Unit ℕ) _)
    |>.step (fun _ hi => by cases hi)
      (.create _ () 1 2 3 .file .root (by decide +kernel) rfl (by decide) rfl (.inl rfl)
      (by decide +kernel))
    |>.step (fun i hi => by cases hi; decide +kernel)
      (.link _ () 1 2 4 (.down .root (by decide +kernel) (show dirlookup 3 _ = some 2 by decide +kernel))
        (by decide +kernel) (by decide +kernel) .root (by decide +kernel) (by decide +kernel)
        (by decide +kernel))
  exact ⟨_, h, by decide +kernel, (run_nlink h).1 2 (by decide +kernel) (by decide +kernel)⟩

/-- A directory in a directory. -/
theorem run_forest_two : ∃ s : Sys Unit ℕ, Run NoOverflow (mkfs 4 ()) s ∧ s.names 3 = 1 ∧ s.names 3 ≤ 1 ∧
    (s.node 3).parent = 2 := by
  have h := (Run.start : Run NoOverflow (mkfs 4 () : Sys Unit ℕ) _)
    |>.step (fun _ hi => by cases hi)
      (.mkdir _ () 1 2 0 .root (by decide +kernel) rfl (by decide) rfl (by decide +kernel))
    |>.step (fun _ hi => by cases hi)
      (.mkdir _ () 2 3 0 (.down .root (by decide +kernel) (show dirlookup 0 _ = some 2 by decide +kernel))
        (by decide +kernel) (by decide +kernel) (by decide +kernel) (by decide +kernel) (by decide +kernel))
  exact ⟨_, h, by decide +kernel, (run_forest h).1 3 (by decide +kernel),
    (run_forest h).2 2 3 0 (by decide +kernel) (by decide +kernel)⟩

end Runs

/-! ### A file with too many names -/

section Full

/-- Names 3, 4, … of file 2. -/
def tail (n : ℕ) : List (ℕ × ℕ) := (List.range n).map fun x => (2, x + 3)

/-- The entries of directory `d`, with `n` names of file 2. -/
def entries (d n : ℕ) : List (ℕ × ℕ) := (if d = 1 then [(3, 0), (4, 1), (5, 2)] else []) ++ tail n

/-- The names of file 2 in all directories. -/
def total (f : ℕ → ℕ) : ℕ := f 1 + f 3 + f 4 + f 5

/-- The root directory, its directories 3, 4 and 5 and file 2, which has `f d` names in directory `d`. -/
def filled (f : ℕ → ℕ) : Sys Unit ℕ where
  ninodes := 6
  node i :=
    if i = 1 then ⟨.dir, 4, 1, entries 1 (f 1)⟩
    else if i = 2 then ⟨.file, BitVec.ofNat 16 (total f), 0, []⟩
    else if i = 3 ∨ i = 4 ∨ i = 5 then ⟨.dir, 1, 1, entries i (f i)⟩
    else Node.unused
  cwd _ := some 1
  opened := []

theorem dirlookup_eq_none {name : N} {l : List (ℕ × N)} (h : ∀ e ∈ l, e.2 ≠ name) :
    dirlookup name l = none := by
  induction l with
  | nil => rfl
  | cons e l ih =>
    rw [dirlookup, if_neg fun he => h e mem_cons_self he.2]
    exact ih fun x hx => h x (mem_cons_of_mem e hx)

omit [DecidableEq N] in
theorem place_eq_append {e : ℕ × N} {l : List (ℕ × N)} (h : ∀ x ∈ l, x.1 ≠ 0) : place e l = l ++ [e] := by
  induction l with
  | nil => rfl
  | cons x l ih =>
    rw [place, if_neg (h x mem_cons_self), ih fun y hy => h y (mem_cons_of_mem x hy)]
    rfl

theorem mem_entries {d n : ℕ} {e : ℕ × ℕ} (h : e ∈ entries d n) : e.1 ≠ 0 ∧ e.2 < n + 3 := by
  simp only [entries, tail, mem_append, mem_map, mem_range] at h
  rcases h with h | ⟨x, hx, rfl⟩
  · split at h
    · simp only [mem_cons, not_mem_nil, or_false] at h
      rcases h with rfl | rfl | rfl <;> simp
    · cases h
  · exact ⟨by show 2 ≠ 0; decide, by show x + 3 < n + 3; omega⟩

theorem entries_succ (d n : ℕ) : place (2, n + 3) (entries d n) = entries d (n + 1) := by
  rw [place_eq_append fun x hx => (mem_entries hx).1]
  simp [entries, tail, range_succ]

theorem length_entries (d n : ℕ) : (entries d n).length = (if d = 1 then 3 else 0) + n := by
  unfold entries tail
  split
  · simp
    omega
  · simp

theorem count_entries (d n : ℕ) : (entries d n).countP (fun e => e.1 = 2) = n := by
  have htail : (tail n).countP (fun e => e.1 = 2) = n := by
    rw [tail, countP_map]
    simp [countP_eq_length.2]
  unfold entries
  rw [countP_append, htail]
  split <;> simp

/-- The directories of `filled`. -/
def IsFull (d : ℕ) : Prop := d = 1 ∨ d = 3 ∨ d = 4 ∨ d = 5

theorem filled_dir (f : ℕ → ℕ) {d : ℕ} (hd : IsFull d) :
    (filled f).node d = ⟨.dir, if d = 1 then 4 else 1, 1, entries d (f d)⟩ := by
  rcases hd with rfl | rfl | rfl | rfl <;> rfl

theorem filled_reaches (f : ℕ → ℕ) {d : ℕ} (hd : IsFull d) : (filled f).Reaches () d := by
  rcases hd with rfl | rfl | rfl | rfl
  · exact .root
  · exact .down .root rfl (show dirlookup 0 (entries 1 (f 1)) = some 3 from rfl)
  · exact .down .root rfl (show dirlookup 1 (entries 1 (f 1)) = some 4 from rfl)
  · exact .down .root rfl (show dirlookup 2 (entries 1 (f 1)) = some 5 from rfl)

theorem filled_reaches_file (f : ℕ → ℕ) (hf : 0 < f 1) : (filled f).Reaches () 2 := by
  obtain ⟨n, hn⟩ := Nat.exists_eq_succ_of_ne_zero hf.ne'
  refine .down .root rfl (show dirlookup 3 (entries 1 (f 1)) = some 2 from ?_)
  rw [hn, entries, tail, range_succ_eq_map]
  rfl

omit [DecidableEq N] [DecidableEq P] in
theorem Sys.iput_of_nlink {s : Sys P N} {i : ℕ} (h : (s.node i).nlink ≠ 0) : s.iput i = s :=
  if_neg fun hi => h hi.1

theorem total_update (f : ℕ → ℕ) {d : ℕ} (hd : IsFull d) :
    total (update f d (f d + 1)) = total f + 1 := by
  rcases hd with rfl | rfl | rfl | rfl <;> simp [total] <;> omega

theorem filled_link (f : ℕ → ℕ) {d : ℕ} (hd : IsFull d) :
    (filled f).link d 2 (f d + 3) = filled (update f d (f d + 1)) := by
  refine congrArg (fun g => (⟨6, g, fun _ => some 1, []⟩ : Sys Unit ℕ)) (funext fun i => ?_)
  show update (update (filled f).node d _) 2 _ i =
    (filled (update f d (f d + 1))).node i
  by_cases hi2 : i = 2
  · subst hi2
    rw [update_self]
    show (⟨.file, BitVec.ofNat 16 (total f) + 1, 0, []⟩ : Node ℕ) =
      ⟨.file, BitVec.ofNat 16 (total _), 0, []⟩
    rw [total_update f hd, BitVec.ofNat_add]
    rfl
  · rw [update_of_ne hi2]
    by_cases hid : i = d
    · subst hid
      rw [update_self, Sys.addEntry, filled_dir _ hd, filled_dir _ hd, update_self,
        ← entries_succ]
    · rw [update_of_ne hid]
      unfold filled
      dsimp only
      by_cases hi1 : i = 1
      · subst hi1
        rw [if_pos rfl, if_pos rfl, update_of_ne hid]
      · rw [if_neg hi1, if_neg hi1, if_neg hi2, if_neg hi2, update_of_ne hid]

/-- `link` gives file 2 one more name in a directory with room. -/
theorem filled_step (f : ℕ → ℕ) {d : ℕ} (hd : IsFull d) (hf : 0 < f 1)
    (hroom : (if d = 1 then 3 else 0) + f d < MAXENTRIES) :
    Step (filled f) (.link 2) ((filled (update f d (f d + 1))).iput 2) := by
  have hdir : (filled f).IsDir d := by
    rw [Sys.IsDir, filled_dir f hd]
  have hslots : ((filled f).node d).slots = entries d (f d) := by
    rw [filled_dir f hd]
  have hstep := Step.link (filled f) () d 2 (f d + 3) (filled_reaches_file f hf)
    (by show Kind.file ≠ _; decide)
    (by show Kind.file ≠ _; decide) (filled_reaches f hd) hdir
    (by
      rw [hslots]
      exact dirlookup_eq_none fun e he => (mem_entries he).2.ne)
    (by
      rw [hslots, entries_succ, length_entries]
      omega)
  rw [filled_link f hd] at hstep
  have hnlink : ((filled (update f d (f d + 1))).node d).nlink ≠ 0 := by
    rw [filled_dir _ hd]
    dsimp only
    split <;> decide
  rwa [Sys.iput_of_nlink hnlink] at hstep

/-- Names are given while there is room and the count has not come round to zero. -/
theorem filled_run {ok : Sys Unit ℕ → Call → Prop} (hok : ∀ s c, ok s c) {s₀ : Sys Unit ℕ} {d : ℕ}
    (hd : IsFull d) (n : ℕ) (f : ℕ → ℕ) (hf : 0 < f 1)
    (hroom : (if d = 1 then 3 else 0) + f d + n ≤ MAXENTRIES) (hmax : total f + n < 2 ^ 16)
    (h : Run ok s₀ (filled f)) : Run ok s₀ (filled (update f d (f d + n))) := by
  induction n with
  | zero => simpa using h
  | succ n ih =>
    have hrun := ih (by omega) (by omega)
    have htotal : total (update f d (f d + n)) = total f + n := by
      rcases hd with rfl | rfl | rfl | rfl <;> simp [total] <;> omega
    have hf' : 0 < update f d (f d + n) 1 := by
      by_cases hd1 : d = 1
      · subst hd1
        rw [update_self]
        omega
      · rwa [update_of_ne (Ne.symm hd1)]
    have hstep := filled_step (update f d (f d + n)) hd hf' (by rw [update_self]; omega)
    rw [update_self, update_idem] at hstep
    have hnlink : ((filled (update f d (f d + n + 1))).node 2).nlink ≠ 0 := by
      have htotal' := total_update (update f d (f d + n)) hd
      rw [update_self, update_idem, htotal] at htotal'
      show BitVec.ofNat 16 (total _) ≠ 0
      rw [htotal']
      intro h0
      have h0' := congrArg BitVec.toNat h0
      rw [BitVec.toNat_ofNat, show (0 : BitVec 16).toNat = 0 from rfl] at h0'
      omega
    rw [Sys.iput_of_nlink hnlink] at hstep
    exact hrun.step (hok _ _) hstep

/-- The directories are made and the file has its first name. -/
theorem filled_first {ok : Sys Unit ℕ → Call → Prop} (hok : ∀ s c, ok s c) :
    Run ok (mkfs 4 ()) (filled (update (fun _ => 0) 1 1)) := by
  have h := (Run.start : Run ok (mkfs 4 () : Sys Unit ℕ) _)
    |>.step (hok _ _) (.mkdir _ () 1 3 0 .root (by decide +kernel) rfl (by decide) rfl (by decide +kernel))
    |>.step (hok _ _) (.mkdir _ () 1 4 1 .root (by decide +kernel) rfl (by decide) rfl (by decide +kernel))
    |>.step (hok _ _) (.mkdir _ () 1 5 2 .root (by decide +kernel) rfl (by decide) rfl (by decide +kernel))
    |>.step (hok _ _) (.create _ () 1 2 3 .file .root (by decide +kernel) rfl (by decide) rfl (.inl rfl)
      (by decide +kernel))
  convert h using 1
  rw [Sys.iput_of_nlink (by decide +kernel), Sys.iput_of_nlink (by decide +kernel),
    Sys.iput_of_nlink (by decide +kernel), Sys.iput_of_nlink (by decide +kernel)]
  refine congrArg₂ (fun g c => (⟨6, g, c, []⟩ : Sys Unit ℕ)) (funext fun i => ?_) (funext fun _ => rfl)
  match i with
  | 0 | 1 | 2 | 3 | 4 | 5 => rfl
  | i + 6 => rfl

theorem names_filled (f : ℕ → ℕ) : (filled f).names 2 = total f := by
  have hdir : ∀ d, IsFull d → ((filled f).node d).slots.countP (fun e => e.1 = 2) = f d := by
    intro d hd
    rw [filled_dir f hd]
    exact count_entries d (f d)
  have h0 : ((filled f).node 0).slots.countP (fun e => e.1 = 2) = 0 := rfl
  have h2 : ((filled f).node 2).slots.countP (fun e => e.1 = 2) = 0 := rfl
  show ∑ d ∈ Finset.range 6, _ = _
  simp only [Finset.sum_range_succ, Finset.sum_range_zero, h0, h2, hdir 1 (.inl rfl),
    hdir 3 (.inr (.inl rfl)),
    hdir 4 (.inr (.inr (.inl rfl))), hdir 5 (.inr (.inr (.inr rfl))), total]
  omega

/-- A file gets 32768 names, 17147 in the root directory and the others in directory 3: its link count is
negative, and `unlink` panics. -/
theorem exists_undercount : ∃ s : Sys Unit ℕ, Run (fun _ _ => True) (mkfs 4 ()) s ∧
    (s.node 2).type = .file ∧ s.names 2 = 32768 ∧ (s.node 2).nlink.toInt = -32768 := by
  have h := filled_run (fun _ _ => trivial) (.inl rfl) 17146 _ (by decide) (by decide) (by decide)
    (filled_first fun _ _ => trivial)
  have h' := filled_run (fun _ _ => trivial) (.inr (.inl rfl)) 15621 _ (by decide) (by decide) (by decide) h
  refine ⟨_, h', rfl, ?_, ?_⟩
  · rw [names_filled]
    decide
  · show (BitVec.ofNat 16 (total _)).toInt = _
    decide

/-- The link count comes round to zero: the file is freed with all its names, and its inode becomes a
directory. -/
theorem filled_wraps {ok : Sys Unit ℕ → Call → Prop} (hok : ∀ s c, ok s c) {s₀ : Sys Unit ℕ} (f : ℕ → ℕ)
    (hf : 0 < f 1) (hroom : f 5 + 2 ≤ MAXENTRIES) (htotal : total f + 1 = 2 ^ 16)
    (h : Run ok s₀ (filled f)) : ∃ t, Run ok s₀ t ∧ t.IsDir 2 ∧ f 1 ≤ t.names 2 := by
  have hfull : IsFull 5 := .inr (.inr (.inr rfl))
  have hstep := filled_step f hfull hf (by simp; omega)
  have hzero : ((filled (update f 5 (f 5 + 1))).node 2).nlink = 0 := by
    show BitVec.ofNat 16 (total _) = 0
    rw [total_update f hfull, htotal]
    rfl
  have hput : (filled (update f 5 (f 5 + 1))).iput 2 =
      (filled (update f 5 (f 5 + 1))).set 2 Node.unused :=
    if_pos ⟨hzero, by simp [Sys.Held, filled]⟩
  rw [hput] at hstep
  have hslots : (((filled (update f 5 (f 5 + 1))).set 2 Node.unused).node 5).slots =
      entries 5 (f 5 + 1) := by
    show ((filled (update f 5 (f 5 + 1))).node 5).slots = _
    rw [filled_dir _ hfull, update_self]
  have hmkdir := Step.mkdir ((filled (update f 5 (f 5 + 1))).set 2 Node.unused) () 5 2 (f 5 + 4)
    (.down .root rfl (show dirlookup 2 (entries 1 _) = some 5 from rfl)) rfl
    (by
      rw [hslots]
      exact dirlookup_eq_none fun e he => (mem_entries he).2.ne)
    (by show 0 < 2 ∧ 2 < 6; decide) rfl
    (by
      rw [hslots]
      refine (length_place_le _ _).trans ?_
      rw [length_entries]
      simp
      omega)
  rw [Sys.iput_of_nlink (by show (1 : BitVec 16) + 1 ≠ 0; decide)] at hmkdir
  refine ⟨_, (h.step (hok _ _) hstep).step (hok _ _) hmkdir, rfl, ?_⟩
  refine le_trans (le_of_eq ?_) (Sys.count_le_names (d := 1) (by show 1 < 6; decide) 2)
  exact (count_entries 1 (f 1)).symm

/-- A file gets 65536 names: the last `link` frees it, and `mkdir` takes its inode for a directory that all
those names name. -/
theorem exists_directory_with_names : ∃ s : Sys Unit ℕ, Run (fun _ _ => True) (mkfs 4 ()) s ∧
    s.IsDir 2 ∧ 17147 ≤ s.names 2 := by
  have h1 := filled_run (fun _ _ => trivial) (.inl rfl) 17146 _ (by decide) (by decide) (by decide)
    (filled_first fun _ _ => trivial)
  have h3 := filled_run (fun _ _ => trivial) (.inr (.inl rfl)) 17150 _ (by decide)
    (by decide) (by decide) h1
  have h4 := filled_run (fun _ _ => trivial) (.inr (.inr (.inl rfl))) 17150 _ (by decide) (by decide)
    (by decide) h3
  have h5 := filled_run (fun _ _ => trivial) (.inr (.inr (.inr rfl))) 14088 _ (by decide) (by decide)
    (by decide) h4
  exact filled_wraps (fun _ _ => trivial) _ (by decide) (by decide) (by decide) h5

end Full

end Names

end Xv6
