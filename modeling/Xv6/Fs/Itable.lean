import Xv6.Fs.Fs
import Mathlib.Logic.Relation

/-!
# The inode table and its users (`fs.c`)

`iget`, `idup`, `ilock`, `iunlock`, `iput` and `ialloc` as a transition system.  A section under
`itable.lock` is one step, so is each access under the sleep lock of an entry, and `iput` on the last
reference to an inode without links is the sequence of its steps.  A panic ends the run: it is no step.

An inode number is used with its device.  Besides the fields of the source an entry records who has its
references, whether its holder has changed fields that it has not written back, and whether `iput` has
cleared its type; `era` counts the times that `ialloc` has claimed an inode, and `loaded` is the count
under which the fields of an entry were read.  A reference that two processes share, in an open file, is
with the one that uses it (`hand`).

* `Itable.Step.inv`, `Itable.Reachable.inv`: the invariant of the table;
* `Itable.iput_not_blocked`, `Itable.reachable_iput_completes`: `iput` never waits for the sleep lock;
* `Itable.reachable_itable`: the entries, the counts, the fields, and how an inode comes to be freed;
* `Itable.reachable_stale_or_shared`: an entry without references may be out of date, and an inode may
  have got a second reference by the time `iput` frees it.
-/

namespace Xv6

open Function List

namespace Itable

/-- A device and an inode number. -/
abbrev Key := ℕ × ℕ

/-- Where `iput` is, when it frees an inode. -/
inductive Stage
  /-- It has the sleep lock and has released `itable.lock`. -/
  | trunc
  /-- `itrunc` has returned. -/
  | typing
  /-- The type is zero, in memory. -/
  | writing
  /-- `iupdate` has returned. -/
  | freed
  /-- `valid` is zero. -/
  | cleared
  /-- The sleep lock is released. -/
  | released
  deriving DecidableEq

/-- Where a process is. -/
inductive Pc
  /-- In none of the functions below. -/
  | idle
  /-- In `ialloc`, which has claimed an inode and is about to call `iget`. -/
  | claimed (k : Key)
  /-- In `ilock`, with the sleep lock. -/
  | locking (i : Fin NINODE)
  /-- In `iput`, which frees the inode. -/
  | freeing (i : Fin NINODE) (st : Stage)
  deriving DecidableEq

/-- A `struct inode`. -/
structure Entry (P : Type) where
  key : Key
  ref : ℕ
  valid : Bool
  fields : Dinode
  /-- The process that has the sleep lock. -/
  lock : Option P
  /-- The processes that have a reference, as often as they have one. -/
  out : List P
  /-- The holder has changed `fields` and not called `iupdate` since. -/
  dirty : Bool
  /-- `iput` has cleared the type. -/
  doomed : Bool
  /-- The count of the inode when `fields` were read. -/
  loaded : ℕ

/-- The inodes on the disk, the table and the processes. -/
structure Sys (P : Type) where
  disk : Key → Dinode
  /-- How often `ialloc` has claimed an inode. -/
  era : Key → ℕ
  entry : Fin NINODE → Entry P
  pc : P → Pc

variable {P : Type} [DecidableEq P]

namespace Sys

/-- Entry `i` becomes `e`. -/
def put (s : Sys P) (i : Fin NINODE) (e : Entry P) : Sys P := { s with entry := update s.entry i e }

/-- Process `p` goes on at `k`. -/
def goto (s : Sys P) (p : P) (k : Pc) : Sys P := { s with pc := update s.pc p k }

/-- An inode of the disk becomes `d`. -/
def write (s : Sys P) (k : Key) (d : Dinode) : Sys P := { s with disk := update s.disk k d }

/-- The entry of an inode. -/
def lookup (s : Sys P) (k : Key) : Option (Fin NINODE) :=
  (List.finRange NINODE).find? fun i => 0 < (s.entry i).ref ∧ (s.entry i).key = k

/-- The first empty entry. -/
def empty (s : Sys P) : Option (Fin NINODE) := (List.finRange NINODE).find? fun i => (s.entry i).ref = 0

end Sys

namespace Entry

/-- One more reference, with `p`. -/
def dup (e : Entry P) (p : P) : Entry P := { e with ref := e.ref + 1, out := p :: e.out }

/-- One reference of `p` less. -/
def drop (e : Entry P) (p : P) : Entry P := { e with ref := e.ref - 1, out := e.out.erase p }

/-- An empty entry taken for an inode. -/
def recycle (e : Entry P) (k : Key) (p : P) : Entry P :=
  { e with key := k, ref := 1, valid := false, out := [p] }

/-- The entry with the fields of the inode on the disk. -/
def load (e : Entry P) (d : Dinode) (era : ℕ) : Entry P :=
  { e with fields := d, valid := true, loaded := era }

/-- The fields after `itrunc`. -/
def trunc (e : Entry P) : Entry P := { e with fields := { e.fields with size := 0, addrs := fun _ => 0 } }

/-- The test of `iput`. -/
def Last (e : Entry P) : Prop := e.ref = 1 ∧ e.valid = true ∧ e.fields.nlink = 0

/-- `p` has a reference that it can give away: not the one under which it has the sleep lock. -/
def Spare (e : Entry P) (p : P) : Prop := p ∈ e.out ∧ (e.lock = some p → p ∈ e.out.erase p)

instance (e : Entry P) : Decidable e.Last := by unfold Last; infer_instance

instance (e : Entry P) (p : P) : Decidable (e.Spare p) := by unfold Spare; infer_instance

end Entry

/-- `iget`; `none` is its panic. -/
def iget (s : Sys P) (p : P) (k : Key) : Option (Sys P) :=
  match s.lookup k with
  | some i => some (s.put i ((s.entry i).dup p))
  | none =>
    match s.empty with
    | some i => some (s.put i ((s.entry i).recycle k p))
    | none => none

/-- One step of a process. -/
inductive Step : Sys P → Sys P → Prop
  /-- `iget` on an allocated inode. -/
  | iget (s t : Sys P) (p : P) (k : Key) (hp : s.pc p = .idle) (hk : (s.disk k).type ≠ 0)
      (ht : iget s p k = some t) : Step s t
  /-- `ialloc` finds a free inode and claims it. -/
  | ialloc (s : Sys P) (p : P) (k : Key) (type : BitVec 16) (hp : s.pc p = .idle)
      (hk : (s.disk k).type = 0) (htype : type ≠ 0) :
      Step s ({ s.write k { Dinode.zero with type := type } with
        era := update s.era k (s.era k + 1) }.goto p (.claimed k))
  /-- The `iget` of `ialloc`. -/
  | claim (s t : Sys P) (p : P) (k : Key) (hp : s.pc p = .claimed k) (ht : Itable.iget s p k = some t) :
      Step s (t.goto p .idle)
  /-- `idup`. -/
  | idup (s : Sys P) (p : P) (i : Fin NINODE) (hp : s.pc p = .idle) (hi : p ∈ (s.entry i).out) :
      Step s (s.put i ((s.entry i).dup p))
  /-- A shared reference is used by another process. -/
  | hand (s : Sys P) (p q : P) (i : Fin NINODE) (hp : s.pc p = .idle) (hi : (s.entry i).Spare p) :
      Step s (s.put i { s.entry i with out := q :: (s.entry i).out.erase p })
  /-- `ilock` takes the sleep lock. -/
  | ilock (s : Sys P) (p : P) (i : Fin NINODE) (hp : s.pc p = .idle) (hi : p ∈ (s.entry i).out)
      (hl : (s.entry i).lock = none) :
      Step s ((s.put i { s.entry i with lock := some p }).goto p (.locking i))
  /-- `ilock` finds the fields read. -/
  | ilockValid (s : Sys P) (p : P) (i : Fin NINODE) (hp : s.pc p = .locking i)
      (hv : (s.entry i).valid = true) : Step s (s.goto p .idle)
  /-- `ilock` reads the fields. -/
  | ilockRead (s : Sys P) (p : P) (i : Fin NINODE) (hp : s.pc p = .locking i)
      (hv : (s.entry i).valid = false) (ht : (s.disk (s.entry i).key).type ≠ 0) :
      Step s ((s.put i ((s.entry i).load (s.disk (s.entry i).key) (s.era (s.entry i).key))).goto p .idle)
  /-- The holder of the sleep lock changes fields; only `iput` changes the type. -/
  | change (s : Sys P) (p : P) (i : Fin NINODE) (d : Dinode) (hp : s.pc p = .idle)
      (hl : (s.entry i).lock = some p) (ht : d.type = (s.entry i).fields.type) :
      Step s (s.put i { s.entry i with fields := d, dirty := true })
  /-- The holder of the sleep lock calls `iupdate`. -/
  | iupdate (s : Sys P) (p : P) (i : Fin NINODE) (hp : s.pc p = .idle) (hl : (s.entry i).lock = some p) :
      Step s ((s.put i { s.entry i with dirty := false }).write (s.entry i).key (s.entry i).fields)
  /-- `iunlock`. -/
  | iunlock (s : Sys P) (p : P) (i : Fin NINODE) (hp : s.pc p = .idle) (hl : (s.entry i).lock = some p)
      (hd : (s.entry i).dirty = false) : Step s (s.put i { s.entry i with lock := none })
  /-- `iput` that only drops the reference. -/
  | iput (s : Sys P) (p : P) (i : Fin NINODE) (hp : s.pc p = .idle) (hi : (s.entry i).Spare p)
      (hn : ¬ (s.entry i).Last) : Step s (s.put i ((s.entry i).drop p))
  /-- `iput` on the last reference to an inode without links. -/
  | iputLast (s : Sys P) (p : P) (i : Fin NINODE) (hp : s.pc p = .idle) (hi : (s.entry i).Spare p)
      (hn : (s.entry i).Last) (hl : (s.entry i).lock = none) :
      Step s ((s.put i { s.entry i with lock := some p }).goto p (.freeing i .trunc))
  /-- `itrunc(ip)`. -/
  | itrunc (s : Sys P) (p : P) (i : Fin NINODE) (hp : s.pc p = .freeing i .trunc) :
      Step s (((s.put i (s.entry i).trunc).write (s.entry i).key (s.entry i).trunc.fields).goto p
        (.freeing i .typing))
  /-- `ip->type = 0`. -/
  | zero (s : Sys P) (p : P) (i : Fin NINODE) (hp : s.pc p = .freeing i .typing) :
      Step s ((s.put i { s.entry i with
        fields := { (s.entry i).fields with type := 0 }, doomed := true }).goto p (.freeing i .writing))
  /-- `iupdate(ip)`. -/
  | free (s : Sys P) (p : P) (i : Fin NINODE) (hp : s.pc p = .freeing i .writing) :
      Step s ((s.write (s.entry i).key (s.entry i).fields).goto p (.freeing i .freed))
  /-- `ip->valid = 0`. -/
  | clear (s : Sys P) (p : P) (i : Fin NINODE) (hp : s.pc p = .freeing i .freed) :
      Step s ((s.put i { s.entry i with valid := false, doomed := false }).goto p (.freeing i .cleared))
  /-- `releasesleep(&ip->lock)`. -/
  | release (s : Sys P) (p : P) (i : Fin NINODE) (hp : s.pc p = .freeing i .cleared) :
      Step s ((s.put i { s.entry i with lock := none }).goto p (.freeing i .released))
  /-- `ip->ref--`. -/
  | last (s : Sys P) (p : P) (i : Fin NINODE) (hp : s.pc p = .freeing i .released) :
      Step s ((s.put i ((s.entry i).drop p)).goto p .idle)

/-- The table after `iinit`, over the inodes of a disk. -/
def iinit (disk : Key → Dinode) : Sys P where
  disk := disk
  era _ := 0
  entry _ := ⟨(0, 0), 0, false, Dinode.zero, none, [], false, false, 0⟩
  pc _ := .idle

/-- The states of the runs over a disk. -/
def Reachable (disk : Key → Dinode) (s : Sys P) : Prop := Relation.ReflTransGen Step (iinit disk) s

/-! ### The invariant -/

/-- What holds of an entry while `iput` frees its inode and has the sleep lock. -/
def Stage.Ok (e : Entry P) : Stage → Prop
  | trunc => e.valid = true ∧ e.fields.nlink = 0 ∧ e.dirty = false ∧ e.doomed = false
  | typing => e.valid = true ∧ e.fields.nlink = 0 ∧ e.dirty = false ∧ e.doomed = false
  | writing => e.valid = true ∧ e.fields.nlink = 0 ∧ e.dirty = false ∧ e.fields.type = 0 ∧ e.doomed = true
  | freed => e.dirty = false ∧ e.doomed = true
  | cleared => e.valid = false ∧ e.dirty = false ∧ e.doomed = false
  | released => False

/-- What holds of entry `i` while a process with this counter has its sleep lock. -/
def Pc.Holds (i : Fin NINODE) (e : Entry P) : Pc → Prop
  | idle => e.valid = true ∧ e.doomed = false
  | claimed _ => e.valid = true ∧ e.doomed = false
  | locking j => if j = i then e.dirty = false ∧ e.doomed = false else e.valid = true ∧ e.doomed = false
  | freeing j st => if j = i then st.Ok e else e.valid = true ∧ e.doomed = false

/-- What a counter at entry `i` says about the references and the sleep lock of the entry. -/
def Pc.Sits (i : Fin NINODE) (e : Entry P) (p : P) : Pc → Prop
  | idle => True
  | claimed _ => True
  | locking j => j = i → e.lock = some p
  | freeing j st => j = i → p ∈ e.out ∧ (st ≠ .released → e.lock = some p)

/-- The fields of an entry against the inode on the disk. -/
structure Agrees (e : Entry P) (d : Dinode) (era : ℕ) : Prop where
  type_ne : d.type ≠ 0
  type_eq : e.fields.type = d.type
  fields : e.dirty = false → e.fields = d
  loaded : e.loaded = era

/-- The invariant of one entry. -/
structure Good (s : Sys P) (i : Fin NINODE) (e : Entry P) : Prop where
  count : e.ref = e.out.length
  holder : ∀ p, e.lock = some p → p ∈ e.out ∧ (s.pc p).Holds i e
  sits : ∀ p, (s.pc p).Sits i e p
  unlocked : e.lock = none → e.dirty = false ∧ e.doomed = false
  agrees : 0 < e.ref → e.valid = true → e.doomed = false → Agrees e (s.disk e.key) (s.era e.key)

/-- The invariant of the table. -/
structure Inv (s : Sys P) : Prop where
  unique : ∀ i j, 0 < (s.entry i).ref → 0 < (s.entry j).ref → (s.entry i).key = (s.entry j).key → i = j
  good : ∀ i, Good s i (s.entry i)

omit [DecidableEq P] in
theorem inv_iinit (disk : Key → Dinode) : Inv (iinit disk : Sys P) where
  unique _ _ hi := absurd hi (Nat.lt_irrefl 0)
  good _ := ⟨rfl, fun _ h => (nomatch h), fun _ => trivial, fun _ => ⟨rfl, rfl⟩,
    fun h => absurd h (Nat.lt_irrefl 0)⟩

/-! ### Changes of one entry -/

/-- The entry at which a counter is. -/
def Pc.about : Pc → Option (Fin NINODE)
  | idle => none
  | claimed _ => none
  | locking j => some j
  | freeing j _ => some j

section Changes

variable {s t : Sys P} {i j : Fin NINODE} {e e' : Entry P} {p q : P} {k : Pc}

section

omit [DecidableEq P]

theorem Pc.holds_of_away (hk : k.about ≠ some i) :
    k.Holds i e ↔ e.valid = true ∧ e.doomed = false := by
  cases k <;> simp_all [Pc.about, Pc.Holds]

theorem Pc.sits_of_away (hk : k.about ≠ some i) : k.Sits i e p := by
  cases k <;> simp_all [Pc.about, Pc.Sits]

theorem Pc.Sits.mono (h : k.Sits i e q) (hl : e.lock = some q → e'.lock = some q)
    (ho : q ∈ e.out → q ∈ e'.out) : k.Sits i e' q := by
  cases k with
  | idle => trivial
  | claimed => trivial
  | locking j => exact fun hj => hl (h hj)
  | freeing j st => exact fun hj => ⟨ho (h hj).1, fun hst => hl ((h hj).2 hst)⟩

theorem Good.frame (h : Good s j e)
    (hpc : ∀ q, t.pc q = s.pc q ∨ (s.pc q).about ≠ some j ∧ (t.pc q).about ≠ some j)
    (hd : 0 < e.ref → e.valid = true → e.doomed = false →
      t.disk e.key = s.disk e.key ∧ t.era e.key = s.era e.key) : Good t j e where
  count := h.count
  holder q hq := by
    refine ⟨(h.holder q hq).1, ?_⟩
    rcases hpc q with hpc | ⟨hs, ht⟩
    · exact hpc ▸ (h.holder q hq).2
    · exact (Pc.holds_of_away ht).2 ((Pc.holds_of_away hs).1 (h.holder q hq).2)
  sits q := by
    rcases hpc q with hpc | ⟨-, ht⟩
    · exact hpc ▸ h.sits q
    · exact Pc.sits_of_away ht
  unlocked := h.unlocked
  agrees hr hv hdo := by
    rw [(hd hr hv hdo).1, (hd hr hv hdo).2]
    exact h.agrees hr hv hdo

end

/-- Process `p` changes an entry and its own counter. -/
theorem Good.act (h : Good s i e) (hpc : t.pc = update s.pc p k)
    (hcount : e'.ref = e'.out.length) (hlock : ∀ q ≠ p, e.lock = some q ↔ e'.lock = some q)
    (hout : ∀ q ≠ p, q ∈ e.out → q ∈ e'.out)
    (hkeep : ∀ q ≠ p, e.lock = some q → ∀ c : Pc, c.Holds i e → c.Holds i e')
    (hp : e'.lock = some p → p ∈ e'.out ∧ k.Holds i e') (hs : k.Sits i e' p)
    (hfree : e'.lock = none → e'.dirty = false ∧ e'.doomed = false)
    (hagrees : 0 < e'.ref → e'.valid = true → e'.doomed = false →
      Agrees e' (t.disk e'.key) (t.era e'.key)) : Good t i e' where
  count := hcount
  holder q hq := by
    by_cases hqp : q = p
    · rw [hpc, hqp, update_self]
      exact hp (hqp ▸ hq)
    · rw [hpc, update_of_ne hqp]
      have hl := (hlock q hqp).2 hq
      exact ⟨hout q hqp (h.holder q hl).1, hkeep q hqp hl _ (h.holder q hl).2⟩
  sits q := by
    by_cases hqp : q = p
    · rwa [hpc, hqp, update_self]
    · rw [hpc, update_of_ne hqp]
      exact (h.sits q).mono (hlock q hqp).1 (hout q hqp)
  unlocked := hfree
  agrees := hagrees

/-- The holder of the sleep lock changes the entry and keeps the references. -/
theorem Good.hold (h : Good s i e) (hl : e.lock = some p) (hpc : t.pc = update s.pc p k)
    (href : e'.ref = e.ref) (hout : e'.out = e.out)
    (hlock : e'.lock = some p ∧ k.Holds i e' ∨ e'.lock = none ∧ e'.dirty = false ∧ e'.doomed = false)
    (hs : k.Sits i e' p)
    (hagrees : 0 < e'.ref → e'.valid = true → e'.doomed = false →
      Agrees e' (t.disk e'.key) (t.era e'.key)) : Good t i e' := by
  have hne : ∀ q ≠ p, e.lock ≠ some q := fun q hq hlq => hq (Option.some.inj (hlq.symm.trans hl))
  have hne' : ∀ q ≠ p, e'.lock ≠ some q := by
    intro q hq hlq
    rcases hlock with ⟨hlp, -⟩ | ⟨hln, -⟩
    · exact hq (Option.some.inj (hlq.symm.trans hlp))
    · exact Option.some_ne_none q (hlq.symm.trans hln)
  refine h.act hpc (by rw [href, hout, h.count]) (fun q hq => iff_of_false (hne q hq) (hne' q hq))
    (fun q _ hm => hout ▸ hm) (fun q hq hlq => absurd hlq (hne q hq)) (fun hlp => ?_) hs (fun hln => ?_)
    hagrees
  · rcases hlock with ⟨-, hk⟩ | ⟨hln, -⟩
    · exact ⟨hout ▸ (h.holder p hl).1, hk⟩
    · exact absurd (hlp.symm.trans hln) (Option.some_ne_none p)
  · rcases hlock with ⟨hlp, -⟩ | ⟨-, hd⟩
    · exact absurd (hlp.symm.trans hln) (Option.some_ne_none p)
    · exact hd

/-- A step of `p` at entry `i` keeps the invariant when it keeps that of the entry. -/
theorem Inv.act (h : Inv s) (hentry : t.entry = update s.entry i e)
    (hkey : e.key = (s.entry i).key) (href : 0 < (s.entry i).ref)
    (hpc : t.pc = update s.pc p k)
    (hsaway : ∀ j ≠ i, (s.pc p).about ≠ some j) (htaway : ∀ j ≠ i, k.about ≠ some j)
    (hdisk : ∀ c ≠ (s.entry i).key, t.disk c = s.disk c) (hera : t.era = s.era)
    (hgood : Good t i e) : Inv t := by
  have hother : ∀ j ≠ i, t.entry j = s.entry j := fun j hj => by rw [hentry, update_of_ne hj]
  have hself : t.entry i = e := by rw [hentry, update_self]
  have hne : ∀ j ≠ i, 0 < (s.entry j).ref → (s.entry j).key ≠ (s.entry i).key :=
    fun j hj hr hk => hj (h.unique j i hr href hk)
  refine ⟨fun a b ha hb hk => ?_, fun j => ?_⟩
  · by_cases hai : a = i <;> by_cases hbi : b = i
    · rw [hai, hbi]
    · rw [hother b hbi] at hb hk
      rw [hai, hself, hkey] at hk
      exact absurd hk.symm (hne b hbi hb)
    · rw [hother a hai] at ha hk
      rw [hbi, hself, hkey] at hk
      exact absurd hk (hne a hai ha)
    · rw [hother a hai] at ha hk
      rw [hother b hbi] at hb hk
      exact h.unique a b ha hb hk
  · by_cases hji : j = i
    · rwa [hji, hself]
    · rw [hother j hji]
      refine (h.good j).frame (fun q => ?_) fun hr _ _ => ⟨hdisk _ (hne j hji hr), by rw [hera]⟩
      by_cases hqp : q = p
      · rw [hpc, hqp, update_self]
        exact .inr ⟨hsaway j hji, htaway j hji⟩
      · rw [hpc, update_of_ne hqp]
        exact .inl rfl

theorem Inv.goto (h : Inv s) (hs : (s.pc p).about = none) (hk : k.about = none) : Inv (s.goto p k) := by
  refine ⟨h.unique, fun j => (h.good j).frame (fun q => ?_) fun _ _ _ => ⟨rfl, rfl⟩⟩
  by_cases hqp : q = p
  · refine .inr ⟨by simp [hqp, hs], by simp [Sys.goto, hqp, hk]⟩
  · exact .inl (update_of_ne hqp _ _)

section

omit [DecidableEq P]

theorem Agrees.written {n : ℕ} (ht : e.fields.type ≠ 0) (hn : e.loaded = n) :
    Agrees e ((s.write e.key e.fields).disk e.key) n := by
  have hd : (s.write e.key e.fields).disk e.key = e.fields := update_self _ _ _
  rw [hd]
  exact ⟨ht, rfl, fun _ => rfl, hn⟩

theorem Good.ref_pos (h : Good s i e) (hp : p ∈ e.out) : 0 < e.ref := by
  rw [h.count]
  exact length_pos_of_mem hp

theorem Good.unused (h : Good s i e) (hr : e.ref = 0) :
    e.lock = none ∧ ∀ q, (s.pc q).about ≠ some i := by
  have hno : ∀ q, q ∉ e.out := fun q hq => absurd hr (h.ref_pos hq).ne'
  have hl : ∀ q, e.lock ≠ some q := fun q hq => hno q (h.holder q hq).1
  refine ⟨Option.eq_none_iff_forall_ne_some.2 hl, fun q ha => ?_⟩
  have hs := h.sits q
  generalize s.pc q = c at ha hs
  cases c with
  | idle => cases ha
  | claimed => cases ha
  | locking j => exact hl q (hs (Option.some.inj ha))
  | freeing j st => exact hno q (hs (Option.some.inj ha)).1

end

end Changes

/-! ### The functions -/

section Functions

variable {s t : Sys P} {i : Fin NINODE} {e : Entry P} {p : P} {c : Key}

section

omit [DecidableEq P]

theorem Sys.lookup_some (h : s.lookup c = some i) : 0 < (s.entry i).ref ∧ (s.entry i).key = c := by
  simpa using find?_some h

theorem Sys.lookup_none (h : s.lookup c = none) (i : Fin NINODE) (hi : 0 < (s.entry i).ref) :
    (s.entry i).key ≠ c := by
  have hall := find?_eq_none.1 h i (mem_finRange i)
  intro hk
  exact hall (by simp [hi, hk])

theorem Sys.empty_some (h : s.empty = some i) : (s.entry i).ref = 0 := by
  simpa using find?_some h

end

theorem Inv.dup (h : Inv s) (hi : 0 < (s.entry i).ref) (hp : (s.pc p).about = none) :
    Inv (s.put i ((s.entry i).dup p)) := by
  have hpc : s.pc = update s.pc p (s.pc p) := (update_eq_self p s.pc).symm
  have hg := h.good i
  have haway : ∀ j : Fin NINODE, (s.pc p).about ≠ some j := fun j => by simp [hp]
  refine h.act rfl rfl hi hpc (fun j _ => haway j) (fun j _ => haway j) (fun _ _ => rfl) rfl
    (hg.act hpc ?_ (fun _ _ => Iff.rfl) (fun q _ hq => mem_cons_of_mem p hq) (fun _ _ _ _ hc => hc)
      (fun hl => ⟨mem_cons_self, (hg.holder p hl).2⟩) (Pc.sits_of_away (haway i)) hg.unlocked
      fun _ hv hd => { hg.agrees hi hv hd with })
  simp [Entry.dup, hg.count]

omit [DecidableEq P] in
theorem Inv.recycle (h : Inv s) (hi : (s.entry i).ref = 0)
    (hc : ∀ j, 0 < (s.entry j).ref → (s.entry j).key ≠ c) :
    Inv (s.put i ((s.entry i).recycle c p)) := by
  obtain ⟨hl, haway⟩ := (h.good i).unused hi
  have hother : ∀ j ≠ i, (s.put i ((s.entry i).recycle c p)).entry j = s.entry j :=
    fun j hj => update_of_ne hj _ _
  have hself : (s.put i ((s.entry i).recycle c p)).entry i = (s.entry i).recycle c p :=
    update_self i _ _
  refine ⟨fun a b ha hb hk => ?_, fun j => ?_⟩
  · by_cases hai : a = i <;> by_cases hbi : b = i
    · rw [hai, hbi]
    · rw [hother b hbi] at hb hk
      rw [hai, hself] at hk
      exact absurd hk.symm (hc b hb)
    · rw [hother a hai] at ha hk
      rw [hbi, hself] at hk
      exact absurd hk (hc a ha)
    · rw [hother a hai] at ha hk
      rw [hother b hbi] at hb hk
      exact h.unique a b ha hb hk
  · by_cases hji : j = i
    · rw [hji, hself]
      exact ⟨rfl, fun q hq => absurd (hl.symm.trans hq) (Option.some_ne_none q).symm,
        fun q => Pc.sits_of_away (haway q), fun _ => (h.good i).unlocked hl,
        fun _ hv => absurd hv Bool.false_ne_true⟩
    · rw [hother j hji]
      exact (h.good j).frame (fun _ => .inl rfl) fun _ _ _ => ⟨rfl, rfl⟩

/-- `iget` keeps the invariant, and every counter. -/
theorem Inv.iget (h : Inv s) (hp : (s.pc p).about = none) (ht : iget s p c = some t) :
    Inv t ∧ t.pc = s.pc := by
  unfold Itable.iget at ht
  split at ht
  next i hi =>
    cases ht
    exact ⟨h.dup (Sys.lookup_some hi).1 hp, rfl⟩
  next hnone =>
    split at ht
    next i hi =>
      cases ht
      exact ⟨h.recycle (Sys.empty_some hi) (Sys.lookup_none hnone), rfl⟩
    next => cases ht

omit [DecidableEq P] in
/-- `ialloc` claims a free inode: no entry has its fields. -/
theorem Inv.ialloc (h : Inv s) (hc : (s.disk c).type = 0) (d : Dinode) (n : ℕ) :
    Inv { s.write c d with era := update s.era c n } := by
  refine ⟨h.unique, fun j => (h.good j).frame (fun _ => .inl rfl) fun hr hv hd => ?_⟩
  have hne : (s.entry j).key ≠ c := fun hk => ((h.good j).agrees hr hv hd).type_ne (hk ▸ hc)
  exact ⟨update_of_ne hne _ _, update_of_ne hne _ _⟩

/-- A reference that can be given away goes, and perhaps another process has it. -/
theorem Good.give (h : Good s i e) (hp : s.pc p = .idle) (hi : e.Spare p) {e' : Entry P}
    (hpc : t.pc = update s.pc p .idle)
    (hsame : e' = { e with ref := e'.ref, out := e'.out }) (hcount : e'.ref = e'.out.length)
    (hout : ∀ q ∈ e.out.erase p, q ∈ e'.out) (hdisk : t.disk = s.disk) (hera : t.era = s.era) :
    Good t i e' := by
  have hr : 0 < e.ref := h.ref_pos hi.1
  rw [hsame]
  refine h.act hpc hcount (fun _ _ => Iff.rfl)
    (fun q hq hm => hout q ((mem_erase_of_ne hq).2 hm)) (fun _ _ _ _ hc => hc)
    (fun hl => ⟨hout p (hi.2 hl), ?_⟩) trivial h.unlocked (fun _ hv hd => ?_)
  · have hk := (h.holder p hl).2
    rwa [hp] at hk
  · rw [hdisk, hera]
    exact { h.agrees hr hv hd with }

/-- `iput` never waits for the sleep lock: with a single reference nobody has it. -/
theorem iput_not_blocked (h : Inv s) (hi : (s.entry i).Spare p) (hlast : (s.entry i).Last) :
    (s.entry i).lock = none := by
  refine Option.eq_none_iff_forall_ne_some.2 fun q hq => ?_
  have hlen : (s.entry i).out.length = 1 := (h.good i).count.symm.trans hlast.1
  obtain ⟨r, hr⟩ := length_eq_one_iff.1 hlen
  have hpr : p = r := by simpa [hr] using hi.1
  have hqr : q = r := by simpa [hr] using ((h.good i).holder q hq).1
  have hmem := hi.2 (by rw [hq, hqr, hpr])
  simp [hr, hpr] at hmem

end Functions

/-! ### Runs -/

section Runs

variable {disk : Key → Dinode} {s t : Sys P} {i : Fin NINODE} {p : P} {st : Stage} {c : Key}

section

omit [DecidableEq P]

/-- A process that frees an inode has the sleep lock of the entry, until it has released it. -/
theorem Inv.freeing (h : Inv s) (hp : s.pc p = .freeing i st) (hst : st ≠ .released) :
    (s.entry i).lock = some p ∧ p ∈ (s.entry i).out ∧ st.Ok (s.entry i) := by
  have hs := (h.good i).sits p
  rw [hp] at hs
  have hl := (hs rfl).2 hst
  obtain ⟨hm, hk⟩ := (h.good i).holder p hl
  rw [hp] at hk
  exact ⟨hl, hm, by simpa [Pc.Holds] using hk⟩

/-- A process that has the sleep lock and is at no entry has read the fields. -/
theorem Inv.holding (h : Inv s) (hp : s.pc p = .idle) (hl : (s.entry i).lock = some p) :
    0 < (s.entry i).ref ∧ (s.entry i).valid = true ∧ (s.entry i).doomed = false ∧
      Agrees (s.entry i) (s.disk (s.entry i).key) (s.era (s.entry i).key) := by
  obtain ⟨hm, hk⟩ := (h.good i).holder p hl
  rw [hp] at hk
  have hr := (h.good i).ref_pos hm
  exact ⟨hr, hk.1, hk.2, (h.good i).agrees hr hk.1 hk.2⟩

theorem Inv.locking (h : Inv s) (hp : s.pc p = .locking i) :
    (s.entry i).lock = some p ∧ 0 < (s.entry i).ref ∧ (s.entry i).dirty = false ∧
      (s.entry i).doomed = false := by
  have hs := (h.good i).sits p
  rw [hp] at hs
  have hl := hs rfl
  obtain ⟨hm, hk⟩ := (h.good i).holder p hl
  rw [hp] at hk
  exact ⟨hl, (h.good i).ref_pos hm, by simpa [Pc.Holds] using hk⟩

end

/-- **A step keeps the invariant.** -/
theorem Step.inv (h : Inv s) (hs : Step s t) : Inv t := by
  have hstill : ∀ {q : P} {k : Pc}, s.pc q = k → s.pc = update s.pc q k := by
    rintro q k rfl
    exact (update_eq_self q s.pc).symm
  cases hs with
  | iget _ p c hp _ ht => exact (h.iget (by rw [hp]; rfl) ht).1
  | ialloc p c type hp hc _ => exact (h.ialloc hc _ _).goto (congrArg Pc.about hp) rfl
  | claim t p c hp ht =>
    obtain ⟨hi, hpc⟩ := h.iget (by rw [hp]; rfl) ht
    exact hi.goto (by rw [hpc, hp]; rfl) rfl
  | idup p i hp hi => exact h.dup ((h.good i).ref_pos hi) (by rw [hp]; rfl)
  | hand p q i hp hi =>
    refine h.act rfl rfl ((h.good i).ref_pos hi.1) (hstill hp) (fun j _ => by simp [hp, Pc.about])
      (fun j _ => by simp [Pc.about]) (fun _ _ => rfl) rfl
      ((h.good i).give hp hi (hstill hp) rfl ?_ (fun r hr => mem_cons_of_mem q hr) rfl rfl)
    have hpos := length_pos_of_mem hi.1
    simp only [(h.good i).count, length_cons, length_erase_of_mem hi.1]
    omega
  | iput p i hp hi _ =>
    refine h.act rfl rfl ((h.good i).ref_pos hi.1) (hstill hp) (fun j _ => by simp [hp, Pc.about])
      (fun j _ => by simp [Pc.about]) (fun _ _ => rfl) rfl
      ((h.good i).give hp hi (hstill hp) rfl ?_ (fun r hr => hr) rfl rfl)
    simp only [Entry.drop, (h.good i).count, length_erase_of_mem hi.1]
  | ilock p i hp hi hl =>
    have hg := h.good i
    have hr := hg.ref_pos hi
    obtain ⟨hdirty, hdoomed⟩ := hg.unlocked hl
    refine h.act rfl rfl hr rfl (fun j _ => by simp [hp, Pc.about])
      (fun j hj => by simpa [Pc.about] using hj.symm) (fun _ _ => rfl) rfl
      (hg.act rfl hg.count (fun q hq => by simp [hl, hq.symm]) (fun _ _ hq => hq)
        (fun _ _ hq => absurd (hl.symm.trans hq) (Option.some_ne_none _).symm)
        (fun _ => ⟨hi, by simp [Pc.Holds, hdirty, hdoomed]⟩) (fun _ => rfl) (fun hn => by cases hn)
        fun _ hv hd => { hg.agrees hr hv hd with })
  | iputLast p i hp hi hn hl =>
    have hg := h.good i
    have hr := hg.ref_pos hi.1
    obtain ⟨hdirty, hdoomed⟩ := hg.unlocked hl
    refine h.act rfl rfl hr rfl (fun j _ => by simp [hp, Pc.about])
      (fun j hj => by simpa [Pc.about] using hj.symm) (fun _ _ => rfl) rfl
      (hg.act rfl hg.count (fun q hq => by simp [hl, hq.symm]) (fun _ _ hq => hq)
        (fun _ _ hq => absurd (hl.symm.trans hq) (Option.some_ne_none _).symm)
        (fun _ => ⟨hi.1, by simp [Pc.Holds, Stage.Ok, hdirty, hdoomed, hn.2.1, hn.2.2]⟩)
        (fun _ => ⟨hi.1, fun _ => rfl⟩) (fun hn => by cases hn)
        fun _ hv hd => { hg.agrees hr hv hd with })
  | ilockValid p i hp hv =>
    obtain ⟨hl, hr, hdirty, hdoomed⟩ := h.locking hp
    have hg := h.good i
    exact h.act (update_eq_self i s.entry).symm rfl hr rfl
      (fun j hj => by simpa [hp, Pc.about] using hj.symm) (fun j _ => by simp [Pc.about])
      (fun _ _ => rfl) rfl
      (hg.hold hl rfl rfl rfl (.inl ⟨hl, hv, hdoomed⟩) trivial hg.agrees)
  | ilockRead p i hp hv ht =>
    obtain ⟨hl, hr, hdirty, hdoomed⟩ := h.locking hp
    exact h.act rfl rfl hr rfl (fun j hj => by simpa [hp, Pc.about] using hj.symm)
      (fun j _ => by simp [Pc.about]) (fun _ _ => rfl) rfl
      ((h.good i).hold hl rfl rfl rfl (.inl ⟨hl, rfl, hdoomed⟩) trivial
        fun _ _ _ => ⟨ht, rfl, fun _ => rfl, rfl⟩)
  | change p i d hp hl ht =>
    obtain ⟨hr, hv, hdoomed, ha⟩ := h.holding hp hl
    exact h.act rfl rfl hr (hstill hp) (fun j _ => by simp [hp, Pc.about]) (fun j _ => by simp [Pc.about])
      (fun _ _ => rfl) rfl
      ((h.good i).hold hl (hstill hp) rfl rfl (.inl ⟨hl, hv, hdoomed⟩) trivial
        fun _ _ _ => ⟨ha.type_ne, ht.trans ha.type_eq, fun hd => (nomatch hd), ha.loaded⟩)
  | iupdate p i hp hl =>
    obtain ⟨hr, hv, hdoomed, ha⟩ := h.holding hp hl
    exact h.act rfl rfl hr (hstill hp) (fun j _ => by simp [hp, Pc.about]) (fun j _ => by simp [Pc.about])
      (fun c hc => update_of_ne hc _ _) rfl
      ((h.good i).hold hl (hstill hp) rfl rfl (.inl ⟨hl, hv, hdoomed⟩) trivial
        fun _ _ _ => .written (ha.type_eq ▸ ha.type_ne) ha.loaded)
  | iunlock p i hp hl hd =>
    obtain ⟨hr, hv, hdoomed, ha⟩ := h.holding hp hl
    exact h.act rfl rfl hr (hstill hp) (fun j _ => by simp [hp, Pc.about]) (fun j _ => by simp [Pc.about])
      (fun _ _ => rfl) rfl
      ((h.good i).hold hl (hstill hp) rfl rfl (.inr ⟨rfl, hd, hdoomed⟩) trivial
        fun _ _ _ => { ha with })
  | itrunc p i hp =>
    obtain ⟨hl, hm, hv, hn, hdirty, hdoomed⟩ := h.freeing hp (by decide)
    have hr := (h.good i).ref_pos hm
    have ha := (h.good i).agrees hr hv hdoomed
    exact h.act rfl rfl hr rfl (fun j hj => by simpa [hp, Pc.about] using hj.symm)
      (fun j hj => by simpa [Pc.about] using hj.symm) (fun c hc => update_of_ne hc _ _) rfl
      ((h.good i).hold hl rfl rfl rfl
        (.inl ⟨hl, by simp [Pc.Holds, Stage.Ok, Entry.trunc, hv, hn, hdirty, hdoomed]⟩)
        (fun _ => ⟨hm, fun _ => hl⟩) fun _ _ _ => .written (ha.type_eq ▸ ha.type_ne) ha.loaded)
  | zero p i hp =>
    obtain ⟨hl, hm, hv, hn, hdirty, hdoomed⟩ := h.freeing hp (by decide)
    exact h.act rfl rfl ((h.good i).ref_pos hm) rfl (fun j hj => by simpa [hp, Pc.about] using hj.symm)
      (fun j hj => by simpa [Pc.about] using hj.symm) (fun _ _ => rfl) rfl
      ((h.good i).hold hl rfl rfl rfl (.inl ⟨hl, by simp [Pc.Holds, Stage.Ok, hv, hn, hdirty]⟩)
        (fun _ => ⟨hm, fun _ => hl⟩) fun _ _ hd => (nomatch hd))
  | free p i hp =>
    obtain ⟨hl, hm, hv, hn, hdirty, -, hdoomed⟩ := h.freeing hp (by decide)
    exact h.act (update_eq_self i s.entry).symm rfl ((h.good i).ref_pos hm) rfl
      (fun j hj => by simpa [hp, Pc.about] using hj.symm)
      (fun j hj => by simpa [Pc.about] using hj.symm) (fun c hc => update_of_ne hc _ _) rfl
      ((h.good i).hold hl rfl rfl rfl (.inl ⟨hl, by simp [Pc.Holds, Stage.Ok, hdirty, hdoomed]⟩)
        (fun _ => ⟨hm, fun _ => hl⟩) fun _ _ hd => absurd (hdoomed.symm.trans hd) (by decide))
  | clear p i hp =>
    obtain ⟨hl, hm, hdirty, hdoomed⟩ := h.freeing hp (by decide)
    exact h.act rfl rfl ((h.good i).ref_pos hm) rfl (fun j hj => by simpa [hp, Pc.about] using hj.symm)
      (fun j hj => by simpa [Pc.about] using hj.symm) (fun _ _ => rfl) rfl
      ((h.good i).hold hl rfl rfl rfl (.inl ⟨hl, by simp [Pc.Holds, Stage.Ok, hdirty]⟩)
        (fun _ => ⟨hm, fun _ => hl⟩) fun _ hv _ => (nomatch hv))
  | release p i hp =>
    obtain ⟨hl, hm, hv, hdirty, hdoomed⟩ := h.freeing hp (by decide)
    exact h.act rfl rfl ((h.good i).ref_pos hm) rfl (fun j hj => by simpa [hp, Pc.about] using hj.symm)
      (fun j hj => by simpa [Pc.about] using hj.symm) (fun _ _ => rfl) rfl
      ((h.good i).hold hl rfl rfl rfl (.inr ⟨rfl, hdirty, hdoomed⟩)
        (fun _ => ⟨hm, fun hst => absurd rfl hst⟩) fun _ hv' _ => absurd (hv.symm.trans hv') (by decide))
  | last p i hp =>
    have hg := h.good i
    have hs := hg.sits p
    rw [hp] at hs
    have hm := (hs rfl).1
    -- another process may have locked the entry by now; this one has not
    have hnl : (s.entry i).lock ≠ some p := by
      intro hl
      have hk := (hg.holder p hl).2
      rw [hp] at hk
      simp [Pc.Holds, Stage.Ok] at hk
    refine h.act rfl rfl (hg.ref_pos hm) rfl (fun j hj => by simpa [hp, Pc.about] using hj.symm)
      (fun j _ => by simp [Pc.about]) (fun _ _ => rfl) rfl
      (hg.act rfl ?_ (fun _ _ => Iff.rfl) (fun q hq hqm => (mem_erase_of_ne hq).2 hqm)
        (fun _ _ _ _ hc => hc) (fun hl => absurd hl hnl) trivial hg.unlocked
        fun _ hv hd => { hg.agrees (hg.ref_pos hm) hv hd with })
    simp only [Entry.drop, hg.count, length_erase_of_mem hm]

/-- **The invariant holds in every run.** -/
theorem Reachable.inv (h : Reachable disk s) : Inv s := by
  induction h with
  | refl => exact inv_iinit disk
  | tail _ hs ih => exact hs.inv ih

/-- A step of `p` itself in `iput` on entry `i`: it moves the counter of `p` and no other, or is the
only step of an `iput` that frees nothing. -/
def OwnIput (p : P) (i : Fin NINODE) (s t : Sys P) : Prop :=
  Step s t ∧ (∀ j, j ≠ i → t.entry j = s.entry j) ∧
    (t = s.put i ((s.entry i).drop p) ∨ ∃ k, k ≠ s.pc p ∧ t.pc = update s.pc p k)

theorem Step.ownIput {k k' : Pc} (hs : Step s t) (hp : s.pc p = k) (ht : t.pc = update s.pc p k')
    (hk : k' ≠ k) (he : ∀ j, j ≠ i → t.entry j = s.entry j) : OwnIput p i s t :=
  ⟨hs, he, .inr ⟨k', hp ▸ hk, ht⟩⟩

/-- **`iput` waits for nobody.**  When it is to free the inode, nobody has the sleep lock it takes; and from
every reachable state its own steps, with no other process taking any, lead to its end, where the
reference is gone. -/
theorem reachable_iput_completes (h : Reachable disk s) (hp : s.pc p = .idle) (hi : (s.entry i).Spare p) :
    ((s.entry i).Last → (s.entry i).lock = none) ∧
    ∃ t, Relation.ReflTransGen (OwnIput p i) s t ∧ t.pc p = .idle ∧
      (t.entry i).out = (s.entry i).out.erase p := by
  refine ⟨iput_not_blocked h.inv hi, ?_⟩
  by_cases hlast : (s.entry i).Last
  · have hrun : Relation.ReflTransGen (OwnIput p i) s _ := Relation.ReflTransGen.refl
      |>.tail (Step.ownIput (.iputLast s p i hp hi hlast (iput_not_blocked h.inv hi hlast)) hp rfl nofun
        fun _ hj => update_of_ne hj _ _)
      |>.tail (Step.ownIput (k := .freeing i .trunc) (.itrunc _ p i (update_self _ _ _))
        (update_self _ _ _) rfl
        nofun fun _ hj => update_of_ne hj _ _)
      |>.tail (Step.ownIput (k := .freeing i .typing) (.zero _ p i (update_self _ _ _))
        (update_self _ _ _) rfl
        nofun fun _ hj => update_of_ne hj _ _)
      |>.tail (Step.ownIput (k := .freeing i .writing) (.free _ p i (update_self _ _ _))
        (update_self _ _ _) rfl
        nofun fun _ _ => rfl)
      |>.tail (Step.ownIput (k := .freeing i .freed) (.clear _ p i (update_self _ _ _))
        (update_self _ _ _) rfl
        nofun fun _ hj => update_of_ne hj _ _)
      |>.tail (Step.ownIput (k := .freeing i .cleared) (.release _ p i (update_self _ _ _))
        (update_self _ _ _) rfl
        nofun fun _ hj => update_of_ne hj _ _)
      |>.tail (Step.ownIput (k := .freeing i .released) (.last _ p i (update_self _ _ _))
        (update_self _ _ _) rfl
        nofun fun _ hj => update_of_ne hj _ _)
    exact ⟨_, hrun, update_self _ _ _, by simp [Sys.put, Sys.goto, Sys.write, Entry.drop, Entry.trunc]⟩
  · exact ⟨_, .single ⟨.iput s p i hp hi hlast, fun _ hj => update_of_ne hj _ _, .inl rfl⟩, hp,
      by simp [Sys.put, Entry.drop]⟩

omit [DecidableEq P] in
theorem Sys.put_key {e : Entry P} {j : Fin NINODE} (he : e.key = (s.entry j).key) :
    ((s.put j e).entry i).key = (s.entry i).key := by
  by_cases hij : i = j
  · rw [hij, ← he]
    exact congrArg Entry.key (update_self j _ _)
  · exact congrArg Entry.key (update_of_ne hij _ _)

omit [DecidableEq P] in
/-- `iget` writes no inode and moves no counter, and an entry in use keeps its inode. -/
theorem iget_frame (ht : iget s p c = some t) :
    t.disk = s.disk ∧ t.pc = s.pc ∧ ∀ i, 0 < (s.entry i).ref → (t.entry i).key = (s.entry i).key := by
  unfold iget at ht
  split at ht
  next j hj =>
    cases ht
    exact ⟨rfl, rfl, fun i _ => Sys.put_key rfl⟩
  next =>
    split at ht
    next j hj =>
      cases ht
      refine ⟨rfl, rfl, fun i hi => congrArg Entry.key (update_of_ne ?_ _ _)⟩
      rintro rfl
      exact absurd (Sys.empty_some hj) hi.ne'
    next => cases ht

theorem Step.key (hs : Step s t) (hi : 0 < (s.entry i).ref) : (t.entry i).key = (s.entry i).key := by
  cases hs with
  | iget _ _ _ _ _ ht => exact (iget_frame ht).2.2 i hi
  | claim _ _ _ _ ht => exact (iget_frame ht).2.2 i hi
  | ialloc => rfl
  | ilockValid => rfl
  | free => rfl
  | idup => exact Sys.put_key rfl
  | hand => exact Sys.put_key rfl
  | ilock => exact Sys.put_key rfl
  | ilockRead => exact Sys.put_key rfl
  | change => exact Sys.put_key rfl
  | iupdate => exact Sys.put_key rfl
  | iunlock => exact Sys.put_key rfl
  | iput => exact Sys.put_key rfl
  | iputLast => exact Sys.put_key rfl
  | itrunc => exact Sys.put_key rfl
  | zero => exact Sys.put_key rfl
  | clear => exact Sys.put_key rfl
  | release => exact Sys.put_key rfl
  | last => exact Sys.put_key rfl

omit [DecidableEq P] in
theorem Sys.write_type {d : Dinode} {k : Key} (hd : d.type = (s.disk k).type) :
    ((s.write k d).disk c).type = (s.disk c).type := by
  by_cases hck : c = k
  · rw [hck, ← hd]
    exact congrArg Dinode.type (update_self k _ _)
  · exact congrArg Dinode.type (update_of_ne hck _ _)

/-- An inode is freed on the disk by the `iupdate` of an `iput`. -/
theorem Step.freed (h : Inv s) (hs : Step s t) (hc : (s.disk c).type ≠ 0) (h0 : (t.disk c).type = 0) :
    ∃ p i, s.pc p = .freeing i .writing ∧ (s.entry i).key = c ∧ (s.entry i).fields.nlink = 0 := by
  cases hs with
  | iget _ _ _ _ _ ht => exact absurd (by rwa [← (iget_frame ht).1]) hc
  | claim _ _ _ _ ht => exact absurd (by rwa [← (iget_frame ht).1]) hc
  | ialloc p k type _ hk _ =>
    have hne : c ≠ k := fun hck => hc (hck ▸ hk)
    exact absurd ((congrArg Dinode.type (update_of_ne hne _ _)).symm.trans h0) hc
  | iupdate p i hp hl =>
    obtain ⟨-, -, -, ha⟩ := h.holding hp hl
    exact absurd ((Sys.write_type ha.type_eq).symm.trans h0) hc
  | itrunc p i hp =>
    obtain ⟨-, hm, hv, -, -, hdoomed⟩ := h.freeing hp (by decide)
    have ha := (h.good i).agrees ((h.good i).ref_pos hm) hv hdoomed
    have htype : (s.entry i).trunc.fields.type = (s.disk (s.entry i).key).type := ha.type_eq
    exact absurd ((Sys.write_type htype).symm.trans h0) hc
  | free p i hp =>
    refine ⟨p, i, hp, ?_, (h.freeing hp (by decide)).2.2.2.1⟩
    by_contra hne
    exact hc ((congrArg Dinode.type (update_of_ne (Ne.symm hne) _ _)).symm.trans h0)
  | idup => exact absurd h0 hc
  | hand => exact absurd h0 hc
  | ilock => exact absurd h0 hc
  | ilockValid => exact absurd h0 hc
  | ilockRead => exact absurd h0 hc
  | change => exact absurd h0 hc
  | iunlock => exact absurd h0 hc
  | iput => exact absurd h0 hc
  | iputLast => exact absurd h0 hc
  | zero => exact absurd h0 hc
  | clear => exact absurd h0 hc
  | release => exact absurd h0 hc
  | last => exact absurd h0 hc

/-- Process `p` is inside the part of `iput` that frees the inode of entry `i`. -/
def Inside (p : P) (i : Fin NINODE) (s : Sys P) : Prop := ∃ st, s.pc p = .freeing i st

/-- Process `p`, inside the part of `iput` that frees the inode of entry `i`, has found, in the section
under `itable.lock` from which it has come there, that it had the only reference, and no link. -/
def FoundLast (disk : Key → Dinode) (p : P) (i : Fin NINODE) (s : Sys P) : Prop :=
  ∃ u v, Reachable disk u ∧ Step u v ∧ Relation.ReflTransGen (fun a b => Step a b ∧ Inside p i b) v s ∧
    (u.entry i).key = (s.entry i).key ∧ (u.entry i).ref = 1 ∧ (u.entry i).out = [p] ∧
    (u.entry i).lock = none ∧ (u.disk (u.entry i).key).nlink = 0

/-- A process gets inside only by the test of `iput`. -/
theorem Step.enters (h : Inv s) (hs : Step s t) (hin : Inside p i t) :
    Inside p i s ∨ (s.entry i).ref = 1 ∧ (s.entry i).out = [p] ∧ (s.entry i).lock = none ∧
      (s.disk (s.entry i).key).nlink = 0 := by
  obtain ⟨st, hst⟩ := hin
  -- a counter that moves outside of `iput` is not inside, and one that does not move was
  have hmove : ∀ {q : P} {k : Pc}, update s.pc q k p = .freeing i st → k.about = none →
      Inside p i s := by
    intro q k hk ha
    by_cases hpq : p = q
    · rw [hpq, update_self] at hk
      rw [hk] at ha
      cases ha
    · exact ⟨st, (update_of_ne hpq k s.pc).symm.trans hk⟩
  have hnext : ∀ {q : P} {j : Fin NINODE} {st' st'' : Stage}, s.pc q = .freeing j st'' →
      update s.pc q (.freeing j st') p = .freeing i st → Inside p i s := by
    intro q j st' st'' hq hk
    by_cases hpq : p = q
    · rw [hpq, update_self] at hk
      obtain ⟨rfl, -⟩ := Pc.freeing.inj hk
      exact ⟨st'', hpq ▸ hq⟩
    · exact ⟨st, (update_of_ne hpq _ s.pc).symm.trans hk⟩
  cases hs with
  | iget _ _ _ _ _ ht => exact .inl ⟨st, (iget_frame ht).2.1 ▸ hst⟩
  | claim t q k _ ht =>
    have hst' : update t.pc q .idle p = .freeing i st := hst
    rw [(iget_frame ht).2.1] at hst'
    exact .inl (hmove hst' rfl)
  | ialloc => exact .inl (hmove hst rfl)
  | ilock q j =>
    have hst' : update s.pc q (.locking j) p = .freeing i st := hst
    by_cases hpq : p = q
    · rw [hpq, update_self] at hst'
      cases hst'
    · exact .inl ⟨st, (update_of_ne hpq _ s.pc).symm.trans hst'⟩
  | ilockValid => exact .inl (hmove hst rfl)
  | ilockRead => exact .inl (hmove hst rfl)
  | last => exact .inl (hmove hst rfl)
  | iputLast q j hq hi hlast hl =>
    have hst' : update s.pc q (.freeing j .trunc) p = .freeing i st := hst
    by_cases hpq : p = q
    · rw [hpq, update_self] at hst'
      obtain ⟨rfl, -⟩ := Pc.freeing.inj hst'
      have hg := h.good j
      obtain ⟨r, hr⟩ := length_eq_one_iff.1 (hg.count.symm.trans hlast.1)
      have hqr : q = r := by simpa [hr] using hi.1
      obtain ⟨hdirty, hdoomed⟩ := hg.unlocked hl
      have ha := hg.agrees (hg.ref_pos hi.1) hlast.2.1 hdoomed
      exact .inr ⟨hlast.1, by rw [hr, hpq, hqr], hl, ha.fields hdirty ▸ hlast.2.2⟩
    · exact .inl ⟨st, (update_of_ne hpq _ s.pc).symm.trans hst'⟩
  | itrunc q j hq => exact .inl (hnext hq hst)
  | zero q j hq => exact .inl (hnext hq hst)
  | free q j hq => exact .inl (hnext hq hst)
  | clear q j hq => exact .inl (hnext hq hst)
  | release q j hq => exact .inl (hnext hq hst)
  | idup => exact .inl ⟨st, hst⟩
  | hand => exact .inl ⟨st, hst⟩
  | change => exact .inl ⟨st, hst⟩
  | iupdate => exact .inl ⟨st, hst⟩
  | iunlock => exact .inl ⟨st, hst⟩
  | iput => exact .inl ⟨st, hst⟩

omit [DecidableEq P] in
theorem Inv.inside (h : Inv s) (hin : Inside p i s) : 0 < (s.entry i).ref := by
  obtain ⟨st, hst⟩ := hin
  have hs := (h.good i).sits p
  rw [hst] at hs
  exact (h.good i).ref_pos (hs rfl).1

/-- Whoever is inside has found itself with the last reference. -/
theorem Reachable.found (h : Reachable disk s) (hin : Inside p i s) : FoundLast disk p i s := by
  induction h with
  | refl =>
    obtain ⟨st, hst⟩ := hin
    cases hst
  | tail hu hs ih =>
    rcases hs.enters (Reachable.inv hu) hin with hbefore | ⟨href, hout, hl, hn⟩
    · obtain ⟨u, v, hru, huv, hvs, hkey, hrest⟩ := ih hbefore
      have hk := hs.key ((Reachable.inv hu).inside hbefore)
      exact ⟨u, v, hru, huv, hvs.tail ⟨hs, hin⟩, hkey.trans hk.symm, hrest⟩
    · exact ⟨_, _, hu, hs, .refl, (hs.key (by omega)).symm, href, hout, hl, hn⟩

/-- **The inode table**: in every state of a run

* an inode has at most one entry with references;
* the count of an entry is the number of references handed out and not put;
* an entry with references that is not locked and whose fields have been read agrees with the disk;
* a step that frees an inode on the disk is one of an `iput` that has found, under `itable.lock`, that
  it had the only reference to an inode without links;
* a process that has the sleep lock, outside of `ilock` and `iput`, has fields that were read, or written
  by a holder, since the inode was last claimed by `ialloc`. -/
theorem reachable_itable (h : Reachable disk s) :
    (∀ i j, 0 < (s.entry i).ref → 0 < (s.entry j).ref → (s.entry i).key = (s.entry j).key → i = j) ∧
    (∀ i, (s.entry i).ref = (s.entry i).out.length) ∧
    (∀ i, 0 < (s.entry i).ref → (s.entry i).lock = none → (s.entry i).valid = true →
      (s.entry i).fields = s.disk (s.entry i).key) ∧
    (∀ t c, Step s t → (s.disk c).type ≠ 0 → (t.disk c).type = 0 →
      ∃ p i, s.pc p = .freeing i .writing ∧ (s.entry i).key = c ∧ FoundLast disk p i s) ∧
    ∀ p i, (s.entry i).lock = some p → (s.pc p).about ≠ some i →
      (s.entry i).valid = true ∧ (s.entry i).loaded = s.era (s.entry i).key ∧
      ((s.entry i).dirty = false → (s.entry i).fields = s.disk (s.entry i).key) := by
  have hinv := h.inv
  refine ⟨hinv.unique, fun i => (hinv.good i).count, fun i hr hl hv => ?_, fun t c hs hc h0 => ?_,
    fun p i hl haway => ?_⟩
  · obtain ⟨hdirty, hdoomed⟩ := (hinv.good i).unlocked hl
    exact ((hinv.good i).agrees hr hv hdoomed).fields hdirty
  · obtain ⟨p, i, hp, hk, -⟩ := hs.freed hinv hc h0
    exact ⟨p, i, hp, hk, h.found ⟨_, hp⟩⟩
  · obtain ⟨hm, hk⟩ := (hinv.good i).holder p hl
    obtain ⟨hv, hdoomed⟩ := (Pc.holds_of_away haway).1 hk
    have ha := (hinv.good i).agrees ((hinv.good i).ref_pos hm) hv hdoomed
    exact ⟨hv, ha.loaded, ha.fields⟩

end Runs

/-! ### Two runs -/

/-- A file with one link. -/
def oneLink : Dinode := { Dinode.zero with type := 2, nlink := 1 }

omit [DecidableEq P] in
theorem iget_of_lookup {s : Sys P} {p : P} {c : Key} {i : Fin NINODE} (h : s.lookup c = some i) :
    iget s p c = some (s.put i ((s.entry i).dup p)) := by
  simp [iget, h]

omit [DecidableEq P] in
theorem iget_of_empty {s : Sys P} {p : P} {c : Key} {i : Fin NINODE} (h : s.lookup c = none)
    (he : s.empty = some i) : iget s p c = some (s.put i ((s.entry i).recycle c p)) := by
  simp [iget, h, he]

/-- In the first run entry 1 has been given up, with its fields read, and entry 0 is the entry of the
inode when its links change.  In the second one an `iput` has found the last reference to an inode without
links, and another `iget` comes before it frees the inode: at that step the inode has two references. -/
theorem reachable_stale_or_shared :
    (∃ s : Sys Unit, Reachable (fun _ => oneLink) s ∧ (s.entry 1).lock = none ∧
      (s.entry 1).valid = true ∧ (s.entry 1).fields ≠ s.disk (s.entry 1).key) ∧
    ∃ s t : Sys Bool, Reachable (fun _ => oneLink) s ∧ Step s t ∧ s.pc true = .freeing 0 .writing ∧
      (s.entry 0).ref = 2 ∧ (s.disk (s.entry 0).key).type ≠ 0 ∧ (t.disk (s.entry 0).key).type = 0 := by
  constructor
  · have h : Relation.ReflTransGen Step (iinit (fun _ => oneLink) : Sys Unit) _ :=
      Relation.ReflTransGen.refl
        |>.tail (.iget _ _ () (1, 2) rfl (by decide)
          (iget_of_empty (i := 0) (by decide +kernel) (by decide +kernel)))
        |>.tail (.iget _ _ () (1, 1) rfl (by decide)
          (iget_of_empty (i := 1) (by decide +kernel) (by decide +kernel)))
        |>.tail (.ilock _ () 1 rfl (by decide +kernel) rfl)
        |>.tail (.ilockRead _ () 1 rfl rfl (by decide))
        |>.tail (.iunlock _ () 1 rfl rfl rfl)
        |>.tail (.iput _ () 1 rfl (by decide +kernel) (by decide +kernel))
        |>.tail (.iput _ () 0 rfl (by decide +kernel) (by decide +kernel))
        |>.tail (.iget _ _ () (1, 1) rfl (by decide)
          (iget_of_empty (i := 0) (by decide +kernel) (by decide +kernel)))
        |>.tail (.ilock _ () 0 rfl (by decide +kernel) rfl)
        |>.tail (.ilockRead _ () 0 rfl rfl (by decide))
        |>.tail (.change _ () 0 { oneLink with nlink := 2 } rfl rfl rfl)
        |>.tail (.iupdate _ () 0 rfl rfl)
    exact ⟨_, h, rfl, rfl, fun heq => absurd (congrArg Dinode.nlink heq) (by decide +kernel)⟩
  · have h : Relation.ReflTransGen Step (iinit (fun _ => oneLink) : Sys Bool) _ :=
      Relation.ReflTransGen.refl
        |>.tail (.iget _ _ true (1, 1) rfl (by decide)
          (iget_of_empty (i := 0) (by decide +kernel) (by decide +kernel)))
        |>.tail (.ilock _ true 0 rfl (by decide +kernel) rfl)
        |>.tail (.ilockRead _ true 0 rfl rfl (by decide))
        |>.tail (.change _ true 0 { oneLink with nlink := 0 } rfl rfl rfl)
        |>.tail (.iupdate _ true 0 rfl rfl)
        |>.tail (.iunlock _ true 0 rfl rfl rfl)
        |>.tail (.iputLast _ true 0 rfl (by decide +kernel) (by decide +kernel) rfl)
        |>.tail (.iget _ _ false (1, 1) rfl (by decide +kernel)
          (iget_of_lookup (i := 0) (by decide +kernel)))
        |>.tail (.itrunc _ true 0 rfl)
        |>.tail (.zero _ true 0 rfl)
    exact ⟨_, _, h, .free _ true 0 rfl, rfl, rfl, by decide +kernel, by decide +kernel⟩

/-- An inode whose only link has gone is freed: the test of `iput` held under `itable.lock`. -/
theorem reachable_itable_freed : ∃ s t : Sys Unit, Reachable (fun _ => oneLink) s ∧ Step s t ∧
    (s.disk (1, 1)).type ≠ 0 ∧ (t.disk (1, 1)).type = 0 ∧
    ∃ p i, s.pc p = .freeing i .writing ∧ (s.entry i).key = (1, 1) ∧
      FoundLast (fun _ => oneLink) p i s := by
  have h : Relation.ReflTransGen Step (iinit (fun _ => oneLink) : Sys Unit) _ :=
    Relation.ReflTransGen.refl
      |>.tail (.iget _ _ () (1, 1) rfl (by decide)
        (iget_of_empty (i := 0) (by decide +kernel) (by decide +kernel)))
      |>.tail (.ilock _ () 0 rfl (by decide +kernel) rfl)
      |>.tail (.ilockRead _ () 0 rfl rfl (by decide))
      |>.tail (.change _ () 0 { oneLink with nlink := 0 } rfl rfl rfl)
      |>.tail (.iupdate _ () 0 rfl rfl)
      |>.tail (.iunlock _ () 0 rfl rfl rfl)
      |>.tail (.iputLast _ () 0 rfl (by decide +kernel) (by decide +kernel) rfl)
      |>.tail (.itrunc _ () 0 rfl)
      |>.tail (.zero _ () 0 rfl)
  exact ⟨_, _, h, .free _ () 0 rfl, by decide +kernel, by decide +kernel,
    (reachable_itable h).2.2.2.1 _ (1, 1) (.free _ () 0 rfl) (by decide +kernel) (by decide +kernel)⟩

/-- The last reference to an inode without links. -/
theorem reachable_iput_completes_unlinked : ∃ s t : Sys Unit, Reachable (fun _ => oneLink) s ∧
    (s.entry 0).Last ∧ (s.entry 0).lock = none ∧ Relation.ReflTransGen (OwnIput () 0) s t ∧
    (t.entry 0).out = [] := by
  have h : Relation.ReflTransGen Step (iinit (fun _ => oneLink) : Sys Unit) _ :=
    Relation.ReflTransGen.refl
      |>.tail (.iget _ _ () (1, 1) rfl (by decide)
        (iget_of_empty (i := 0) (by decide +kernel) (by decide +kernel)))
      |>.tail (.ilock _ () 0 rfl (by decide +kernel) rfl)
      |>.tail (.ilockRead _ () 0 rfl rfl (by decide))
      |>.tail (.change _ () 0 { oneLink with nlink := 0 } rfl rfl rfl)
      |>.tail (.iupdate _ () 0 rfl rfl)
      |>.tail (.iunlock _ () 0 rfl rfl rfl)
  obtain ⟨hfree, t, hrun, -, hout⟩ :=
    reachable_iput_completes (p := ()) (i := 0) h rfl (by decide +kernel)
  exact ⟨_, t, h, by decide +kernel, hfree (by decide +kernel), hrun, hout⟩

end Itable

end Xv6
