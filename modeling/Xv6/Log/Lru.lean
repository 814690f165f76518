import Xv6.Lib.DList
import Xv6.Param

/-!
# The list of buffers (`bio.c`)

The buffer cache at the level of its pointers and its reference counts.  Each section under
`bcache.lock` is one step, a process that has taken a reference in `bget` waits for the sleep lock in
steps of its own, and `brelse` gives up the sleep lock before its section.  The counts are 32 bits wide,
as in the source.

Besides the fields of the source the state records who waits, who holds, who is inside `brelse`, the
pins, which buffers have ever been assigned, and when a buffer was last released to a count of zero.

* `Bcache.Step.inv`: what each step keeps;
* `Bcache.reachable_cache`: in every state of every run the pointers describe one circular list of all
  buffers, most recently released first; no two assigned buffers have the same device and block; the
  counts are right; and what `bget` recycles is the unreferenced buffer released longest ago.
-/

namespace Xv6

open Function List

namespace Bcache

/-- A buffer. -/
abbrev BufId := Fin NBUF

/-- The buffer cache, and what its processes are doing. -/
structure Cache where
  links : Links BufId
  dev : BufId → BitVec 32
  blockno : BufId → BitVec 32
  valid : BufId → Bool
  refcnt : BufId → BitVec 32
  /-- The process that holds `b->lock`. -/
  holder : BufId → Option ℕ
  /-- The processes that have their reference from `bget` and wait for `b->lock`. -/
  waiters : BufId → List ℕ
  /-- The processes in `brelse` that have given up `b->lock`. -/
  releasing : BufId → List ℕ
  pins : BufId → ℕ
  /-- The buffer has been assigned to a block. -/
  assigned : BufId → Bool
  /-- When `brelse`, or at first `binit`, last put the buffer at the front. -/
  stamp : BufId → ℕ
  clock : ℕ

/-- The references to a buffer: holders, waiters and pins. -/
def Cache.refs (s : Cache) (i : BufId) : ℕ :=
  (s.holder i).toList.length + (s.releasing i).length + (s.waiters i).length + s.pins i

/-- `binit`. -/
def binit : Cache where
  links := (List.finRange NBUF).foldl Links.pushFront ⟨fun _ => none, fun _ => none⟩
  dev _ := 0
  blockno _ := 0
  valid _ := false
  refcnt _ := 0
  holder _ := none
  waiters _ := []
  releasing _ := []
  pins _ := 0
  assigned _ := false
  stamp i := i
  clock := NBUF

namespace Cache

/-- The first loop of `bget`. -/
def cached (s : Cache) (dev blockno : BitVec 32) : Option BufId :=
  Links.find s.links.next (fun i => s.dev i = dev && s.blockno i = blockno) (NBUF + 1)
    (s.links.next none)

/-- The second loop of `bget`. -/
def unused (s : Cache) : Option BufId :=
  Links.find s.links.prev (fun i => s.refcnt i = 0) (NBUF + 1) (s.links.prev none)

/-- Set the count of a buffer. -/
def setRef (s : Cache) (i : BufId) (n : BitVec 32) : Cache :=
  { s with refcnt := update s.refcnt i n }

/-- Process `p` waits for the lock of buffer `i`. -/
def enqueue (s : Cache) (p : ℕ) (i : BufId) : Cache :=
  { s with waiters := update s.waiters i (p :: s.waiters i) }

/-- `bget` assigns buffer `i`. -/
def assign (s : Cache) (i : BufId) (dev blockno : BitVec 32) : Cache :=
  { s with
    dev := update s.dev i dev
    blockno := update s.blockno i blockno
    valid := update s.valid i false
    assigned := update s.assigned i true }

/-- `brelse` moves buffer `i` to the front. -/
def toFront (s : Cache) (i : BufId) : Cache :=
  { s with
    links := (s.links.unlink i).pushFront i
    stamp := update s.stamp i s.clock
    clock := s.clock + 1 }

end Cache

/-- One section of one process. -/
inductive Step : Cache → Cache → Prop
  | hit (s : Cache) (p : ℕ) (dev blockno : BitVec 32) (i : BufId)
      (h : s.cached dev blockno = some i) : Step s ((s.setRef i (s.refcnt i + 1)).enqueue p i)
  | recycle (s : Cache) (p : ℕ) (dev blockno : BitVec 32) (i : BufId)
      (h : s.cached dev blockno = none) (hu : s.unused = some i) :
      Step s (((s.assign i dev blockno).setRef i 1).enqueue p i)
  /-- `acquiresleep` returns. -/
  | lock (s : Cache) (p : ℕ) (i : BufId) (hp : p ∈ s.waiters i) (hl : s.holder i = none) :
      Step s { s with
        holder := update s.holder i (some p)
        waiters := update s.waiters i ((s.waiters i).erase p) }
  /-- `bread` has read the block. -/
  | read (s : Cache) (p : ℕ) (i : BufId) (hp : s.holder i = some p) :
      Step s { s with valid := update s.valid i true }
  /-- `releasesleep` in `brelse`. -/
  | unlock (s : Cache) (p : ℕ) (i : BufId) (hp : s.holder i = some p) :
      Step s { s with
        holder := update s.holder i none
        releasing := update s.releasing i (p :: s.releasing i) }
  /-- The section of `brelse`. -/
  | brelse (s t : Cache) (p : ℕ) (i : BufId) (hp : p ∈ s.releasing i)
      (ht : t = { s.setRef i (s.refcnt i - 1) with
        releasing := update s.releasing i ((s.releasing i).erase p) }) :
      Step s (if s.refcnt i - 1 = 0 then t.toFront i else t)
  | bpin (s : Cache) (i : BufId) :
      Step s { s.setRef i (s.refcnt i + 1) with pins := update s.pins i (s.pins i + 1) }
  | bunpin (s : Cache) (i : BufId) (h : 0 < s.pins i) :
      Step s { s.setRef i (s.refcnt i - 1) with pins := update s.pins i (s.pins i - 1) }

/-- The states of the runs from `binit`. -/
def Reachable (s : Cache) : Prop := Relation.ReflTransGen Step binit s

/-! ### The invariant -/

/-- What holds between the sections, with the list that the pointers describe. -/
structure Inv (s : Cache) (l : List BufId) : Prop where
  circ : s.links.Circ l
  all : ∀ i, i ∈ l
  /-- Most recently released first. -/
  order : l.Pairwise fun i j => s.stamp j < s.stamp i
  clock : ∀ i, s.stamp i < s.clock
  /-- An assigned buffer shares its device and block with no other. -/
  key : ∀ i j, s.assigned i = true → i ≠ j → ¬ (s.dev i = s.dev j ∧ s.blockno i = s.blockno j)
  refs : ∀ i, s.refcnt i = BitVec.ofNat 32 (s.refs i)

variable {s t : Cache} {l : List BufId} {i : BufId}

theorem inv_binit : Inv binit (List.finRange NBUF).reverse where
  circ := by
    have h : (⟨fun _ => none, fun _ => none⟩ : Links BufId).Circ [] := ⟨⟨rfl, rfl⟩, nodup_nil⟩
    have := h.foldl_pushFront (nodup_finRange NBUF) (by simp)
    rwa [append_nil] at this
  all i := by simp
  order := by
    rw [pairwise_reverse]
    exact pairwise_lt_finRange NBUF
  clock i := i.isLt
  key i j h := by simp [binit] at h
  refs i := rfl

namespace Inv

section

variable (h : Inv s l)
include h

theorem length : l.length = NBUF := by
  have hperm : l.toFinset = Finset.univ := by
    ext i
    simp [h.all i]
  have := congrArg Finset.card hperm
  rwa [toFinset_card_of_nodup h.circ.nodup, Finset.card_univ, Fintype.card_fin] at this

theorem cached_eq (dev blockno : BitVec 32) :
    s.cached dev blockno = l.find? fun i => s.dev i = dev && s.blockno i = blockno :=
  h.circ.find_next _ (by rw [h.length]; exact Nat.lt_succ_self _)

theorem unused_eq : s.unused = l.reverse.find? fun i => s.refcnt i = 0 :=
  h.circ.find_prev _ (by rw [h.length]; exact Nat.lt_succ_self _)

/-- A block that the first loop does not find is in no buffer. -/
theorem key_of_not_cached {dev blockno : BitVec 32} (hn : s.cached dev blockno = none)
    (j : BufId) : ¬ (s.dev j = dev ∧ s.blockno j = blockno) := by
  rw [h.cached_eq, find?_eq_none] at hn
  simpa using hn j (h.all j)

/-- **The second loop of `bget` finds the unreferenced buffer released longest ago.** -/
theorem stamp_le (hu : s.unused = some i) :
    s.refcnt i = 0 ∧ ∀ j, s.refcnt j = 0 → s.stamp i ≤ s.stamp j := by
  rw [h.unused_eq, find?_eq_some_iff_append] at hu
  obtain ⟨hi, k, k', hk, hno⟩ := hu
  refine ⟨by simpa using hi, fun j hj => ?_⟩
  have hl : l = k'.reverse ++ i :: k.reverse := by
    have := congrArg List.reverse hk
    simpa using this
  have hjl := h.all j
  have hord := h.order
  rw [hl, mem_append, mem_cons] at hjl
  rw [hl, pairwise_append] at hord
  rcases hjl with hjl | rfl | hjl
  · exact (hord.2.2 j hjl i (by simp)).le
  · exact le_rfl
  · -- the loop has passed `j`, which was referenced
    have := hno j (mem_reverse.1 hjl)
    simp [hj] at this

/-- A step that changes at most the references to buffer `i`. -/
theorem setRefs (hlinks : t.links = s.links) (hdev : t.dev = s.dev)
    (hblock : t.blockno = s.blockno) (hassigned : t.assigned = s.assigned) (hstamp : t.stamp = s.stamp)
    (hclock : t.clock = s.clock) (hother : ∀ j, j ≠ i → t.refcnt j = s.refcnt j ∧ t.refs j = s.refs j)
    (hself : t.refcnt i = BitVec.ofNat 32 (t.refs i)) : Inv t l where
  circ := hlinks ▸ h.circ
  all := h.all
  order := hstamp ▸ h.order
  clock := by rw [hstamp, hclock]; exact h.clock
  key := by rw [hdev, hblock, hassigned]; exact h.key
  refs j := by
    rcases eq_or_ne j i with rfl | hne
    · exact hself
    · rw [(hother j hne).1, (hother j hne).2]
      exact h.refs j

theorem toFront (i : BufId) : ∃ l', Inv (s.toFront i) l' := by
  obtain ⟨l₁, l₂, rfl⟩ := append_of_mem (h.all i)
  have hnd := h.circ.nodup
  have hi : i ∉ l₁ ++ l₂ := by
    have := (nodup_middle.1 hnd)
    exact (nodup_cons.1 this).1
  refine ⟨i :: (l₁ ++ l₂), (h.circ.unlink).pushFront hi, fun j => ?_, ?_, fun j => ?_, h.key, h.refs⟩
  · have := h.all j
    simp only [mem_append, mem_cons] at this ⊢
    tauto
  · have hsub : (l₁ ++ l₂).Pairwise fun i j => s.stamp j < s.stamp i :=
      h.order.sublist (List.Sublist.append_left (sublist_cons_self i l₂) l₁)
    refine pairwise_cons.2 ⟨fun j hj => ?_, hsub.imp_of_mem fun {a b} ha hb hab => ?_⟩
    · have hji : j ≠ i := by rintro rfl; exact hi hj
      simpa [Cache.toFront, update_of_ne hji] using h.clock j
    · have hai : a ≠ i := by rintro rfl; exact hi ha
      have hbi : b ≠ i := by rintro rfl; exact hi hb
      simpa [Cache.toFront, update_of_ne hai, update_of_ne hbi] using hab
  · rcases eq_or_ne j i with rfl | hji
    · simp [Cache.toFront]
    · simpa [Cache.toFront, update_of_ne hji] using Nat.lt_succ_of_lt (h.clock j)

end

end Inv

theorem ofNat_succ (n : ℕ) : BitVec.ofNat 32 n + 1 = BitVec.ofNat 32 (n + 1) := by
  rw [BitVec.ofNat_add]
  rfl

theorem ofNat_pred (n : ℕ) : BitVec.ofNat 32 (n + 1) - 1 = BitVec.ofNat 32 n := by
  rw [← ofNat_succ, BitVec.add_sub_cancel]

theorem Inv.ref_succ (h : Inv s l) (hr : t.refcnt i = s.refcnt i + 1) (hn : t.refs i = s.refs i + 1) :
    t.refcnt i = BitVec.ofNat 32 (t.refs i) := by
  rw [hr, hn, h.refs i, ofNat_succ]

theorem Inv.ref_pred (h : Inv s l) (hr : t.refcnt i = s.refcnt i - 1) (hn : t.refs i + 1 = s.refs i) :
    t.refcnt i = BitVec.ofNat 32 (t.refs i) := by
  rw [hr, h.refs i, ← hn, ofNat_pred]

theorem Inv.ref_eq (h : Inv s l) (hr : t.refcnt i = s.refcnt i) (hn : t.refs i = s.refs i) :
    t.refcnt i = BitVec.ofNat 32 (t.refs i) := by
  rw [hr, hn, h.refs i]

/-- **One step** keeps the list, the keys, the counts and the order. -/
theorem Step.inv (h : Inv s l) (hs : Step s t) : ∃ l', Inv t l' := by
  cases hs with
  | hit p dev blockno i hc =>
    refine ⟨l, h.setRefs (i := i) rfl rfl rfl rfl rfl rfl (fun j hne => ?_) (h.ref_succ ?_ ?_)⟩
    · simp [Cache.enqueue, Cache.setRef, Cache.refs, update_of_ne hne]
    · simp [Cache.enqueue, Cache.setRef]
    · simp only [Cache.enqueue, Cache.setRef, Cache.refs, update_self, length_cons]
      omega
  | recycle p dev blockno i hc hu =>
    have hfree := (h.stamp_le hu).1
    have hkey := h.key_of_not_cached hc
    refine ⟨l, h.circ, h.all, h.order, h.clock, fun j k hj hne => ?_, fun j => ?_⟩
    · show ¬ (update s.dev i dev j = update s.dev i dev k ∧
        update s.blockno i blockno j = update s.blockno i blockno k)
      rcases eq_or_ne j i with rfl | hji
      · rw [update_self, update_self, update_of_ne (Ne.symm hne),
          update_of_ne (Ne.symm hne)]
        exact fun hk => hkey k ⟨hk.1.symm, hk.2.symm⟩
      · rw [update_of_ne hji, update_of_ne hji]
        rcases eq_or_ne k i with rfl | hki
        · rw [update_self, update_self]
          exact hkey j
        · rw [update_of_ne hki, update_of_ne hki]
          refine h.key j k ?_ hne
          simpa [Cache.enqueue, Cache.setRef, Cache.assign, update_of_ne hji] using hj
    · rcases eq_or_ne j i with rfl | hji
      · -- the count was zero, so that the references are one more than a multiple of `2 ^ 32`
        refine h.ref_succ ?_ ?_
        · simp [Cache.enqueue, Cache.setRef, Cache.assign, hfree]
        · simp only [Cache.enqueue, Cache.setRef, Cache.assign, Cache.refs, update_self,
            length_cons]
          omega
      · simpa [Cache.enqueue, Cache.setRef, Cache.assign, Cache.refs, update_of_ne hji] using
          h.refs j
  | lock p i hp hl =>
    have hpos := length_pos_of_mem hp
    refine ⟨l, h.setRefs (i := i) rfl rfl rfl rfl rfl rfl (fun j hne => ?_) (h.ref_eq rfl ?_)⟩
    · simp [Cache.refs, update_of_ne hne]
    · simp only [Cache.refs, update_self, hl, length_erase_of_mem hp, Option.toList_some,
        Option.toList_none, length_cons, length_nil]
      omega
  | read p i hp => exact ⟨l, h.setRefs (i := i) rfl rfl rfl rfl rfl rfl (fun _ _ => ⟨rfl, rfl⟩) (h.refs i)⟩
  | unlock p i hp =>
    refine ⟨l, h.setRefs (i := i) rfl rfl rfl rfl rfl rfl (fun j hne => ?_) (h.ref_eq rfl ?_)⟩
    · simp [Cache.refs, update_of_ne hne]
    · simp only [Cache.refs, update_self, hp, Option.toList_some, Option.toList_none,
        length_cons, length_nil]
      omega
  | brelse u p i hp hu =>
    have hpos := length_pos_of_mem hp
    have hinv : Inv u l := by
      subst hu
      refine h.setRefs (i := i) rfl rfl rfl rfl rfl rfl (fun j hne => ?_) (h.ref_pred ?_ ?_)
      · simp [Cache.setRef, Cache.refs, update_of_ne hne]
      · simp [Cache.setRef]
      · simp only [Cache.setRef, Cache.refs, update_self, length_erase_of_mem hp]
        omega
    by_cases hz : s.refcnt i - 1 = 0
    · rw [if_pos hz]
      exact hinv.toFront i
    · rw [if_neg hz]
      exact ⟨l, hinv⟩
  | bpin i =>
    refine ⟨l, h.setRefs (i := i) rfl rfl rfl rfl rfl rfl (fun j hne => ?_) (h.ref_succ ?_ ?_)⟩
    · simp [Cache.setRef, Cache.refs, update_of_ne hne]
    · simp [Cache.setRef]
    · simp only [Cache.setRef, Cache.refs, update_self]
      omega
  | bunpin i hpos =>
    refine ⟨l, h.setRefs (i := i) rfl rfl rfl rfl rfl rfl (fun j hne => ?_) (h.ref_pred ?_ ?_)⟩
    · simp [Cache.setRef, Cache.refs, update_of_ne hne]
    · simp [Cache.setRef]
    · simp only [Cache.setRef, Cache.refs, update_self]
      omega

theorem Reachable.inv (h : Reachable s) : ∃ l, Inv s l := by
  induction h with
  | refl => exact ⟨_, inv_binit⟩
  | tail _ hs ih =>
    obtain ⟨l, hl⟩ := ih
    exact hs.inv hl

theorem Step.reassign (h : Inv s l) (hs : Step s t) (hi : s.refcnt i ≠ 0) :
    t.dev i = s.dev i ∧ t.blockno i = s.blockno i := by
  cases hs with
  | recycle p dev blockno j hc hu =>
    have hne : i ≠ j := by
      rintro rfl
      exact hi (h.stamp_le hu).1
    exact ⟨update_of_ne hne _ _, update_of_ne hne _ _⟩
  | brelse u p j hp hu =>
    subst hu
    by_cases hz : s.refcnt j - 1 = 0
    · rw [if_pos hz]
      exact ⟨rfl, rfl⟩
    · rw [if_neg hz]
      exact ⟨rfl, rfl⟩
  | _ => exact ⟨rfl, rfl⟩

/-- **The buffer cache is what it looks like**, in every state of every run:

* the two kinds of pointers describe one circular list that visits the head and each of the `NBUF`
  buffers exactly once, in the order of the most recent release to a count of zero by `brelse`;
* no two buffers that have been assigned have the same device and block;
* a step changes the device and block only of a buffer with count zero;
* the count of a buffer is the number of its holders, waiters and pins, in 32 bits;
* what `bget` recycles is, among the buffers with count zero, the one released longest ago. -/
theorem reachable_cache (h : Reachable s) :
    (∃ l : List BufId, s.links.Circ l ∧ (∀ i, i ∈ l) ∧ l.length = NBUF ∧
      l.Pairwise fun i j => s.stamp j < s.stamp i) ∧
    (∀ i j, s.assigned i = true → s.assigned j = true → i ≠ j →
      ¬ (s.dev i = s.dev j ∧ s.blockno i = s.blockno j)) ∧
    (∀ t i, Step s t → s.refcnt i ≠ 0 → t.dev i = s.dev i ∧ t.blockno i = s.blockno i) ∧
    (∀ i, s.refcnt i = BitVec.ofNat 32 (s.refs i)) ∧
    (∀ i, s.unused = some i → s.refcnt i = 0 ∧ ∀ j, s.refcnt j = 0 → s.stamp i ≤ s.stamp j) := by
  obtain ⟨l, hl⟩ := h.inv
  exact ⟨⟨l, hl.circ, hl.all, hl.length, hl.order⟩, fun i j hi _ hne => hl.key i j hi hne,
    fun t i hs hi => hs.reassign hl hi, hl.refs, fun i => hl.stamp_le⟩

/-- A process has asked for a block in a new cache. -/
def firstRead : Cache := ((binit.assign ⟨0, by decide⟩ 1 1).setRef ⟨0, by decide⟩ 1).enqueue 0 ⟨0, by decide⟩

/-- `bget` takes the buffer that `binit` has put in first. -/
theorem reachable_firstRead : Reachable firstRead := by
  have hc : binit.cached 1 1 = none := by
    rw [inv_binit.cached_eq, find?_eq_none]
    intro i _
    simp [binit]
  have hu : binit.unused = some ⟨0, by decide⟩ := by
    rw [inv_binit.unused_eq]
    decide
  exact Relation.ReflTransGen.refl.tail (Step.recycle binit 0 1 1 _ hc hu)

theorem cached_firstRead : firstRead.cached 1 1 = some ⟨0, by decide⟩ := by
  obtain ⟨l, hl⟩ := reachable_firstRead.inv
  have hsome : (l.find? fun i => firstRead.dev i = 1 && firstRead.blockno i = 1).isSome :=
    find?_isSome.2 ⟨⟨0, by decide⟩, hl.all _, by decide⟩
  obtain ⟨j, hj⟩ := Option.isSome_iff_exists.1 hsome
  have hdev := find?_some hj
  rw [hl.cached_eq, hj]
  by_contra hne
  have hj0 : j ≠ ⟨0, by decide⟩ := fun h => hne (congrArg some h)
  have hzero : firstRead.dev j = 0 := update_of_ne hj0 _ _
  simp [hzero] at hdev

/-- A second `bget` finds the block in its buffer. -/
theorem reachable_cache_shared : ∃ s, Reachable s ∧ s.assigned ⟨0, by decide⟩ = true ∧
    s.waiters ⟨0, by decide⟩ = [1, 0] ∧ s.refcnt ⟨0, by decide⟩ = BitVec.ofNat 32 2 := by
  have h : Reachable _ := reachable_firstRead.tail (Step.hit _ 1 1 1 _ cached_firstRead)
  refine ⟨_, h, rfl, rfl, (reachable_cache h).2.2.2.1 _⟩

end Bcache

end Xv6
