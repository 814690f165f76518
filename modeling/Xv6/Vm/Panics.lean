import Xv6.Vm.Vm

/-!
# The panics of the memory functions

Whatever the memory holds, the functions of `kalloc.c` and `vm.c` stop only with their own messages, or
because the kernel itself faults.
-/

namespace Xv6

open Stateful

/-- The messages of `kalloc.c` and `vm.c`, and that of a fault in the kernel. -/
def vmMessages : List String :=
  ["kfree", "kerneltrap", "walk", "mappages: va not aligned", "mappages: size not aligned",
    "mappages: size", "mappages: remap", "uvmunmap: not aligned", "uvmunmap: walk",
    "uvmunmap: not mapped", "uvmunmap: not a leaf", "uvmfirst: more than a page", "freewalk: leaf",
    "uvmcopy: pte should exist", "uvmcopy: page not present", "uvmclear"]

/-- The memory functions stopped the machine. -/
def VmPanic (w : Stop) : Prop := ∃ msg ∈ vmMessages, w = .panic msg

theorem vmPanic {α : Type} {msg : String} (h : msg ∈ vmMessages) :
    Stops VmPanic (Prog.panic msg : Prog Mem α) := keeps_panic ⟨msg, h, rfl⟩

theorem memset_stops (pa : ℕ) (b : Byte) : Stops VmPanic (memset pa b) := by
  unfold memset
  exact keeps_ite (fun _ => vmPanic (by simp [vmMessages])) fun _ => stops_modify _

theorem kfree_stops (pa : ℕ) : Stops VmPanic (kfree pa) := by
  unfold kfree
  refine keeps_bind keeps_get fun m => ?_
  exact keeps_ite (fun _ => vmPanic (by simp [vmMessages])) fun _ => stops_set _

theorem kalloc_stops : Stops VmPanic kalloc := by
  unfold kalloc
  refine keeps_bind keeps_get fun m => ?_
  cases m.free with
  | nil => exact keeps_pure 0
  | cons r rest => exact keeps_bind (stops_set _) fun _ => keeps_pure r

theorem walkLoop_stops (va : ℕ) (alloc : Bool) (level pagetable : ℕ) :
    Stops VmPanic (walkLoop va alloc level pagetable) := by
  induction level generalizing pagetable with
  | zero => exact keeps_pure _
  | succ level ih =>
    rw [walkLoop]
    refine keeps_bind keeps_get fun m => keeps_ite (fun _ => ih _) fun _ => keeps_unless fun _ =>
      keeps_bind kalloc_stops fun child => keeps_unless fun _ => ?_
    exact keeps_bind (memset_stops _ _) fun _ => keeps_bind (stops_modify _) fun _ => ih _

theorem walk_stops (pagetable va : ℕ) (alloc : Bool) : Stops VmPanic (walk pagetable va alloc) := by
  unfold walk
  refine keeps_ite (fun _ => vmPanic (by simp [vmMessages])) fun _ => ?_
  refine keeps_bind (walkLoop_stops _ _ _ _) fun r => ?_
  cases r <;> exact keeps_pure _

theorem mapLoop_stops (pagetable last : ℕ) (perm : BitVec 64) (fuel a pa : ℕ) :
    Stops VmPanic (mapLoop pagetable last perm fuel a pa) := by
  induction fuel generalizing a pa with
  | zero => exact keeps_pure _
  | succ fuel ih =>
    rw [mapLoop]
    refine keeps_bind (walk_stops _ _ _) fun r => ?_
    cases r with
    | none => exact keeps_pure _
    | some ti =>
      refine keeps_bind keeps_get fun m => keeps_ite
        (fun _ => keeps_bind (vmPanic (by simp [vmMessages])) fun _ => ?_) fun _ => ?_
      · exact keeps_bind (stops_modify _) fun _ => keeps_unless fun _ => ih _ _
      · exact keeps_bind (stops_modify _) fun _ => keeps_unless fun _ => ih _ _

theorem mappages_stops (pagetable va size pa : ℕ) (perm : BitVec 32) :
    Stops VmPanic (mappages pagetable va size pa perm) := by
  unfold mappages
  refine keeps_ite (fun _ => vmPanic (by simp [vmMessages])) fun _ => keeps_ite
    (fun _ => vmPanic (by simp [vmMessages])) fun _ => keeps_ite
    (fun _ => vmPanic (by simp [vmMessages])) fun _ => mapLoop_stops _ _ _ _ _ _

theorem unmapLoop_stops (pagetable bound : ℕ) (doFree : Bool) (fuel a : ℕ) :
    Stops VmPanic (unmapLoop pagetable bound doFree fuel a) := by
  induction fuel generalizing a with
  | zero => exact keeps_pure _
  | succ fuel ih =>
    rw [unmapLoop]
    refine keeps_when fun _ => keeps_bind (walk_stops _ _ _) fun r => ?_
    cases r with
    | none => exact vmPanic (by simp [vmMessages])
    | some ti =>
      refine keeps_bind keeps_get fun m => keeps_ite
        (fun _ => keeps_bind (vmPanic (by simp [vmMessages])) fun _ => ?_) fun _ => ?_
      all_goals
        refine keeps_ite (fun _ => keeps_bind (vmPanic (by simp [vmMessages])) fun _ => ?_)
          fun _ => ?_
      all_goals
        refine keeps_ite (fun _ => keeps_bind (kfree_stops _) fun _ => ?_) fun _ => ?_
      all_goals exact keeps_bind (stops_modify _) fun _ => ih _

theorem uvmunmap_stops (pagetable va npages : ℕ) (doFree : Bool) :
    Stops VmPanic (uvmunmap pagetable va npages doFree) := by
  unfold uvmunmap
  exact keeps_ite (fun _ => vmPanic (by simp [vmMessages])) fun _ => unmapLoop_stops _ _ _ _ _

theorem uvmcreate_stops : Stops VmPanic uvmcreate := by
  unfold uvmcreate
  refine keeps_bind kalloc_stops fun pagetable => keeps_unless fun _ => ?_
  exact keeps_bind (memset_stops _ _) fun _ => keeps_pure _

theorem uvmfirst_stops (pagetable : ℕ) (src : List Byte) : Stops VmPanic (uvmfirst pagetable src) := by
  unfold uvmfirst
  refine keeps_ite (fun _ => vmPanic (by simp [vmMessages])) fun _ => ?_
  exact keeps_bind kalloc_stops fun mem => keeps_bind (memset_stops _ _) fun _ =>
    keeps_bind (mappages_stops _ _ _ _ _) fun _ => stops_modify _

theorem uvmdealloc_stops (pagetable oldsz newsz : ℕ) :
    Stops VmPanic (uvmdealloc pagetable oldsz newsz) := by
  unfold uvmdealloc
  refine keeps_unless fun _ => keeps_when fun _ => ?_
  exact keeps_bind (uvmunmap_stops _ _ _ _) fun _ => keeps_pure _

theorem allocLoop_stops (pagetable oldsz newsz : ℕ) (xperm : BitVec 32) (fuel a : ℕ) :
    Stops VmPanic (allocLoop pagetable oldsz newsz xperm fuel a) := by
  induction fuel generalizing a with
  | zero => exact keeps_pure _
  | succ fuel ih =>
    rw [allocLoop]
    refine keeps_when fun _ => keeps_bind kalloc_stops fun mem => keeps_ite (fun _ => ?_) fun _ => ?_
    · exact keeps_bind (uvmdealloc_stops _ _ _) fun _ => keeps_pure _
    · refine keeps_bind (memset_stops _ _) fun _ => keeps_bind (mappages_stops _ _ _ _ _) fun ok =>
        keeps_ite (fun _ => ?_) fun _ => ih _
      exact keeps_bind (kfree_stops _) fun _ => keeps_bind (uvmdealloc_stops _ _ _) fun _ =>
        keeps_pure _

theorem uvmalloc_stops (pagetable oldsz newsz : ℕ) (xperm : BitVec 32) :
    Stops VmPanic (uvmalloc pagetable oldsz newsz xperm) := by
  unfold uvmalloc
  exact keeps_unless fun _ => allocLoop_stops _ _ _ _ _ _

theorem freeEntries_stops {recur : ℕ → Prog Mem Unit} (hr : ∀ pa, Stops VmPanic (recur pa))
    (pagetable fuel i : ℕ) : Stops VmPanic (freeEntries recur pagetable fuel i) := by
  induction fuel generalizing i with
  | zero => exact keeps_pure _
  | succ fuel ih =>
    rw [freeEntries]
    refine keeps_bind keeps_get fun m => keeps_ite (fun _ => ?_) fun _ => keeps_ite (fun _ => ?_)
      fun _ => ih _
    · exact keeps_bind (hr _) fun _ => keeps_bind (stops_modify _) fun _ => ih _
    · exact keeps_bind (vmPanic (by simp [vmMessages])) fun _ => ih _

theorem freewalk_stops (depth pagetable : ℕ) : Stops VmPanic (freewalk depth pagetable) := by
  induction depth generalizing pagetable with
  | zero => exact vmPanic (by simp [vmMessages])
  | succ depth ih => exact keeps_bind (freeEntries_stops ih _ _ _) fun _ => kfree_stops _

theorem uvmfree_stops (pagetable sz : ℕ) : Stops VmPanic (uvmfree pagetable sz) := by
  unfold uvmfree
  exact keeps_ite (fun _ => keeps_bind (uvmunmap_stops _ _ _ _) fun _ => freewalk_stops _ _)
    fun _ => freewalk_stops _ _

theorem copyLoop_stops (old new sz fuel i : ℕ) : Stops VmPanic (copyLoop old new sz fuel i) := by
  induction fuel generalizing i with
  | zero => exact keeps_pure _
  | succ fuel ih =>
    rw [copyLoop]
    refine keeps_when fun _ => keeps_bind (walk_stops _ _ _) fun r => ?_
    cases r with
    | none => exact vmPanic (by simp [vmMessages])
    | some ti =>
      refine keeps_bind keeps_get fun m => keeps_ite
        (fun _ => keeps_bind (vmPanic (by simp [vmMessages])) fun _ => ?_) fun _ => ?_
      all_goals
        refine keeps_bind kalloc_stops fun mem => keeps_unless fun _ =>
          keeps_bind (stops_modify _) fun _ => keeps_bind (mappages_stops _ _ _ _ _) fun ok =>
          keeps_ite (fun _ => ?_) fun _ => ih _
        exact keeps_bind (kfree_stops _) fun _ => keeps_pure _

theorem uvmcopy_stops (old new sz : ℕ) : Stops VmPanic (uvmcopy old new sz) := by
  unfold uvmcopy
  refine keeps_bind (copyLoop_stops _ _ _ _ _) fun r => ?_
  cases r with
  | none => exact keeps_pure _
  | some i => exact keeps_bind (uvmunmap_stops _ _ _ _) fun _ => keeps_pure _

theorem uvmclear_stops (pagetable va : ℕ) : Stops VmPanic (uvmclear pagetable va) := by
  unfold uvmclear
  refine keeps_bind (walk_stops _ _ _) fun r => ?_
  cases r with
  | none => exact vmPanic (by simp [vmMessages])
  | some ti => exact stops_modify _

end Xv6
