import Xv6.Proc.Files
import Xv6.Proc.Layout

/-!
# The lifetime of a mapped region

A region is made by `mmap`.  Its pages are loaded by faults and removed by `munmap`; the region should
be given up, with its reference to the file, by the call that completes the removal.  `sys_munmap`
gives it up in one case only: the page at the given address is not loaded and the region's counter,
which the faults count up, is not 1 (`Kernel.Releases`).

Main results: `region_lifetime`, and the run `loadedPage`, after which a removed region is still valid.
-/

namespace Xv6

open Stateful Function List

-- unfolding would run the programs and count with 64-bit numbers
attribute [local irreducible] wp add64 sub64

/-- A load of a byte of a region, or a removal of a part of it. -/
def Vma.On (v : Vma) : Sys → Prop
  | .load va => va ∈ v.range
  | .munmap addr len => addr ∈ v.range ∧ 0 ≤ len.toInt ∧ addr + len.toNat ≤ v.bound
  | _ => False

theorem Vma.on_congr {v w : Vma} (hr : v.range = w.range) (hb : v.bound = w.bound) (c : Sys) :
    v.On c ↔ w.On c := by
  cases c with
  | load va =>
    unfold Vma.On
    rw [hr]
  | munmap addr len =>
    unfold Vma.On
    rw [hr, hb]
  | _ => exact Iff.rfl

/-- The calls have removed every byte of a region. -/
def Vma.Covered (v : Vma) (es : List Sys) : Prop :=
  ∀ a ∈ v.range, ∃ addr len, Sys.munmap addr len ∈ es ∧ addr ≤ a ∧ a < addr + len.toNat

namespace Kernel

variable {s : Kernel} {p : Fin NPROC} {i : Fin VMAMAX} {f : Fin NFILE}

/-- `munmap` gives up a region. -/
def Releases (p : Fin NPROC) (i : Fin VMAMAX) (s : Kernel) : Sys → Prop
  | .munmap addr _ => findVma (s.proc p) addr = some i ∧
      walkaddr s.mem (s.proc p).pagetable addr = 0 ∧ sub64 ((s.proc p).vma i).refcnt 1 ≠ 0
  | _ => False

/-- What a region is, without its counter. -/
def region (p : Fin NPROC) (i : Fin VMAMAX) (s : Kernel) : ProcState × Bool × ℕ × BitVec 32 ×
    Option (Fin NFILE) :=
  ((s.proc p).state, ((s.proc p).vma i).valid, ((s.proc p).vma i).addr, ((s.proc p).vma i).len,
    ((s.proc p).vma i).f)

instance : View (region p i) where
  same := fun {s t} h => by
    have hproc : s.proc = t.proc := congrArg Prod.fst h
    unfold region
    rw [hproc]

/-- The program leaves a region alone. -/
abbrev Steady {α : Type} (p : Fin NPROC) (i : Fin VMAMAX) (x : Prog Kernel α) : Prop :=
  Keeps (region p i) anyStop x

theorem steady {α : Type} {x : Prog Kernel α} (p : Fin NPROC) (i : Fin VMAMAX)
    (h : Keeps (region p i) RefSafe x) : Steady p i x := h.mono fun _ _ => trivial

theorem region_of_spaces {t : Kernel} (h : t.spaces = s.spaces) : region p i t = region p i s := by
  have hp := congrFun h p
  have hvma : (t.proc p).vma i = (s.proc p).vma i :=
    congrArg (fun x : ProcState × Space => x.2.vma i) hp
  unfold region
  rw [hvma, show (t.proc p).state = (s.proc p).state from congrArg Prod.fst hp]

/-- Another region changes, or this one in its counter. -/
theorem region_updVma {j : Fin VMAMAX} {g : Vma → Vma}
    (h : j = i → (g ((s.proc p).vma i)).valid = ((s.proc p).vma i).valid ∧
      (g ((s.proc p).vma i)).addr = ((s.proc p).vma i).addr ∧
      (g ((s.proc p).vma i)).len = ((s.proc p).vma i).len ∧ (g ((s.proc p).vma i)).f =
      ((s.proc p).vma i).f) :
    region p i (s.updVma p j g) = region p i s := by
  have hself : (s.updVma p j g).proc p =
      { s.proc p with vma := update (s.proc p).vma j (g ((s.proc p).vma j)) } :=
    update_self ..
  unfold region
  rw [hself]
  dsimp only
  by_cases hji : j = i
  · obtain ⟨h1, h2, h3, h4⟩ := h hji
    rw [hji, update_self, h1, h2, h3, h4]
  · rw [update_of_ne (Ne.symm hji)]

/-- A fault in a valid region loads a page and does not touch the regions but for a counter. -/
theorem region_loadFault {va : ℕ} (hv : ((s.proc p).vma i).valid = true)
    (hva : va ∈ ((s.proc p).vma i).range) :
    wp (loadFault p va) (fun _ t => region p i t = region p i s) (fun _ _ => True) s := by
  unfold loadFault
  rw [wp_bind, wp_get]
  dsimp only
  cases hj : findVma (s.proc p) va with
  | none =>
    have := find?_eq_none.1 hj i (mem_finRange i)
    simp only [decide_eq_true_eq, not_and] at this
    exact absurd hv (this hva.1 hva.2)
  | some j =>
    refine (steady p i (quiet_onMem kalloc_stops)).wp_seq_any fun mem s₁ h1 => ?_
    refine (steady p i (quiet_onMem (memset_stops _ _))).wp_seq_any fun _ s₂ h2 => ?_
    refine (steady p i (quiet_onMem (mappages_stops _ _ _ _ _))).wp_seq_any fun ok s₃ h3 => ?_
    split_ifs with hok
    · rw [wp_bind, wp_panic]
      trivial
    · rw [wp_bind, wp_modify]
      have h4 := (region_updVma (s := s₃) (i := i) (p := p) (j := j) (g := fun v =>
        { v with refcnt := add64 v.refcnt 1 }) fun _ => ⟨rfl, rfl, rfl, rfl⟩).trans (h3.trans (h2.trans h1))
      cases ((s.proc p).vma j).f with
      | none => exact (wp_panic _).2 trivial
      | some f =>
        refine (steady p i (keeps_bind (quiet_lockFile f) fun e => keeps_bind (quiet_readPage _ _ _ _)
          fun _ => keeps_pure _)).wp_of (fun _ t ht => ?_) fun _ _ _ => trivial
        exact ht.trans h4

/-- **`munmap`** gives up the region, or leaves it and its file alone. -/
theorem region_sysMunmap (h : s.RefInv) (hv : ((s.proc p).vma i).valid = true)
    (hf : ((s.proc p).vma i).f = some f) (addr : ℕ) (len : BitVec 32) :
    wp (sysMunmap p addr len) (fun _ t =>
      (Releases p i s (.munmap addr len) → ((t.proc p).vma i).valid = false ∧
        (t.file f).ref = (s.file f).ref - 1) ∧
      (¬ Releases p i s (.munmap addr len) → region p i t = region p i s)) (fun _ _ => True) s := by
  unfold sysMunmap
  rw [wp_bind, wp_get]
  dsimp only
  cases hj : findVma (s.proc p) addr with
  | none => exact (wp_panic _).2 trivial
  | some j =>
    dsimp only
    by_cases hw : walkaddr s.mem (s.proc p).pagetable addr ≠ 0
    · -- the page is loaded: it is written back and unmapped
      rw [if_pos hw]
      have hno : ¬ Releases p i s (.munmap addr len) := fun hr => hw hr.2.1
      have hun : ∀ n, Steady p i (onMem (uvmunmap (s.proc p).pagetable addr n true)) := fun n =>
        steady p i (quiet_onMem (uvmunmap_stops _ _ _ _))
      refine Keeps.wp_of (v := region p i) (S := anyStop) (keeps_ite (fun _ => ?_) fun _ => hun _)
        (fun _ t ht => ⟨fun hr => absurd hr hno, fun _ => ht⟩) fun _ _ _ => trivial
      cases ((s.proc p).vma j).f with
      | none => exact keeps_bind (keeps_panic trivial) fun _ => hun _
      | some f => exact keeps_bind (steady p i (quiet_filewrite _ _ _ _)) fun _ => hun _
    · have hw0 : walkaddr s.mem (s.proc p).pagetable addr = 0 := not_not.1 hw
      rw [if_neg hw, wp_bind, wp_modify]
      have h1 := region_updVma (s := s) (p := p) (i := i) (j := j) (g := fun v =>
        { v with refcnt := sub64 ((s.proc p).vma j).refcnt 1 }) fun _ => ⟨rfl, rfl, rfl, rfl⟩
      have hrefs := wp_ok ((quiet_refcnt p j fun _ => sub64 ((s.proc p).vma j).refcnt 1).wp_keeps s) rfl
      dsimp only at hrefs
      generalize (s.updVma p j fun v => { v with refcnt := sub64 ((s.proc p).vma j).refcnt 1 }) = s₁
        at h1 hrefs ⊢
      by_cases hr : sub64 ((s.proc p).vma j).refcnt 1 ≠ 0
      · rw [if_pos hr]
        cases hg : ((s.proc p).vma j).f with
        | none => exact (wp_panic _).2 trivial
        | some g =>
          have hx : s₁.refs.hold (p, .inr j) = some g := by
            rw [hrefs]
            exact hold_vma (findVma_valid hj) hg
          have hok : s₁.refs.Ok s.refs.live := by
            rwa [hrefs]
          dsimp only
          rw [wp_bind]
          refine wp_mono (wp_and (wp_fileclose (f := g) (hok.counted.pos hx))
            ((spares_fileclose g).wp_keeps s₁)) (fun _ t ht => ?_) fun _ _ _ => trivial
          rw [wp_modify]
          by_cases hji : j = i
          · subst hji
            have hgf : g = f := Option.some.inj (hg.symm.trans hf)
            subst hgf
            have hrel : Releases p j s (.munmap addr len) := ⟨hj, hw0, hr⟩
            refine ⟨fun _ => ⟨?_, ?_⟩, fun hn => absurd hrel hn⟩
            · show ((update t.proc p _ p).vma j).valid = false
              rw [update_self]
              show (update (t.proc p).vma j _ j).valid = false
              rw [update_self]
            · show t.refs.ref g = s.refs.ref g - 1
              rw [ht.1, Refs.count_ref_self, hrefs]
          · refine ⟨fun hrel => absurd (Option.some.inj (hj.symm.trans hrel.1)) hji, fun _ => ?_⟩
            rw [region_updVma fun he => absurd he hji, region_of_spaces ht.2, h1]
      · rw [if_neg hr]
        refine (wp_pure _).2 ⟨fun hrel => ?_, fun _ => h1⟩
        rw [← Option.some.inj (hj.symm.trans hrel.1)] at hrel
        exact absurd hrel.2.2 hr

theorem region_call (h : s.RefInv) (hp : (s.proc p).state = .runnable)
    (hv : ((s.proc p).vma i).valid = true) (hf : ((s.proc p).vma i).f = some f) {c : Sys}
    (hc : ((s.proc p).vma i).On c) :
    wp (call p c) (fun _ t => t.RefInv ∧
      (Releases p i s c → ((t.proc p).vma i).valid = false ∧ (t.file f).ref = (s.file f).ref - 1) ∧
      (¬ Releases p i s c → region p i t = region p i s)) (fun _ _ => True) s := by
  have hinv := wp_call h hp c
  cases c with
  | load va =>
    have hload : wp (userLoad p va) (fun _ t => region p i t = region p i s) (fun _ _ => True) s := by
      unfold userLoad
      rw [wp_bind, wp_get]
      split_ifs
      · exact (wp_pure _).2 rfl
      · exact region_loadFault hv hc
    refine wp_mono (wp_and hinv hload) (fun _ t ht => ?_) fun _ _ _ => trivial
    exact ⟨ht.1, fun hr => hr.elim, fun _ => ht.2⟩
  | munmap addr len =>
    exact wp_mono (wp_and hinv (region_sysMunmap h hv hf addr len)) (fun _ t ht => ht) fun _ _ _ => trivial
  | _ => exact hc.elim

/-- What a region is, read back from its description. -/
theorem region_eq {t : Kernel} (h : region p i t = region p i s) :
    (t.proc p).state = (s.proc p).state ∧ ((t.proc p).vma i).valid = ((s.proc p).vma i).valid ∧
      ((t.proc p).vma i).range = ((s.proc p).vma i).range ∧
      ((t.proc p).vma i).bound = ((s.proc p).vma i).bound ∧
      ((t.proc p).vma i).f = ((s.proc p).vma i).f := by
  unfold region at h
  simp only [Prod.mk.injEq] at h
  obtain ⟨h1, h2, h3, h4, h5⟩ := h
  have hbound : ((t.proc p).vma i).bound = ((s.proc p).vma i).bound := by
    unfold Vma.bound
    rw [h3, h4]
  refine ⟨h1, h2, ?_, hbound, h5⟩
  unfold Vma.range
  rw [h3, hbound]

end Kernel

/-- The states a kernel can be in between system calls. -/
def Kernel.Reached (s : Kernel) : Prop :=
  ∃ mem fs initcode es, Kernel.run initcode es (Kernel.initial mem fs) = .ok () s

/-- The region lives as it should along a list of calls on it: all of them return; while bytes of it are
left to remove it is valid and holds its file; and the call that removes the last ones makes it invalid
and takes one reference from the file. -/
def Kernel.Lives (p : Fin NPROC) (i : Fin VMAMAX) (f : Fin NFILE) (v : Vma) (s : Kernel)
    (es : List Sys) : Prop :=
  (∃ t, runs (Kernel.call p) es s = .ok () t) ∧
  ∀ es₁ c es₂ u t, es = es₁ ++ c :: es₂ → runs (Kernel.call p) es₁ s = .ok () u →
    Kernel.call p c u = .ok () t → ¬ v.Covered es₁ →
    (¬ v.Covered (es₁ ++ [c]) → ((t.proc p).vma i).valid = true ∧ ((t.proc p).vma i).f = some f ∧
      0 < (t.file f).ref) ∧
    (v.Covered (es₁ ++ [c]) → ((t.proc p).vma i).valid = false ∧ (t.file f).ref + 1 = (u.file f).ref)

/-- The calls return, and the one that removes the last bytes, and no earlier one, finds its page not
loaded and the counter of the region other than 1. -/
def Kernel.ReleasedAtEnd (p : Fin NPROC) (i : Fin VMAMAX) (v : Vma) (s : Kernel) (es : List Sys) : Prop :=
  (∃ t, runs (Kernel.call p) es s = .ok () t) ∧
  ∀ es₁ c es₂ u, es = es₁ ++ c :: es₂ → runs (Kernel.call p) es₁ s = .ok () u → ¬ v.Covered es₁ →
    (Kernel.Releases p i u c ↔ v.Covered (es₁ ++ [c]))

theorem Vma.covered_mono {v : Vma} {es es' : List Sys} (h : ∀ c ∈ es, c ∈ es') (hc : v.Covered es) :
    v.Covered es' := by
  intro a ha
  obtain ⟨addr, len, hmem, hle, hlt⟩ := hc a ha
  exact ⟨addr, len, h _ hmem, hle, hlt⟩

namespace Kernel

variable {p : Fin NPROC} {i : Fin VMAMAX} {f : Fin NFILE} {s : Kernel}

/-- The region is as it was at the start. -/
def Intact (p : Fin NPROC) (i : Fin VMAMAX) (s u : Kernel) : Prop :=
  u.RefInv ∧ region p i u = region p i s

/-- If no call gives up the region before it is removed, it is as it was until then. -/
theorem intact_of_uncovered (hs : s.RefInv) (hp : (s.proc p).state = .runnable)
    (hv : ((s.proc p).vma i).valid = true) (hf : ((s.proc p).vma i).f = some f) {es : List Sys}
    (hes : ∀ c ∈ es, ((s.proc p).vma i).On c)
    (hend : ∀ es₁ c es₂ u t, es = es₁ ++ c :: es₂ → runs (call p) es₁ s = .ok () u →
      call p c u = .ok () t → ¬ ((s.proc p).vma i).Covered es₁ → Intact p i s u →
      Releases p i u c → ((s.proc p).vma i).Covered (es₁ ++ [c])) :
    ∀ es₁ es₂ u, es = es₁ ++ es₂ → runs (call p) es₁ s = .ok () u →
      ¬ ((s.proc p).vma i).Covered es₁ → Intact p i s u := by
  intro es₁
  -- on the calls made so far, the last one split off
  induction es₁ using List.reverseRecOn with
  | nil =>
    rintro es₂ u - hu -
    cases hu
    exact ⟨hs, rfl⟩
  | append_singleton es₁ c ih =>
    intro es₂ u hsplit hu hcov
    obtain ⟨u', hu', hc⟩ := runs_append_eq_ok hu
    obtain ⟨⟨⟩, t, hc, ht⟩ := Prog.bind_eq_ok.1 (show (call p c >>= fun _ => pure ()) u' = .ok () u from hc)
    cases ht
    have hcov' : ¬ ((s.proc p).vma i).Covered es₁ := fun h =>
      hcov (Vma.covered_mono (fun _ hm => mem_append_left _ hm) h)
    have hsplit' : es = es₁ ++ c :: es₂ := by simpa using hsplit
    have hu'' := ih (c :: es₂) u' hsplit' hu' hcov'
    obtain ⟨hst, hval, hrange, hbound, hfile⟩ := region_eq hu''.2
    have hon := (Vma.on_congr hrange hbound c).2 (hes c (by rw [hsplit']; simp))
    have hstep := wp_ok (region_call hu''.1 (hst.trans hp) (hval.trans hv) (hfile.trans hf) hon) hc
    refine ⟨hstep.1, (hstep.2.2 fun hr => ?_).trans hu''.2⟩
    exact hcov (hend es₁ c es₂ u' u hsplit' hu' hc hcov' hu'' hr)

theorem Intact.pos {u : Kernel} (h : Intact p i s u) (hv : ((s.proc p).vma i).valid = true)
    (hf : ((s.proc p).vma i).f = some f) : 0 < (u.file f).ref := by
  obtain ⟨-, hval, -, -, hfile⟩ := region_eq h.2
  exact h.1.counted.pos (hold_vma (hval.trans hv) (hfile.trans hf))

end Kernel

open Kernel in
/-- **The lifetime of a mapped region.**  For every valid region of a process in a reachable state and
every list of page loads and removals of parts of it, the region stays valid with its file until it is
removed and is given up by the call that completes the removal, if and only if that call, and no earlier
one, finds its page not loaded and the counter of the region other than 1. -/
theorem region_lifetime {s : Kernel} {p : Fin NPROC} {i : Fin VMAMAX} {f : Fin NFILE} (hr : s.Reached)
    (hrun : (s.proc p).state = .runnable) (hv : ((s.proc p).vma i).valid = true)
    (hf : ((s.proc p).vma i).f = some f) {es : List Sys} (hes : ∀ c ∈ es, ((s.proc p).vma i).On c) :
    Lives p i f ((s.proc p).vma i) s es ↔ ReleasedAtEnd p i ((s.proc p).vma i) s es := by
  obtain ⟨mem, fs, initcode, es₀, hrun₀⟩ := hr
  have hs := wp_ok (wp_run_refs mem fs initcode es₀) hrun₀
  -- one call on the region as it was
  have hstep : ∀ es₁ c es₂ u t, es = es₁ ++ c :: es₂ → call p c u = .ok () t → Intact p i s u →
      t.RefInv ∧ (Releases p i u c → ((t.proc p).vma i).valid = false ∧
        (t.file f).ref = (u.file f).ref - 1) ∧ (¬ Releases p i u c → region p i t = region p i u) := by
    intro es₁ c es₂ u t hsplit hc hu
    obtain ⟨hst, hval, hrange, hbound, hfile⟩ := region_eq hu.2
    have hon := (Vma.on_congr hrange hbound c).2 (hes c (by rw [hsplit]; simp))
    have hcall := wp_ok (region_call hu.1 (hst.trans hrun) (hval.trans hv) (hfile.trans hf) hon) hc
    exact hcall
  constructor
  · rintro ⟨⟨t', ht'⟩, hlive⟩
    have hintact := intact_of_uncovered hs hrun hv hf hes fun es₁ c es₂ u t hsplit hu hc hcov hi hrel => by
      by_contra hn
      have hvalid := ((hlive es₁ c es₂ u t hsplit hu hc hcov).1 hn).1
      simp [((hstep es₁ c es₂ u t hsplit hc hi).2.1 hrel).1] at hvalid
    refine ⟨⟨t', ht'⟩, fun es₁ c es₂ u hsplit hu hcov => ?_⟩
    have hi := hintact es₁ (c :: es₂) u hsplit hu hcov
    -- the run returns, so this call does
    obtain ⟨t, hc⟩ : ∃ t, call p c u = .ok () t := by
      rw [hsplit] at ht'
      obtain ⟨u', hu', hrest⟩ := runs_append_eq_ok ht'
      rw [hu] at hu'
      cases hu'
      obtain ⟨⟨⟩, t, hc, -⟩ := Prog.bind_eq_ok.1 (show (call p c >>= fun _ => runs (call p) es₂) u =
        _ from hrest)
      exact ⟨t, hc⟩
    have hst := hstep es₁ c es₂ u t hsplit hc hi
    have hl := hlive es₁ c es₂ u t hsplit hu hc hcov
    constructor
    · intro hrel
      by_contra hn
      have hvalid := (hl.1 hn).1
      simp [(hst.2.1 hrel).1] at hvalid
    · intro hcov'
      by_contra hn
      have hvalid := (region_eq ((hst.2.2 hn).trans hi.2)).2.1.trans hv
      rw [(hl.2 hcov').1] at hvalid
      cases hvalid
  · rintro ⟨hret, hrel⟩
    have hintact := intact_of_uncovered hs hrun hv hf hes fun es₁ c es₂ u t hsplit hu _ hcov _ hr =>
      (hrel es₁ c es₂ u hsplit hu hcov).1 hr
    refine ⟨hret, fun es₁ c es₂ u t hsplit hu hc hcov => ?_⟩
    have hi := hintact es₁ (c :: es₂) u hsplit hu hcov
    have hst := hstep es₁ c es₂ u t hsplit hc hi
    constructor
    · intro hn
      have hno : ¬ Releases p i u c := fun hr => hn ((hrel es₁ c es₂ u hsplit hu hcov).1 hr)
      have ht : Intact p i s t := ⟨hst.1, (hst.2.2 hno).trans hi.2⟩
      obtain ⟨-, hval, -, -, hfile⟩ := region_eq ht.2
      exact ⟨hval.trans hv, hfile.trans hf, ht.pos hv hf⟩
    · intro hcov'
      obtain ⟨hval, href⟩ := hst.2.1 ((hrel es₁ c es₂ u hsplit hu hcov).2 hcov')
      have hpos := hi.pos hv hf
      exact ⟨hval, by omega⟩

/-- The first process has a file open and mapped, one page long. -/
def mappedFile : List (Fin NPROC × Sys) := [(0, .open (some 2) 0), (0, .mmap 4096 1 2 0 0)]

def mapped : Kernel := (runs Kernel.exec mappedFile booted).state

/-- The region is removed before any page of it was loaded. -/
def untouched : List Sys := [.munmap (TRAPFRAME - 4096) 4096]

/-- The page is loaded, then the region is removed. -/
def loadedPage : List Sys := [.load (TRAPFRAME - 4096), .munmap (TRAPFRAME - 4096) 4096]

-- evaluated together: the mapping, its removal untouched, and its removal after a load
theorem mapped_evaluated :
    (runs Kernel.exec mappedFile booted).stopped = none ∧
    (((mapped.proc 0).vma 0).addr = TRAPFRAME - 4096 ∧ ((mapped.proc 0).vma 0).bound = TRAPFRAME) ∧
    ((mapped.proc 0).state = .runnable ∧ ((mapped.proc 0).vma 0).valid = true ∧
      ((mapped.proc 0).vma 0).f = some 0) ∧
    ((runs (Kernel.call 0) untouched mapped).stopped = none ∧
      Kernel.findVma (mapped.proc 0) (TRAPFRAME - 4096) = some 0 ∧
      walkaddr mapped.mem (mapped.proc 0).pagetable (TRAPFRAME - 4096) = 0 ∧
      sub64 ((mapped.proc 0).vma 0).refcnt 1 ≠ 0) ∧
    (runs (Kernel.call 0) loadedPage mapped).stopped = none ∧
    (((runs (Kernel.call 0) loadedPage mapped).state.proc 0).vma 0).valid = true ∧
    ((runs (Kernel.call 0) loadedPage mapped).state.file 0).ref = (mapped.file 0).ref := by
  decide +kernel

theorem runs_mapped : runs Kernel.exec mappedFile booted = .ok () mapped :=
  Res.eq_ok_of_stopped mapped_evaluated.1

theorem reached_mapped : mapped.Reached :=
  ⟨bootMem, bootFs, [], mappedFile, (Prog.bind_of_ok userinit_booted _).trans runs_mapped⟩

theorem range_mapped : ((mapped.proc 0).vma 0).addr = TRAPFRAME - 4096 ∧
    ((mapped.proc 0).vma 0).bound = TRAPFRAME :=
  mapped_evaluated.2.1

theorem covered_mapped (es : List Sys) (h : .munmap (TRAPFRAME - 4096) 4096 ∈ es) :
    ((mapped.proc 0).vma 0).Covered es := by
  rintro a ⟨hlo, hhi⟩
  rw [range_mapped.1] at hlo
  rw [range_mapped.2] at hhi
  exact ⟨_, _, h, hlo, by show a < TRAPFRAME - 4096 + 4096; omega⟩

theorem not_covered_mapped (es : List Sys) (h : ∀ addr len, .munmap addr len ∉ es) :
    ¬ ((mapped.proc 0).vma 0).Covered es := by
  intro hc
  obtain ⟨addr, len, hmem, -⟩ := hc (TRAPFRAME - 4096)
    ⟨by rw [range_mapped.1], by rw [range_mapped.2]; decide⟩
  exact h addr len hmem

theorem untouched_return : ∃ t, runs (Kernel.call 0) untouched mapped = .ok () t :=
  ⟨_, Res.eq_ok_of_stopped mapped_evaluated.2.2.2.1.1⟩

theorem untouched_releases : Kernel.Releases 0 0 mapped (.munmap (TRAPFRAME - 4096) 4096) :=
  mapped_evaluated.2.2.2.1.2

theorem untouched_releasedAtEnd :
    Kernel.ReleasedAtEnd 0 0 ((mapped.proc 0).vma 0) mapped untouched := by
  refine ⟨untouched_return, fun es₁ c es₂ u hsplit hu _ => ?_⟩
  cases es₁ with
  | nil =>
    cases hu
    obtain ⟨rfl, -⟩ := List.cons.inj hsplit
    exact ⟨fun _ => covered_mapped _ (by simp), fun _ => untouched_releases⟩
  | cons c' es₁ =>
    obtain ⟨-, htail⟩ := List.cons.inj hsplit
    exact absurd htail (by simp)

theorem region_lifetime_untouched :
    Kernel.Lives 0 0 0 ((mapped.proc 0).vma 0) mapped untouched := by
  obtain ⟨hrun, hvalid, hf⟩ := mapped_evaluated.2.2.1
  refine (region_lifetime reached_mapped hrun hvalid hf fun c hc => ?_).2 untouched_releasedAtEnd
  obtain rfl : c = .munmap (TRAPFRAME - 4096) 4096 := by simpa [untouched] using hc
  refine ⟨⟨?_, ?_⟩, ?_, ?_⟩
  · rw [range_mapped.1]
  · rw [range_mapped.2]
    decide
  · decide
  · rw [range_mapped.2]
    decide

/-- **A region whose pages were loaded is never given up by `munmap`.** -/
theorem loaded_region_stays : mapped.Reached ∧ (∀ c ∈ loadedPage, ((mapped.proc 0).vma 0).On c) ∧
    ((mapped.proc 0).vma 0).Covered loadedPage ∧
    (∃ t, runs (Kernel.call 0) loadedPage mapped = .ok () t ∧ ((t.proc 0).vma 0).valid = true ∧
      (t.file 0).ref = (mapped.file 0).ref) ∧
    ¬ Kernel.Lives 0 0 0 ((mapped.proc 0).vma 0) mapped loadedPage := by
  have hlo := range_mapped.1
  have hhi := range_mapped.2
  obtain ⟨hret, hvalid, href⟩ := mapped_evaluated.2.2.2.2
  refine ⟨reached_mapped, ?_, covered_mapped _ (by simp [loadedPage]),
    ⟨_, Res.eq_ok_of_stopped hret, hvalid, href⟩, fun hlive => ?_⟩
  · intro c hc
    simp only [loadedPage, mem_cons, not_mem_nil, or_false] at hc
    rcases hc with rfl | rfl
    · exact ⟨by rw [hlo], by rw [hhi]; decide⟩
    · exact ⟨⟨by rw [hlo], by rw [hhi]; decide⟩, by decide, by rw [hhi]; decide⟩
  · -- the last call completes the removal and leaves the region valid
    have hrun : runs (Kernel.call 0) ([.load (TRAPFRAME - 4096)] ++ [.munmap (TRAPFRAME - 4096) 4096])
        mapped = .ok () (runs (Kernel.call 0) loadedPage mapped).state := Res.eq_ok_of_stopped hret
    obtain ⟨u, hu, hrest⟩ := runs_append_eq_ok hrun
    obtain ⟨⟨⟩, t, hc, ht⟩ := Prog.bind_eq_ok.1 (show (Kernel.call 0 (.munmap (TRAPFRAME - 4096) 4096) >>=
      fun _ => pure ()) u = _ from hrest)
    cases ht
    have hl := hlive.2 [.load (TRAPFRAME - 4096)] _ [] u _ rfl hu hc (not_covered_mapped _ (by simp))
    have hinv := (hl.2 (covered_mapped _ (by simp))).1
    simp [hvalid] at hinv

end Xv6
