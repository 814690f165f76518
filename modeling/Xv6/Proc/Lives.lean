import Xv6.Proc.Tables

/-!
# The life of a process

`fork` gives the child a copy of the heap, `exit` closes what the process has open, `wait` frees the
memory that is left, and `sbrk` changes the size of the heap.  All of them keep `KInv`.

Main results: `wp_fork_mem`, `wp_exit_mem`, `wp_wait_mem`, `wp_growproc_mem`.
-/

namespace Xv6

open Stateful Kernel Function

attribute [local irreducible] wp

variable {α : Type} {s t : Kernel} {S S' : KMap} {p np : Fin NPROC} {pt sz : ℕ} {args : ℕ → Option ℕ}

namespace Kernel

theorem still_forkOfile (p np : Fin NPROC) (fd : Fin NOFILE) : Still (forkOfile p np fd) := by
  unfold forkOfile
  refine keeps_bind keeps_get fun s => ?_
  cases (s.proc p).ofile fd with
  | none => exact keeps_pure ()
  | some f => exact keeps_bind (still_filedup f) fun _ => still_setOfile np fd (some f)

end Kernel

/-! ### `fork` -/

theorem TableOk.copied {q q' : Tbl} {sz : ℕ} {region : Vpn → Prop} (h : TableOk S q sz region)
    (h' : TableOk S q' 0 fun _ => False) (hc : Copied S S' q q' 0 (pages sz)) :
    TableOk S' q' sz fun _ => False := by
  have hsmall := h.small
  rw [pageAddr_TRAPFRAME] at hsmall
  constructor
  · exact h.small
  · intro v hv
    obtain ⟨pte, pg, pte', h1, h2, h3⟩ := hc.copy v (Nat.zero_le _) hv
    obtain ⟨pte₀, pg₀, h4, h5⟩ := h.heap v hv
    rw [h1] at h4
    cases h4
    exact ⟨pte', pg, h2, by rwa [h3]⟩
  · intro v pte pg hv hres hcell
    rw [hc.frame q' v fun hc => absurd hc.2.2 (not_lt.2 hv)] at hcell
    exact absurd (h'.above v pte pg (Nat.zero_le _) hres hcell).2 id
  · intro v hv
    rw [hc.frame q' v fun hc => ?_]
    · exact h'.kernel v hv
    · have h1 := hc.2.2
      unfold pages at h1
      exact not_reserved_of_lt (by omega) hv

theorem Loading.start (h : Loading s S pt sz args) (hpt : (s.proc p).pagetable ≠ 0)
    (htf : (s.proc p).trapframe ≠ 0)
    {g : Proc → Proc} (hg : (g (s.proc p)).memory = ({ s.proc p with state := .runnable } : Proc).memory) :
    Loading (s.updProc p g) S pt sz args := by
  have hp := h.proc p
  obtain ⟨e1, e2, e3, e4, e5⟩ := Proc.memory_eq hg
  refine h.change p h.rep ?_ (fun r hr => by rw [proc_updProc_of_ne _ hr]) (fun _ _ => rfl)
    (fun _ _ => rfl) (fun _ _ => rfl) rfl
  rw [proc_updProc_self]
  constructor
  · rw [e3]
    exact hp.root
  · rw [e4]
    exact hp.frame
  · rw [e2]
    exact fun _ => hp.space hpt
  · rw [e3]
    exact fun hc => absurd hc hpt
  · rw [e5]
    exact hp.idle
  · rw [e1]
    exact fun hc => absurd hc (by simp)
  · rw [e3, e4]
    exact fun _ => ⟨hpt, htf⟩

/-- `fork` after the heap has been copied. -/
theorem wp_fork_rest (h : KInv s S) (hpt : (s.proc np).pagetable ≠ 0) {tf : ℕ}
    (htf : (s.proc np).trapframe = tf) (h0 : tf ≠ 0) (cwd : Option (Fin NINODE)) :
    wp (do
      Prog.forRange 0 VMAMAX fun i => forkVma p np (Fin.ofNat VMAMAX i)
      setReg tf TFA0 0
      Prog.forRange 0 NOFILE fun fd => forkOfile p np (Fin.ofNat NOFILE fd)
      match cwd with
      | none => Prog.panic "kerneltrap"
      | some e =>
        onFs (Fs.idup e)
        Prog.modify fun s => s.updProc np fun c =>
          { c with cwd := some e, parent := some p, state := .runnable }
        return some np) (fun _ t => KOk t) noVmPanic s := by
  -- no region is copied, for there is none
  refine wp_seq (wp_forRange (fun _ u => u = s) rfl fun i u _ _ hu => ?_) fun _ u hu => ?_
  · subst hu
    unfold forkVma
    rw [wp_bind, wp_get]
    dsimp only
    rw [(h.proc p).idle]
    exact (wp_pure _).2 rfl
  subst hu
  rw [wp_bind]
  refine h.setReg htf h0 _ _ fun m S₁ h₁ => ?_
  refine (keeps_forRange (fun fd => still_forkOfile p np _) _ _).wp_seq fun _ s₂ h2 => ?_
  cases cwd with
  | none => exact (wp_panic _).2 (by simp [NoVmPanic])
  | some e =>
    refine (still_onFs (x := Fs.idup e) (keeps_modify fun _ => rfl)).wp_seq fun _ s₃ h3 => ?_
    rw [wp_bind, wp_modify, wp_pure]
    obtain ⟨-, -, e3, e4, -⟩ := Proc.memory_eq (congrArg (fun x => x.2.1 np) (h3.trans h2))
    exact ⟨S₁, ((h₁.of_memory h2).of_memory h3).start (by rwa [e3])
      (by rw [e4]; exact (htf.trans_ne h0)) rfl⟩

theorem wp_fork_mem (h : KInv s S) (hp : (s.proc p).state = .runnable) :
    wp (fork p) (fun _ t => KOk t) noVmPanic s := by
  unfold fork
  refine wp_seq (wp_allocproc_mem h) fun r s₁ h1 => ?_
  cases r with
  | none => exact (wp_pure _).2 h1
  | some np =>
    obtain ⟨S₁, h₁, hborn⟩ := h1
    have hne : p ≠ np := by
      rintro rfl
      exact absurd (hp.symm.trans hborn.unused) (by simp)
    have hparent : s₁.proc p = s.proc p := hborn.others p hne
    have hpp := h₁.proc p
    rw [hparent] at hpp
    have hptp := (hpp.live hp).1
    have hspace := hpp.space hptp
    have hroot : S₁.root (some p) = some (s.proc p).pagetable := by rw [hpp.root, ptr_of_ne hptp]
    have hroot' := h₁.root_of_ne hborn.pagetable
    have hsmall := hspace.small
    rw [pageAddr_TRAPFRAME] at hsmall
    rw [wp_bind, wp_get, wp_bind]
    unfold onMem
    rw [wp_zoom, hparent]
    refine wp_uvmcopy h₁.rep hroot hroot' (by simpa using hne) h₁.hand hspace.small hspace.heap ?_
      (fun m₂ S₂ hm₂ hcopy => ?_) fun m₂ hm₂ => ?_
    · intro v hv
      unfold pages at hv
      exact hborn.bare.cell_none (Nat.zero_le _) (not_reserved_of_lt (by omega))
    swap
    · -- out of memory: the child is freed
      rw [if_pos (by decide), wp_bind]
      have h₂ : KInv { s₁ with mem := m₂ } S₁ := h₁.onMem np hm₂ rfl (fun _ => rfl) (fun _ _ => rfl)
        (h₁.proc np).space
      refine wp_post (wp_freeproc_mem h₂ ?_) fun _ t ht => (wp_pure _).2 ht
      rw [hborn.state]
      simp
    rw [if_neg (by decide), wp_bind, wp_modify, wp_bind, wp_zoom, wp_modify, wp_bind, wp_modify]
    -- the heap has been copied
    have hbare := hspace.copied hborn.bare hcopy
    have h₂ : KInv ({ s₁ with mem := m₂ }.updProc np fun c => { c with sz := (s.proc p).sz }) S₂ := by
      have hnp := h₁.proc np
      refine h₁.change np hm₂ ?_ (fun r hr => by rw [proc_updProc_of_ne _ hr])
        (fun _ _ => by rw [hcopy.root]) (fun r hr => ?_) (fun _ _ => by rw [hcopy.box]) rfl
      · rw [proc_updProc_self]
        exact hnp.remap (by rw [hcopy.root]) (by rw [hcopy.box]) rfl rfl rfl (fun _ => hbare)
          (fun hc => absurd hc hborn.pagetable) rfl
      · funext v
        exact hcopy.frame r v fun hc => hr hc.1
    obtain ⟨pg, hk⟩ := h₂.frame_box (p := np) (by rw [proc_updProc_self]; exact hborn.trapframe)
    rw [proc_updProc_self] at hk
    have h₃ := h₂.setBox hk fun i =>
      if i.val < TFWORDS then m₂.page (s.proc p).trapframe i else m₂.page (s₁.proc np).trapframe i
    refine wp_fork_rest (h₃.of_memory (memory_updProc (p := np) rfl)) ?_ ?_ hborn.trapframe (s.proc p).cwd
    · unfold updProc
      dsimp only
      rw [update_self, update_self]
      exact hborn.pagetable
    · unfold updProc
      dsimp only
      rw [update_self, update_self]

/-! ### `exit` -/

theorem wp_closeOfile_mem (h : KOk s) (fd : Fin NOFILE) :
    wp (closeOfile p fd) (fun _ t => KOk t) noVmPanic s := by
  unfold closeOfile
  rw [wp_bind, wp_get]
  cases (s.proc p).ofile fd with
  | none => exact (wp_pure _).2 h
  | some f => exact wp_seq (wp_fileclose_mem h f) fun _ t ht => ht.still (still_setOfile p fd none)

/-- **`exit`.** -/
theorem wp_exit_mem (h : KOk s) (status : BitVec 32) : wp (exit p status)
    (fun _ t => KOk t) noVmPanic s := by
  unfold exit
  refine wp_seq (wp_forRange (fun _ t => KOk t) h fun n t _ _ ht => ?_) fun _ s₁ h1 => ?_
  · -- there is no region to release
    obtain ⟨S', hS'⟩ := ht
    unfold releaseVma
    rw [wp_bind, wp_get]
    dsimp only
    rw [(hS'.proc p).idle]
    exact (wp_pure _).2 ⟨S', hS'⟩
  by_cases hinit : p = initproc
  · rw [if_pos hinit, wp_bind, wp_panic]
    simp [NoVmPanic]
  rw [if_neg hinit]
  refine wp_seq (wp_forRange (fun _ t => KOk t) h1 fun n t _ _ ht => wp_closeOfile_mem ht _)
    fun _ s₂ h2 => ?_
  rw [wp_bind, wp_get]
  cases (s₂.proc p).cwd with
  | none => exact (wp_panic _).2 (by simp [NoVmPanic])
  | some e =>
    refine wp_seq (h2.still (still_onFs (Fs.iput_stops e))) fun _ s₃ h3 => ?_
    obtain ⟨S₃, hS₃⟩ := h3
    rw [wp_bind, wp_modify, wp_modify]
    set s₄ : Kernel := { s₃ with
      proc := fun q => if (s₃.proc q).parent = some p then { s₃.proc q with parent := some initproc }
        else s₃.proc q } with hs₄
    have hproc : ∀ q, (s₄.proc q).memory = (s₃.proc q).memory := by
      intro q
      rw [hs₄]
      dsimp only
      split_ifs <;> rfl
    have h₄ : KInv s₄ S₃ := hS₃.of_memory (by unfold Kernel.memory; rw [funext hproc])
    have hpr := h₄.proc p
    refine ⟨S₃, h₄.change p h₄.rep ?_ (fun r hr => by rw [proc_updProc_of_ne _ hr]) (fun _ _ => rfl)
      (fun _ _ => rfl) (fun _ _ => rfl) rfl⟩
    rw [proc_updProc_self]
    exact ⟨hpr.root, hpr.frame, hpr.space, hpr.empty, hpr.idle,
      fun hc => absurd hc (by simp), fun hc => absurd hc (by simp)⟩

/-! ### `wait` and `sbrk` -/

theorem wp_wait_mem (h : KOk s) (hp : (s.proc p).state = .runnable) (addr : ℕ) :
    wp (wait p addr) (fun _ t => KOk t) noVmPanic s := by
  obtain ⟨S, hS⟩ := h
  unfold wait
  rw [wp_bind, wp_get]
  cases hfind : (List.finRange NPROC).find? fun q =>
      decide ((s.proc q).parent = some p ∧ (s.proc q).state = .zombie) with
  | some q =>
    have hz : (s.proc q).state = .zombie := by
      have := List.find?_some hfind
      simp only [decide_eq_true_eq] at this
      exact this.2
    have hst : (s.proc q).state ≠ .runnable := by
      rw [hz]
      simp
    dsimp only
    by_cases ha : addr ≠ 0
    · obtain ⟨S', hS', -⟩ := hS.copyout (hS.root_some hp) addr (leBytes 4 (s.proc q).xstate.toNat)
      rw [if_pos ha, wp_bind, wp_modify]
      split_ifs
      · exact (wp_pure _).2 ⟨S', hS'⟩
      · exact wp_seq (wp_freeproc_mem hS' hst) fun _ t ht => (wp_pure _).2 ht
    · rw [if_neg ha]
      exact wp_seq (wp_freeproc_mem hS hst) fun _ t ht => (wp_pure _).2 ht
  | none =>
    dsimp only
    split_ifs
    · exact wp_sleep.2 (by simp [NoVmPanic])
    · exact (wp_pure _).2 ⟨S, hS⟩

theorem TableOk.grown {q : Tbl} {old new : ℕ} {region : Vpn → Prop} {perm : BitVec 64}
    (h : TableOk S q old region) (hg : Grown S S' q (pages old) (pages new) perm) (hle : old ≤ new)
    (hnew : new ≤ TRAPFRAME) (hperm : perm ||| PTEV ≠ PTEV) : TableOk S' q new region := by
  have hpages : pages old ≤ pages new := Nat.div_le_div_right (by omega)
  have htop := hnew
  rw [pageAddr_TRAPFRAME] at htop
  constructor
  · exact hnew
  · intro v hv
    by_cases hlow : v.val < pages old
    · rw [hg.frame q v fun hc => absurd hc.2.1 (not_le.2 hlow)]
      exact h.heap v hlow
    · obtain ⟨pte, h1, h2⟩ := hg.new v (not_lt.1 hlow) hv
      exact ⟨pte, _, h1, by rwa [h2]⟩
  · intro v pte pg hv hres hc
    rw [hg.frame q v fun hc => absurd hc.2.2 (not_lt.2 hv)] at hc
    exact h.above v pte pg (hpages.trans hv) hres hc
  · intro v hv
    rw [hg.frame q v fun hc => not_reserved_of_lt (by have := hc.2.2; unfold pages at this; omega) hv]
    exact h.kernel v hv

/-- A heap that could be allocated is below the trapframe. -/
theorem TableOk.grown_small {q : Tbl} {old new : ℕ} {region : Vpn → Prop} {perm : BitVec 64} {m : Mem}
    (h : TableOk S q old region) (hrep : Rep m S') (hg : Grown S S' q (pages old) (pages new) perm) :
    new ≤ TRAPFRAME := by
  have hfull : ∀ v : Vpn, v.val < pages new → S'.cell q v ≠ none := by
    intro v hv
    by_cases hlow : v.val < pages old
    · rw [hg.frame q v fun hc => absurd hc.2.1 (not_le.2 hlow)]
      exact h.cell_ne_none hlow
    · obtain ⟨pte, hc, -⟩ := hg.new v (not_lt.1 hlow) hv
      rw [hc]
      simp
  have hbound := hrep.heap_bound hfull
  rw [pageAddr_TRAPFRAME]
  have hphys : PHYSTOP / 4096 ≤ 2 ^ 26 - 2 := by decide
  unfold pages at hbound
  omega

theorem TableOk.shrunk {q : Tbl} {old new : ℕ} {region : Vpn → Prop} (h : TableOk S q old region) :
    TableOk (S.clearRange q (pages new) (pages old)) q (if old ≤ new then old else new) region := by
  have hsmall := h.small
  have htop := hsmall
  rw [pageAddr_TRAPFRAME] at htop
  have hcell : ∀ v, (S.clearRange q (pages new) (pages old)).cell q v =
      if pages new ≤ v.val ∧ v.val < pages old then none else S.cell q v :=
    fun v => if_congr (and_iff_right rfl) rfl rfl
  constructor
  · split_ifs <;> omega
  · intro v hv
    rw [hcell, if_neg]
    · refine h.heap v ?_
      split_ifs at hv with hle
      · exact hv
      · exact lt_of_lt_of_le hv (Nat.div_le_div_right (by omega))
    · rintro ⟨h1, h2⟩
      split_ifs at hv with hle
      · have : pages old ≤ pages new := Nat.div_le_div_right (by omega)
        omega
      · omega
  · intro v pte pg hv hres hc
    rw [hcell] at hc
    split_ifs at hc hv with h1
    · exact h.above v pte pg hv hres hc
    · refine h.above v pte pg ?_ hres hc
      by_contra hlt
      exact h1 ⟨hv, not_le.1 hlt⟩
  · intro v hv
    rw [hcell, if_neg fun hc => not_reserved_of_lt (by have := hc.2; unfold pages at this; omega) hv]
    exact h.kernel v hv

theorem KInv.resize (h : KInv s S) {m : Mem} {sz : ℕ} (hp : (s.proc p).state = .runnable) (hrep : Rep m S')
    (hroot : S'.root = S.root) (hbox : S'.box = S.box) (hcell : ∀ r, r ≠ some p → S'.cell r = S.cell r)
    (hspace : TableOk S' (some p) sz fun _ => False) :
    KInv ({ s with mem := m }.updProc p fun pr => { pr with sz := sz }) S' := by
  have hpr := h.proc p
  refine h.change p hrep ?_ (fun r hr => by rw [proc_updProc_of_ne _ hr]) (fun _ _ => by rw [hroot]) hcell
    (fun _ _ => by rw [hbox]) rfl
  rw [proc_updProc_self]
  exact hpr.remap (by rw [hroot]) (by rw [hbox]) rfl rfl rfl (fun _ => hspace)
    (fun hz => absurd hz (hpr.live hp).1) rfl

theorem wp_growproc_mem (h : KOk s) (hp : (s.proc p).state = .runnable) (n : BitVec 32) :
    wp (growproc p n) (fun _ t => KOk t) noVmPanic s := by
  obtain ⟨S, hS⟩ := h
  have hpr := hS.proc p
  have hspace := hpr.space (hpr.live hp).1
  have hroot := hS.root_some hp
  have hsmall := hspace.small
  rw [pageAddr_TRAPFRAME] at hsmall
  unfold growproc
  rw [wp_bind, wp_get]
  by_cases hpos : 0 < n.toInt
  · rw [if_pos hpos, wp_bind]
    unfold onMem
    rw [wp_zoom]
    have hstay : ∀ m', Rep m' S → KOk { s with mem := m' } := fun m' hm' =>
      ⟨S, hS.onMem p hm' rfl (fun _ => rfl) (fun _ _ => rfl) fun _ => hspace⟩
    refine wp_uvmalloc hS.rep hroot hS.hand (by decide) (by decide) (by omega)
      (fun v hv => hspace.cell_ne_none hv) (fun _ _ _ _ _ => by simp [NoVmPanic]) (fun _ => ?_)
      (fun m' hm' => ?_)
      fun hle m' S' hm' hg => ?_
    · split_ifs
      · exact (wp_pure _).2 (hstay _ hS.rep)
      · rw [wp_bind, wp_modify, wp_pure]
        exact ⟨S, hS.resize hp hS.rep rfl rfl (fun _ _ => rfl) hspace⟩
    · rw [if_pos rfl]
      exact (wp_pure _).2 (hstay m' hm')
    · have hspace' := hspace.grown hg hle (hspace.grown_small hm' hg) (by decide)
      have hcell : ∀ r, r ≠ some p → S'.cell r = S.cell r := fun r hr =>
        funext fun v => hg.frame r v fun hc => hr hc.1
      split_ifs with hz
      · refine (wp_pure _).2 ⟨S', hS.onMem p hm' hg.root (fun _ => by rw [hg.box]) hcell fun _ => ?_⟩
        rwa [show (s.proc p).sz = add64 (s.proc p).sz (sext64 n) by omega]
      · rw [wp_bind, wp_modify, wp_pure]
        exact ⟨S', hS.resize hp hm' hg.root hg.box hcell hspace'⟩
  · rw [if_neg hpos]
    by_cases hneg : n.toInt < 0
    · rw [if_pos hneg, wp_bind]
      unfold onMem
      rw [wp_zoom]
      refine wp_uvmdealloc hS.rep hroot hspace.small ?_ fun m' hm' => ?_
      · intro v _ hv hbad
        obtain ⟨pte, pg, hc, hne⟩ := hspace.heap v hv
        exact absurd (hbad pte pg hc) hne
      · rw [wp_bind, wp_modify, wp_pure]
        refine ⟨_, hS.resize hp hm' rfl rfl (fun r hr => ?_) hspace.shrunk⟩
        funext v
        exact if_neg fun hc => hr hc.1
    · rw [if_neg hneg]
      exact (wp_pure _).2 ⟨S, hS⟩

end Xv6
