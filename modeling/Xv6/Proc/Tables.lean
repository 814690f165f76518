import Xv6.Proc.Memory

/-!
# Page tables of processes

A process gets a page table with the trampoline and the trapframe when it is allocated, and gives all of
its memory back when it is freed.  Both keep `KInv`.

Main results: `wp_procPagetable`, `wp_procFreepagetable`, `wp_freeproc_mem`, `wp_allocproc_mem`.
-/

namespace Xv6

open Stateful Kernel Function List

attribute [local irreducible] wp

variable {s t : Kernel} {m : Mem} {S S' : KMap} {q : Tbl} {p : Fin NPROC} {A : Stop → Mem → Prop}

/-! ### Making a table -/

/-- A table with the trampoline, the trapframe and no user memory has been made. -/
structure NewTable (S S' : KMap) (q : Tbl) (r : ℕ) : Prop where
  root : S'.root = update S.root q (some r)
  box : S'.box = S.box
  other : ∀ q', q' ≠ q → S'.cell q' = S.cell q'
  ok : TableOk S' q 0 fun _ => False

theorem drop_eq (hroot : ∀ q', q' ≠ q → S'.root q' = S.root q') (hq : S.root q = none)
    (hcell : ∀ q', q' ≠ q → S'.cell q' = S.cell q') (hnone : ∀ v, S.cell q v = none)
    (hbox : S'.box = S.box) : S'.drop q = S := by
  unfold MemMap.drop
  ext1
  · funext q'
    by_cases h : q' = q
    · rw [h, hq]
      exact update_self _ _ _
    · rw [← hroot q' h]
      exact update_of_ne h _ _
  · funext q'
    by_cases h : q' = q
    · rw [h]
      exact (update_self _ _ _).trans (funext fun v => (hnone v).symm)
    · rw [← hcell q' h]
      exact update_of_ne h _ _
  · exact hbox

theorem vpn_TRAMPOLINE : vpn TRAMPOLINE = TRAMPVPN := by decide

theorem vpn_TRAPFRAME : vpn TRAPFRAME = FRAMEVPN := by decide

/-- The entry `proc_pagetable` makes for the trampoline or the trapframe. -/
theorem reserved_entry (a : ℕ) {perm : BitVec 32} (hperm : perm = 0xA#32 ∨ perm = 0x6#32) :
    hasFlag (pa2pte a ||| perm.signExtend 64 ||| PTEV) PTEU = false ∧
      pteFlags (pa2pte a ||| perm.signExtend 64 ||| PTEV) ≠ PTEV := by
  have hlt : (perm.signExtend 64).toNat < 1024 := by
    rcases hperm with rfl | rfl <;> decide
  have hflags := pteFlags_mk a hlt
  constructor
  · rw [← hasFlag_pteFlags (by decide), hflags]
    rcases hperm with rfl | rfl <;> decide
  · rw [hflags]
    rcases hperm with rfl | rfl <;> decide

theorem wp_procPagetable {Q : ℕ → Mem → Prop} (h : Rep m S) (hq : S.root q = none) (trapframe : ℕ)
    (h0 : ∀ m', Rep m' S → Q 0 m')
    (h1 : ∀ r m' S', r ≠ 0 → Rep m' S' → NewTable S S' q r → Q r m') :
    wp (procPagetable trapframe) Q A m := by
  have hcell := h.cell_of_root_none hq
  unfold procPagetable
  rw [wp_bind]
  refine wp_uvmcreate h hq (fun m₁ hm₁ => ?_) fun r m₁ hr hm₁ => ?_
  · rw [if_pos rfl]
    exact (wp_pure _).2 (h0 m₁ hm₁)
  rw [if_neg hr, wp_bind, wp_get, wp_bind]
  have hroot : (S.setRoot q (some r)).root q = some r := update_self _ _ _
  have hother : ∀ q', q' ≠ q → (S.setRoot q (some r)).root q' = S.root q' :=
    fun q' hq' => update_of_ne hq' _ _
  have hnone : ∀ v, (S.setRoot q (some r)).cell q v = none := hcell
  have hfree : ∀ (S' : KMap) (m' : Mem), Rep m' S' → S'.root = (S.setRoot q (some r)).root →
      S'.box = S.box → (∀ q', q' ≠ q → S'.cell q' = S.cell q') → (∀ v, S'.cell q v = none) →
      wp (uvmfree r 0 >>= fun _ => pure 0) Q A m' := by
    intro S' m' hm' hr' hb' ho' hn'
    rw [wp_bind]
    refine wp_uvmfree hm' (by rwa [hr']) (Nat.zero_le _) (fun v hv => ?_) (fun v _ => hn' v)
      fun m'' hm'' => (wp_pure _).2 (h0 m'' ?_)
    · exact absurd hv (Nat.not_lt_zero _)
    · rwa [drop_eq (fun q' hq' => by rw [hr', hother q' hq']) hq ho' hcell hb'] at hm''
  obtain ⟨huser, hleaf⟩ := reserved_entry m₁.tramp (Or.inl rfl)
  refine wp_mapReserved hm₁ hroot (by decide) (by decide) (vpn_TRAMPOLINE ▸ Or.inl rfl) (hnone _) huser
    (fun m₂ hm₂ => ?_) fun m₂ hm₂ => ?_
  swap
  · rw [if_pos (by decide)]
    exact hfree _ m₂ hm₂ rfl rfl (fun _ _ => rfl) hnone
  rw [if_neg (by decide), wp_bind]
  obtain ⟨huser', hleaf'⟩ := reserved_entry trapframe (Or.inr rfl)
  refine wp_mapReserved hm₂ hroot (by decide) (by decide) (vpn_TRAPFRAME ▸ Or.inr rfl) ?_ huser'
    (fun m₃ hm₃ => ?_) fun m₃ hm₃ => ?_
  · rw [MemMap.cell_setCell, if_neg fun hc => absurd hc.2 (by decide)]
    exact hnone _
  · rw [if_neg (by decide)]
    refine (wp_pure _).2 (h1 r m₃ _ hr hm₃ ⟨rfl, rfl, fun q' hq' => ?_, ?_, ?_, ?_, ?_⟩)
    · funext v
      rw [MemMap.cell_setCell, if_neg fun hc => hq' hc.1, MemMap.cell_setCell, if_neg fun hc => hq' hc.1]
      rfl
    · exact Nat.zero_le _
    · exact fun v hv => absurd hv (Nat.not_lt_zero _)
    · intro v pte pg _ hv hc
      rw [MemMap.cell_setCell, MemMap.cell_setCell, vpn_TRAMPOLINE, vpn_TRAPFRAME,
        if_neg fun hc => hv (Or.inr hc.2), if_neg fun hc => hv (Or.inl hc.2), hnone v] at hc
      cases hc
    · rintro v (rfl | rfl)
      · refine ⟨_, Words.fill 0, ?_, hleaf⟩
        rw [MemMap.cell_setCell, vpn_TRAPFRAME, if_neg fun hc => absurd hc.2 (by decide),
          MemMap.cell_setCell, vpn_TRAMPOLINE,
          if_pos ⟨rfl, rfl⟩]
      · refine ⟨_, Words.fill 0, ?_, hleaf'⟩
        rw [MemMap.cell_setCell, vpn_TRAPFRAME, if_pos ⟨rfl, rfl⟩]
  · rw [if_pos (by decide), wp_bind]
    refine wp_unmapReserved hm₃ hroot (by decide) (by decide) (vpn_TRAMPOLINE ▸ Or.inl rfl)
      (x := (_, Words.fill 0)) ?_ hleaf fun m₄ hm₄ => hfree _ m₄ hm₄ rfl rfl (fun q' hq' => ?_) fun v => ?_
    · rw [MemMap.cell_setCell, if_pos ⟨rfl, rfl⟩]
    · funext v
      rw [MemMap.cell_setCell, if_neg fun hc => hq' hc.1, MemMap.cell_setCell, if_neg fun hc => hq' hc.1]
      rfl
    · rw [MemMap.cell_setCell, MemMap.cell_setCell]
      split_ifs
      · rfl
      · exact hnone v

/-! ### Freeing a table -/

theorem drop_setCell (S : KMap) (q : Tbl) (v : Vpn) (x : Option (BitVec 64 × Page)) :
    (S.setCell q v x).drop q = S.drop q := by
  unfold MemMap.drop MemMap.setCell
  dsimp only
  rw [update_idem]

/-- **`proc_freepagetable`** gives back a table that maps nothing above its heap. -/
theorem wp_procFreepagetable {Q : Unit → Kernel → Prop} {A : Stop → Kernel → Prop}
    {pt sz : ℕ} (h : Rep s.mem S)
    (hr : S.root q = some pt) (ht : TableOk S q sz fun _ => False)
    (hQ : ∀ m', Rep m' (S.drop q) →
      Q () { s with mem := m', freed := s.freed ++ [⟨s.mem, pt, sz⟩] }) :
    wp (procFreepagetable pt sz) Q A s := by
  obtain ⟨pte, pg, hc, hleaf⟩ := ht.kernel TRAMPVPN (Or.inl rfl)
  obtain ⟨pte', pg', hc', hleaf'⟩ := ht.kernel FRAMEVPN (Or.inr rfl)
  unfold procFreepagetable onMem
  rw [wp_bind, wp_modify, wp_zoom, wp_bind]
  refine wp_unmapReserved h hr (by decide) (by decide) (vpn_TRAMPOLINE ▸ Or.inl rfl)
    (vpn_TRAMPOLINE ▸ hc) hleaf fun m₁ hm₁ => ?_
  rw [wp_bind]
  refine wp_unmapReserved (x := (pte', pg')) hm₁ hr (by decide) (by decide)
    (vpn_TRAPFRAME ▸ Or.inr rfl) ?_ hleaf' fun m₂ hm₂ => ?_
  · rwa [MemMap.cell_setCell, if_neg fun hc => absurd hc.2 (by decide), vpn_TRAPFRAME]
  rw [vpn_TRAMPOLINE, vpn_TRAPFRAME] at hm₂
  have hcell : ∀ v, ((S.setCell q TRAMPVPN none).setCell q FRAMEVPN none).cell q v =
      if Reserved v then none else S.cell q v := by
    intro v
    rw [MemMap.cell_setCell, MemMap.cell_setCell]
    unfold Reserved
    by_cases h1 : v = FRAMEVPN
    · simp [h1]
    · by_cases h2 : v = TRAMPVPN
      · simp [h2]
      · simp [h1, h2]
  have hsmall := ht.small
  rw [pageAddr_TRAPFRAME] at hsmall
  refine wp_uvmfree hm₂ hr ht.small (fun v hv => ?_) (fun v hv => ?_) fun m₃ hm₃ => ?_
  · obtain ⟨x, y, h1, h2⟩ := ht.heap v hv
    refine ⟨x, y, ?_, h2⟩
    unfold pages at hv
    rw [hcell, if_neg (not_reserved_of_lt (by omega)), h1]
  · rw [hcell]
    split_ifs with hres
    · rfl
    · exact ht.cell_none hv hres
  · rw [drop_setCell, drop_setCell] at hm₃
    exact hQ m₃ hm₃

/-! ### Freeing a process -/

theorem KInv.changeFrame (h : KInv s S) {m : Mem} {a : ℕ} {x : Option (ℕ × Page)}
    (hrep : Rep m (S.setBox (.frame p) x)) (hx : x.map Prod.fst = ptr a)
    (hunused : (s.proc p).state = .unused → a = 0) (hlive : (s.proc p).state = .runnable → a ≠ 0) :
    KInv ({ s with mem := m }.updProc p fun pr => { pr with trapframe := a }) (S.setBox (.frame p) x) := by
  have hp := h.proc p
  refine h.change p hrep ?_ (fun r hr => by rw [proc_updProc_of_ne _ hr]) (fun _ _ => rfl)
    (fun _ _ => rfl) (fun k hk => by rw [MemMap.box_setBox_of_ne S hk]) rfl
  rw [proc_updProc_self]
  exact ⟨hp.root, by rw [MemMap.box_setBox_self, hx], fun hne => (hp.space hne).of_eq rfl, hp.empty,
    hp.idle, fun hc => ⟨(hp.unused hc).1, hunused hc⟩, fun hc => ⟨(hp.live hc).1, hlive hc⟩⟩

/-- The page table of a process that does not run is given up. -/
theorem KInv.dropTable (h : KInv s S)
    (htf : (s.proc p).trapframe = 0) (hrep : Rep t.mem (S.drop (some p)))
    (hproc : t.proc = update s.proc p { s.proc p with
      pagetable := 0, sz := 0, pid := 0, parent := none, killed := false, xstate := 0, state := .unused })
    (hfile : t.file = s.file) :
    KInv t (S.drop (some p)) := by
  have hp := h.proc p
  refine h.change p hrep ?_ (fun r hr => by rw [hproc, update_of_ne hr])
    (fun r hr => update_of_ne hr _ _) (fun r hr => update_of_ne hr _ _) (fun _ _ => rfl)
    hfile
  rw [hproc, update_self]
  exact ⟨update_self _ _ _, hp.frame, fun hc => absurd rfl hc, fun _ => rfl, hp.idle,
    fun _ => ⟨rfl, htf⟩, fun hc => by cases hc⟩

/-- **Freeing a process.** -/
theorem wp_freeproc_mem (h : KInv s S) (hst : (s.proc p).state ≠ .runnable) :
    wp (freeproc p) (fun _ t => KOk t) noVmPanic s := by
  have hrest : ∀ s₁ S₁, KInv s₁ S₁ → (s₁.proc p).state ≠ .runnable → (s₁.proc p).trapframe = 0 →
      (s₁.proc p).pagetable = (s.proc p).pagetable → (s₁.proc p).sz = (s.proc p).sz →
      wp (if (s.proc p).pagetable ≠ 0 then do
          procFreepagetable (s.proc p).pagetable (s.proc p).sz
          Prog.modify fun s => s.updProc p fun pr =>
            { pr with pagetable := 0, sz := 0, pid := 0, parent := none, killed := false, xstate := 0
                      state := .unused }
        else Prog.modify fun s => s.updProc p fun pr =>
            { pr with pagetable := 0, sz := 0, pid := 0, parent := none, killed := false, xstate := 0
                      state := .unused }) (fun _ t => KOk t) noVmPanic s₁ := by
    intro s₁ S₁ h₁ hst₁ htf₁ hpt₁ hsz₁
    have hp₁ := h₁.proc p
    split_ifs with hpt
    · have hr : S₁.root (some p) = some (s.proc p).pagetable := by
        rw [hp₁.root, hpt₁, ptr_of_ne hpt]
      have hbare := hp₁.space (by rwa [hpt₁])
      rw [hsz₁] at hbare
      rw [wp_bind]
      refine wp_procFreepagetable h₁.rep hr hbare fun m' hm' => (wp_modify _).2 ⟨S₁.drop (some p), ?_⟩
      exact h₁.dropTable htf₁ hm' rfl rfl
    · rw [wp_modify]
      have hnone : S₁.root (some p) = none := by
        rw [hp₁.root, hpt₁, not_not.1 hpt]
        rfl
      have hdrop : S₁.drop (some p) = S₁ := drop_eq (fun _ _ => rfl) hnone (fun _ _ => rfl)
        (h₁.rep.cell_of_root_none hnone) rfl
      exact ⟨S₁.drop (some p), h₁.dropTable htf₁ (by rw [hdrop]; exact h₁.rep) rfl rfl⟩
  unfold freeproc
  rw [wp_bind, wp_get]
  dsimp only
  by_cases htf : (s.proc p).trapframe ≠ 0
  · obtain ⟨pg, hk⟩ := h.frame_box htf
    rw [if_pos htf, wp_bind]
    unfold onMem
    rw [wp_zoom]
    refine wp_kfree (h.rep.unbox hk) fun m' hm' => ?_
    rw [wp_bind, wp_modify]
    have h₁ := h.changeFrame hm' rfl (fun _ => rfl) fun hc => absurd hc hst
    refine hrest _ _ h₁ ?_ ?_ ?_ ?_ <;> rw [proc_updProc_self]
    exact hst
  · have hbox : (S.box (.frame p)) = none := by
      have := (h.proc p).frame
      rw [not_not.1 htf] at this
      exact Option.map_eq_none_iff.1 this
    have hS : S.setBox (.frame p) none = S := by
      unfold MemMap.setBox
      rw [← hbox, update_eq_self]
    rw [if_neg htf, wp_bind, wp_modify]
    have h₁ := h.changeFrame (m := s.mem) (x := none) (by rw [hS]; exact h.rep) rfl (fun _ => rfl)
      fun hc => absurd hc hst
    refine hrest _ _ h₁ ?_ ?_ ?_ ?_ <;> rw [proc_updProc_self]
    exact hst

/-! ### A new process -/

/-- A process has been allocated: it has a trapframe and a table without user memory. -/
structure Born (s t : Kernel) (S : KMap) (np : Fin NPROC) : Prop where
  unused : (s.proc np).state = .unused
  others : ∀ r, r ≠ np → t.proc r = s.proc r
  state : (t.proc np).state = .used
  pagetable : (t.proc np).pagetable ≠ 0
  trapframe : (t.proc np).trapframe ≠ 0
  bare : TableOk S (some np) 0 fun _ => False

theorem KInv.setTable (h : KInv s S) (hst : (s.proc p).state = .used) (hsz : (s.proc p).sz = 0) {r : ℕ}
    {m : Mem} (hr : r ≠ 0) (hrep : Rep m S') (hnew : NewTable S S' (some p) r) :
    KInv ({ s with mem := m }.updProc p fun pr => { pr with pagetable := r }) S' := by
  have hp := h.proc p
  refine h.change p hrep ?_ (fun r hr => by rw [proc_updProc_of_ne _ hr])
    (fun q hq => by rw [hnew.root, update_of_ne hq]) hnew.other
    (fun k _ => by rw [hnew.box]) rfl
  rw [proc_updProc_self]
  refine ⟨?_, ?_, fun _ => ?_, fun hc => absurd hc hr, hp.idle, fun hc => ?_, fun hc => ?_⟩
  · rw [hnew.root, update_self]
    exact (ptr_of_ne hr).symm
  · rw [hnew.box]
    exact hp.frame
  · show TableOk S' (some p) (s.proc p).sz _
    rw [hsz]
    exact hnew.ok
  · exact absurd (hst.symm.trans hc) (by simp)
  · exact absurd (hst.symm.trans hc) (by simp)

/-- What `allocproc` returns. -/
def Allocated (s : Kernel) (r : Option (Fin NPROC)) (t : Kernel) : Prop :=
  r.elim (KOk t) fun np => ∃ S', KInv t S' ∧ Born s t S' np

/-- **`allocproc`.** -/
theorem wp_allocproc_mem (h : KInv s S) : wp allocproc (Allocated s) noVmPanic s := by
  unfold allocproc
  rw [wp_bind, wp_get]
  cases hfind : (List.finRange NPROC).find? fun p => decide ((s.proc p).state = .unused) with
  | none => exact (wp_pure _).2 ⟨S, h⟩
  | some p =>
    have hun : (s.proc p).state = .unused := by simpa using find?_some hfind
    have hp := h.proc p
    obtain ⟨hpt, htf⟩ := hp.unused hun
    have hsz := hp.empty hpt
    have hfree : ∀ t S', KInv t S' → (t.proc p).state = .used → wp (do
        freeproc p
        return (none : Option (Fin NPROC))) (Allocated s) noVmPanic t := by
      intro t S' ht hst
      exact wp_seq (wp_freeproc_mem ht (by rw [hst]; simp)) fun _ u hu => (wp_pure _).2 hu
    dsimp only
    rw [wp_bind, wp_modify, wp_bind, wp_modify]
    set s₁ := ({ s with nextpid := s.nextpid + 1 } : Kernel).updProc p fun pr =>
      { pr with pid := s.nextpid, state := .used, vmaTop := MAXVA - 2 * PGSIZE
                vma := fun i => { pr.vma i with valid := false, refcnt := 0 } } with hs₁
    have hself : s₁.proc p = { s.proc p with
        pid := s.nextpid, state := .used, vmaTop := MAXVA - 2 * PGSIZE
        vma := fun i => { (s.proc p).vma i with valid := false, refcnt := 0 } } := proc_updProc_self _ _ _
    have hother : ∀ r, r ≠ p → s₁.proc r = s.proc r := fun r hr => proc_updProc_of_ne _ hr _
    have h₁ : KInv s₁ S := by
      refine h.change p h.rep ?_ (fun r hr => by rw [hother r hr]) (fun _ _ => rfl) (fun _ _ => rfl)
        (fun _ _ => rfl) rfl
      rw [hself]
      exact ⟨hp.root, hp.frame, fun hc => absurd hpt hc, fun _ => hsz, fun _ => rfl,
        fun hc => absurd hc (by simp), fun hc => absurd hc (by simp)⟩
    clear_value s₁
    have hst₁ : (s₁.proc p).state = .used := by rw [hself]
    rw [wp_bind]
    unfold onMem
    rw [wp_zoom]
    refine wp_kalloc h₁.rep (fun _ => ?_) fun a m₁ hold _ => ?_
    · rw [wp_bind, wp_modify, if_pos rfl]
      refine hfree _ S (h₁.of_memory (memory_updProc ?_)) ?_
      · unfold Proc.memory
        rw [show (s₁.proc p).trapframe = 0 by rw [hself]; exact htf]
      · rwa [proc_updProc_self]
    · have ha := hold.ne_zero
      have h₂ := h₁.changeFrame (hold.box (.frame p)) (ptr_of_ne ha).symm
        (fun hc => absurd (hst₁.symm.trans hc) (by simp)) fun _ => ha
      rw [wp_bind, wp_modify, if_neg ha, wp_bind, wp_zoom]
      set s₂ := ({ s₁ with mem := m₁ } : Kernel).updProc p fun pr => { pr with trapframe := a } with hs₂
      have hself₂ : s₂.proc p = { s₁.proc p with trapframe := a } := proc_updProc_self _ _ _
      have hother₂ : ∀ r, r ≠ p → s₂.proc r = s.proc r :=
        fun r hr => (proc_updProc_of_ne _ hr _).trans (hother r hr)
      have hst₂ : (s₂.proc p).state = .used := by rwa [hself₂]
      have hnone : (S.setBox (.frame p) (some (a, m₁.page a))).root (some p) = none := by
        show S.root (some p) = none
        rw [hp.root, hpt]
        rfl
      refine wp_procPagetable h₂.rep hnone a (fun m₂ hm₂ => ?_) fun r m₂ S' hr hm₂ hnew => ?_
      · rw [wp_bind, wp_modify, if_pos rfl]
        have h₃ : KInv { s₂ with mem := m₂ } _ := h₂.onMem p hm₂ rfl (fun _ => rfl) (fun _ _ => rfl)
          (h₂.proc p).space
        refine hfree _ _ (h₃.of_memory (memory_updProc ?_)) ?_
        · unfold Proc.memory
          rw [show (s₂.proc p).pagetable = 0 by rw [hself₂, hself]; exact hpt]
        · rwa [proc_updProc_self]
      · rw [wp_bind, wp_modify, if_neg hr]
        refine (wp_pure _).2 ⟨S', h₂.setTable hst₂ (by rwa [hself₂, hself]) hr hm₂ hnew, hun,
          fun r hr => ?_, ?_, ?_, ?_,
          hnew.ok⟩
        · rw [proc_updProc_of_ne _ hr]
          exact hother₂ r hr
        all_goals rw [proc_updProc_self]
        · exact hst₂
        · exact hr
        · show (s₂.proc p).trapframe ≠ 0
          rwa [hself₂]

end Xv6
