import Xv6.Proc.Image

/-!
# Isolation of processes

The whole kernel, from `kinit` on, as long as no file is mapped and no pipe is made: `fork`, `exec`, `exit`,
`wait`, `sbrk`, files and the loads and stores of user code, in any order, with `kalloc` failing anywhere.

* `freerange`, `kinit`: the free list at boot;
* `wp_sysOpen_mem`, `wp_userStore_mem`, `wp_userinit_mem`: the calls that are left;
* `wp_call_mem`, `wp_exec_mem`: **every call keeps `KInv`**, and does not stop in the memory functions;
* `processes_isolated`, `store_private`, `memory_functions_sound`: what follows for whole runs.
-/

namespace Xv6

open Stateful Kernel Function

attribute [local irreducible] wp

variable {α : Type} {s t : Kernel} {m : Mem} {S S' : KMap} {p : Fin NPROC} {A : Stop → Mem → Prop}
  {pt sz : ℕ} {args : ℕ → Option ℕ}

/-! ### Boot -/

/-- The loop of `freerange`. -/
def freerange (paEnd : ℕ) : ℕ → ℕ → Prog Mem Unit
  | 0, _ => pure ()
  | fuel + 1, p =>
    if p + PGSIZE ≤ paEnd then do
      kfree p
      freerange paEnd fuel (p + PGSIZE)
    else
      pure ()

/-- Free the memory between the kernel and the end of the physical memory. -/
def kinit : Prog Mem Unit := do
  let p := pgRoundUp (← Prog.get).kend
  freerange PHYSTOP ((PHYSTOP - p) / PGSIZE) p

/-- The free list has the pages below `p`, each once. -/
def FreeBelow (m : Mem) (p : ℕ) : Prop := m.free.Nodup ∧ ∀ a, a ∈ m.free ↔ PageOk m.kend a ∧ a < p

theorem FreeBelow.all {p : ℕ} (h : FreeBelow m p) (hle : PHYSTOP ≤ p) : FreeBelow m PHYSTOP :=
  ⟨h.1, fun a => (h.2 a).trans ⟨fun ha => ⟨ha.1, ha.1.2.2⟩, fun ha => ⟨ha.1, ha.2.trans_le hle⟩⟩⟩

theorem wp_freerange {fuel p : ℕ} (hal : p % 4096 = 0) (hlo : m.kend ≤ p) (hfree : FreeBelow m p)
    (hfuel : PHYSTOP ≤ p + fuel * 4096) :
    wp (freerange PHYSTOP fuel p) (fun _ m' => m'.kend = m.kend ∧ FreeBelow m' PHYSTOP) A m := by
  have hpg : PGSIZE = 4096 := rfl
  have hphys : PHYSTOP % 4096 = 0 := rfl
  induction fuel generalizing m p with
  | zero => exact (wp_pure _).2 ⟨rfl, hfree.all (by omega)⟩
  | succ fuel ih =>
    rw [freerange]
    by_cases hp : p + PGSIZE ≤ PHYSTOP
    swap
    · rw [if_neg hp, wp_pure]
      exact ⟨rfl, hfree.all (by omega)⟩
    have hal' : p % PGSIZE = 0 := hal
    rw [if_pos hp, wp_bind]
    unfold kfree
    rw [wp_bind, wp_get, if_neg (by omega), wp_set]
    have hnot : p ∉ m.free := fun hin => absurd ((hfree.2 p).1 hin).2 (Nat.lt_irrefl p)
    have hnext : FreeBelow { m.setPage p (update (Words.fill 1) 0 (BitVec.ofNat 64 (linkOf m.free))) with
        free := p :: m.free } (p + PGSIZE) := by
      refine ⟨List.nodup_cons.2 ⟨hnot, hfree.1⟩, fun a => ?_⟩
      rw [List.mem_cons, hfree.2]
      constructor
      · rintro (rfl | ⟨h1, h2⟩)
        · exact ⟨⟨hal, hlo, by omega⟩, by omega⟩
        · exact ⟨h1, by omega⟩
      · rintro ⟨h1, h2⟩
        have ha : a % 4096 = 0 := h1.1
        by_cases hap : a = p
        · exact Or.inl hap
        · exact Or.inr ⟨h1, by omega⟩
    refine ih (m := { m.setPage p (update (Words.fill 1) 0 (BitVec.ofNat 64 (linkOf m.free))) with
      free := p :: m.free }) (by omega) ?_ hnext (by omega)
    show m.kend ≤ _
    omega

theorem wp_kinit (hend : m.kend ≤ PHYSTOP) (hfree : m.free = []) :
    wp kinit (fun _ m' => m'.kend = m.kend ∧ m'.free.Nodup ∧ ∀ a, a ∈ m'.free ↔ PageOk m'.kend a) A m := by
  have hpg : PGSIZE = 4096 := rfl
  have hphys : PHYSTOP = 0x88000000 := rfl
  unfold kinit
  rw [wp_bind, wp_get, pgRoundUp_eq (by omega)]
  dsimp only
  rw [hpg]
  refine wp_post (wp_freerange (by omega) (by omega) ⟨by rw [hfree]; exact List.nodup_nil, fun a => ?_⟩
    (by omega)) fun _ m' hm' => ⟨hm'.1, hm'.2.1, fun a => (hm'.2.2 a).trans ⟨fun h => h.1,
    fun h => ⟨h, h.2.2⟩⟩⟩
  rw [hfree]
  refine ⟨fun h => absurd h List.not_mem_nil, fun ⟨⟨h1, h2, h3⟩, h4⟩ => ?_⟩
  rw [hpg] at h1
  omega

/-- **`kinit` returns, and the free list is the memory**: every page between the kernel and the end,
once. -/
theorem kinit_frees_all (hend : m.kend ≤ PHYSTOP) (hfree : m.free = []) :
    ∃ m', kinit m = .ok () m' ∧ m'.free.Nodup ∧ ∀ a, a ∈ m'.free ↔ PageOk m.kend a := by
  obtain ⟨_, m', hrun, hkend, hnodup, hall⟩ :=
    wp_returns (wp_kinit (A := fun _ _ => False) hend hfree) fun _ _ => id
  exact ⟨m', hrun, hnodup, by rwa [hkend] at hall⟩

theorem kinit_frees_all_boot : ∃ m', kinit { bootMem with free := [] } = .ok () m' ∧ m'.free.Nodup ∧
    ∀ a, a ∈ m'.free ↔ PageOk bootMem.kend a := kinit_frees_all (by decide) rfl

/-! ### Files -/

theorem still_filealloc : Still filealloc := by
  constructor
  intro s
  unfold filealloc
  rw [wp_bind, wp_get]
  cases (List.finRange NFILE).find? fun f => (s.file f).ref = 0 with
  | none => exact (wp_pure _).2 rfl
  | some f =>
    rw [wp_bind, wp_set, wp_pure]
    exact memory_updFile rfl

theorem wp_sysClose_mem (h : KOk s) (fd : Fin NOFILE) : wp (sysClose p fd)
    (fun _ t => KOk t) noVmPanic s := by
  unfold sysClose
  rw [wp_bind, wp_get]
  cases (s.proc p).ofile fd with
  | none => exact (wp_pure _).2 h
  | some f =>
    exact wp_seq (h.still (still_setOfile p fd none)) fun _ t ht => wp_fileclose_mem ht f

theorem wp_openFile_mem (h : KOk s) (f : Fin NFILE) (e : Fin NINODE) (ip : Inode) (omode : BitVec 32) :
    wp (openFile f e ip omode) (fun _ t => KOk t) noVmPanic s := by
  obtain ⟨S, hS⟩ := h
  unfold openFile
  refine wp_seq (Q := fun _ t => KOk t) ((wp_modify _).2 ⟨S, hS.updFile ?_⟩) fun _ t ht => ?_
  · unfold File.isPipe
    dsimp only
    split_ifs <;> simp
  split_ifs
  · exact ht.still (still_onFs (Fs.itrunc_stops e))
  · exact (wp_pure _).2 ht

theorem wp_sysOpen_mem (h : KOk s) (path : Option ℕ) (omode : BitVec 32) :
    wp (sysOpen p path omode) (fun _ t => KOk t) noVmPanic s := by
  unfold sysOpen
  cases path with
  | none => exact (wp_pure _).2 h
  | some inum =>
    refine wp_seq (h.still (still_onFs (Fs.iget_stops inum))) fun e s₁ h₁ => ?_
    refine wp_seq (h₁.still (still_onFs (Fs.ilock_stops e))) fun _ s₂ h₂ => ?_
    rw [wp_bind, wp_get]
    dsimp only
    split_ifs
    · exact h₂.still (still_onFs (Fs.iput_stops e))
    refine wp_seq (h₂.still still_filealloc) fun r s₃ h₃ => ?_
    cases r with
    | none => exact h₃.still (still_onFs (Fs.iput_stops e))
    | some f =>
      refine wp_seq (h₃.still (still_fdalloc p f)) fun r s₄ h₄ => ?_
      cases r with
      | none =>
        exact wp_seq (wp_fileclose_mem h₄ f) fun _ s₅ h₅ => h₅.still (still_onFs (Fs.iput_stops e))
      | some fd => exact wp_openFile_mem h₄ f e _ omode

/-! ### The memory of the user -/

theorem readable_of_userMapped {pt va : ℕ} {fl : BitVec 64} (h : userMapped m pt va fl = true) :
    Readable m pt va := by
  unfold userMapped at h
  split_ifs at h with hva
  unfold Readable pteAt
  cases hl : lookup m pt va with
  | none =>
    rw [hl] at h
    cases h
  | some pte =>
    rw [hl] at h
    simp only [Bool.and_eq_true] at h
    exact ⟨not_le.1 hva, h.1.1, h.1.2⟩

/-- A process that touches memory it does not have is killed. -/
theorem wp_kill_mem (h : KOk s) : wp (do
    Prog.modify fun s => s.updProc p fun pr => { pr with killed := true }
    exit p (-1)) (fun _ t => KOk t) noVmPanic s := by
  obtain ⟨S, hS⟩ := h
  rw [wp_bind, wp_modify]
  exact wp_exit_mem ⟨S, hS.of_memory (memory_updProc rfl)⟩ _

theorem Loading.findVma (h : Loading s S pt sz args) (va : ℕ) : Kernel.findVma (s.proc p) va = none := by
  unfold Kernel.findVma
  refine List.find?_eq_none.2 fun i _ => ?_
  rw [(h.proc p).idle i]
  simp

theorem wp_userLoad_mem (h : KInv s S) (va : ℕ) : wp (userLoad p va) (fun _ t => KOk t) noVmPanic s := by
  unfold userLoad
  rw [wp_bind, wp_get]
  split_ifs
  · exact (wp_pure _).2 ⟨S, h⟩
  unfold loadFault
  rw [wp_bind, wp_get]
  dsimp only
  rw [h.findVma]
  exact wp_kill_mem ⟨S, h⟩

theorem wp_userStore_mem (h : KInv s S) (hp : (s.proc p).state = .runnable) (va : ℕ) (b : Byte) :
    wp (userStore p va b) (fun _ t => KOk t) noVmPanic s := by
  unfold userStore
  rw [wp_bind, wp_get]
  dsimp only
  split_ifs with hmap
  · obtain ⟨x, hx, -⟩ := h.rep.readable_cell (h.root_some hp) (readable_of_userMapped hmap)
    obtain ⟨hres, hwalk, -, -⟩ := h.rep.userPage_page (h.root_some hp) hx
    have hc : S.cell (some p) (vpn va) = some (x.1, x.2) := (userPage_eq_some.1 hx).2.1
    rw [hwalk, wp_modify]
    exact ⟨_, h.rewritten (h.rep.setCell hres hc _) (rewritten_setCell hc _)⟩
  · exact wp_kill_mem ⟨S, h⟩

/-! ### The first process -/

/-- The page of the first process is mapped, or it is lost. -/
theorem wp_uvmfirst_mem {Q : Unit → Mem → Prop} {q : Tbl} {pt : ℕ} (h : Rep m S) (hr : S.root q = some pt)
    (hk : S.box .hand = none) (hnone : S.cell q (vpn 0) = none) (src : List Byte)
    (h1 : ∀ m' S₁ S', Rep m' S' → Grown S S₁ q 0 1 0x1E#64 → Rewritten S₁ S' q → Q () m')
    (h0 : ∀ m' x, Rep m' (S.setBox .hand x) → Q () m') :
    wp (uvmfirst pt src) Q (fun w _ => NoVmPanic w) m := by
  unfold uvmfirst
  split_ifs
  · exact (wp_panic _).2 (by simp [NoVmPanic])
  rw [wp_bind]
  refine wp_kalloc h (fun _ => ?_) fun a m₁ hold _ => ?_
  · unfold memset
    rw [if_pos rfl, wp_bind, wp_panic]
    simp [NoVmPanic]
  rw [wp_bind]
  refine wp_memset hold fun m₂ hold₂ _ hzero => ?_
  have hbox := hold₂.box .hand
  have hv : ¬ Reserved (vpn 0) := not_reserved_of_lt (by decide)
  rw [hzero] at hbox
  rw [wp_bind]
  refine wp_mappages (k := .hand) (q := q) hbox hr (by decide) (by decide) hv
    (MemMap.box_setBox_self _ _ _) (by decide) (fun hne => absurd hnone hne)
    (fun _ m₃ hm₃ => ?_) fun m₃ hm₃ => ?_
  · rw [MemMap.setBox_setBox_none S hk] at hm₃
    set pte := pa2pte a ||| BitVec.signExtend 64 0x1E#32 ||| PTEV with hpte
    have hc : (S.setCell q (vpn 0) (some (pte, Words.fill 0))).cell q (vpn 0) =
      some (pte, Words.fill 0) := by
      rw [MemMap.cell_setCell, if_pos ⟨rfl, rfl⟩]
    obtain ⟨ha, -, hlt⟩ := hold₂.pageOk
    have hphys : PHYSTOP < 2 ^ 56 := by decide
    have hpa : pte2pa pte = a := pte2pa_mk (by omega) ha (by decide)
    rw [wp_modify]
    refine h1 _ _ _ ?_ (Grown.cons (v := vpn 0) (by decide) (by decide) (pteFlags_mk a (by decide))
      (Grown.refl _ _ le_rfl _)) (rewritten_setCell hc ((m₃.page a).blit 0 src))
    have hrep := hm₃.setCell hv hc ((m₃.page a).blit 0 src)
    rwa [hpa] at hrep
  · rw [wp_modify]
    have hrep := hm₃.setBox (MemMap.box_setBox_self S _ _) ((m₃.page a).blit 0 src)
    refine h0 _ (some (a, (m₃.page a).blit 0 src)) ?_
    have hidem : (S.setBox .hand (some (a, Words.fill 0))).setBox .hand (some (a, (m₃.page a).blit 0 src)) =
        S.setBox .hand (some (a, (m₃.page a).blit 0 src)) := by
      unfold MemMap.setBox
      dsimp only
      rw [update_idem]
    rwa [hidem] at hrep

/-- `userinit` after the page has been mapped: it writes to the trapframe. -/
theorem wp_userinit_rest {Q : Unit → Kernel → Prop} {tf : ℕ} {pg : Page} (h : Rep s.mem S)
    (hk : S.box (.frame p) = some (tf, pg))
    (hQ : ∀ m' S' f e, Rep m' S' → S'.root = S.root → S'.cell = S.cell →
      (∀ k, (S'.box k).map Prod.fst = (S.box k).map Prod.fst) →
      Q () (Kernel.updProc { s with mem := m', fs := f } p fun pr =>
        { pr with sz := PGSIZE, cwd := some e, state := .runnable })) :
    wp (do
      setReg tf TFEPC 0
      setReg tf TFSP PGSIZE
      let e ← onFs (Fs.iget 1)
      Prog.modify fun s => s.updProc p fun pr =>
        { pr with sz := PGSIZE, cwd := some e, state := .runnable })
      Q noVmPanic s := by
  rw [wp_bind]
  refine wp_setReg h hk fun m₁ hm₁ => ?_
  rw [wp_bind]
  refine wp_setReg hm₁ (MemMap.box_setBox_self _ _ _) fun m₂ hm₂ => ?_
  unfold onFs
  rw [wp_bind, wp_zoom]
  refine wp_mono ((Fs.iget_stops 1).wp_keeps _) (fun e f _ => ?_) fun _ _ hw => NoVmPanic.fs hw
  rw [wp_modify]
  exact hQ m₂ _ f e hm₂ rfl rfl fun k =>
    (box_setBox_fst (MemMap.box_setBox_self _ _ _) _ k).trans (box_setBox_fst hk _ k)

theorem kinv_initial {mem : Mem} (fs : Fs) (hrep : Rep mem (⟨fun _ => none, fun _ _ => none,
    fun _ => none⟩ : KMap)) :
    KInv (initial mem fs) ⟨fun _ => none, fun _ _ => none, fun _ => none⟩ where
  rep := hrep
  proc _ := ⟨rfl, rfl, fun hne => absurd rfl hne, fun _ => rfl, fun _ => rfl, fun _ => ⟨rfl, rfl⟩,
    fun hc => nomatch hc⟩
  files _ := rfl
  hand := rfl
  root := rfl
  table hne := absurd rfl hne
  arg _ := rfl

/-- **The first process**: the invariant holds, unless there was no memory for its page. -/
theorem wp_userinit_mem (h : KInv s S) (initcode : List Byte) : wp (userinit initcode) (fun _ t =>
    KOk t ∨ ∃ p, (t.proc p).state = .runnable ∧ walkaddr t.mem (t.proc p).pagetable 0 = 0) noVmPanic s := by
  unfold userinit
  refine wp_seq (wp_allocproc_mem h) fun r s₁ h1 => ?_
  cases r with
  | none => exact (wp_panic _).2 (by simp [NoVmPanic])
  | some p =>
    obtain ⟨S₁, h₁, hborn⟩ := h1
    have hnp := h₁.proc p
    have hroot := h₁.root_of_ne hborn.pagetable
    obtain ⟨pg, hk⟩ := h₁.frame_box hborn.trapframe
    have hnone := hborn.bare.cell_none (v := vpn 0) (Nat.zero_le _) (not_reserved_of_lt (by decide))
    rw [wp_bind, wp_get, wp_bind]
    unfold onMem
    rw [wp_zoom]
    refine wp_uvmfirst_mem h₁.rep hroot h₁.hand hnone initcode
      (fun m₂ S₂ S₃ hm hg hw => ?_) fun m₂ x hm => ?_
    · have htable : TableOk S₃ (some p) PGSIZE fun _ => False :=
        (hborn.bare.grown hg (Nat.zero_le _) (by decide) (by decide)).of_keys hw.entry
      refine wp_userinit_rest (S := S₃) hm (by rw [hw.box, hg.box]; exact hk) fun m' S' f e hm' hr
        hc hb => Or.inl ?_
      refine ⟨S', h₁.change p hm' ?_ (fun r hr => by rw [proc_updProc_of_ne _ hr])
        (fun _ _ => by rw [hr, hw.root, hg.root]) (fun q hq => ?_)
        (fun k _ => by rw [hb, hw.box, hg.box]) rfl⟩
      · rw [proc_updProc_self]
        refine ⟨?_, ?_, fun _ => htable.of_eq (by rw [hc]), fun hc => absurd hc hborn.pagetable, hnp.idle,
          fun hc => absurd hc (by simp), fun _ => ⟨hborn.pagetable, hborn.trapframe⟩⟩
        · rw [hr, hw.root, hg.root]
          exact hnp.root
        · rw [hb, hw.box, hg.box]
          exact hnp.frame
      · rw [hc, hw.other q hq]
        exact funext fun v => hg.frame q v fun hcon => hq hcon.1
    · refine wp_userinit_rest (S := S₁.setBox .hand x) hm (by rw [MemMap.box_setBox_of_ne S₁ (by simp)]; exact hk)
        fun m' S' f e hm' hr hc _ => Or.inr ⟨p, by rw [proc_updProc_self], ?_⟩
      rw [proc_updProc_self]
      show walkaddr m' (s₁.proc p).pagetable 0 = 0
      rw [hm'.walkaddr_eq (q := some p) (by rw [hr]; exact hroot)]
      unfold MemMap.userPage
      rw [hc, if_pos (by decide)]
      show (((S₁.cell (some p) (vpn 0)).filter _).map _).getD 0 = 0
      rw [hnone]
      rfl

/-! ### Runs -/

/-- The calls that neither map a file nor make a pipe. -/
def Sys.plain : Sys → Bool
  | .mmap .. | .pipe _ => false
  | _ => true

/-- **Every call but `mmap` and `pipe` keeps the invariant**, and does not stop in the memory functions. -/
theorem wp_call_mem (h : KInv s S) (hp : (s.proc p).state = .runnable) {c : Sys} (hc : c.plain = true) :
    wp (call p c) (fun _ t => KOk t) noVmPanic s := by
  have hok : KOk s := ⟨S, h⟩
  cases c with
  | «open» path omode => exact wp_sysOpen_mem hok path omode
  | dup fd => exact hok.still (still_sysDup p fd)
  | close fd => exact wp_sysClose_mem hok fd
  | pipe => cases hc
  | read fd addr n =>
    unfold call
    rw [wp_bind, wp_get]
    cases (s.proc p).ofile fd with
    | none => exact (wp_pure _).2 hok
    | some f => exact wp_fileread_mem h hp f addr n
  | write fd addr n =>
    unfold call
    rw [wp_bind, wp_get]
    cases (s.proc p).ofile fd with
    | none => exact (wp_pure _).2 hok
    | some f => exact wp_seq (hok.still (still_filewrite p f addr n)) fun _ t ht => (wp_pure _).2 ht
  | fork => exact wp_seq (wp_fork_mem h hp) fun _ t ht => (wp_pure _).2 ht
  | exec path uargv => exact wp_sysExec_mem h hp path uargv
  | exit status => exact wp_exit_mem hok status
  | wait addr => exact wp_seq (wp_wait_mem hok hp addr) fun _ t ht => (wp_pure _).2 ht
  | sbrk n => exact wp_seq (wp_growproc_mem hok hp n) fun _ t ht => (wp_pure _).2 ht
  | mmap => cases hc
  | munmap addr len =>
    unfold call sysMunmap
    rw [wp_bind, wp_get]
    dsimp only
    rw [h.findVma]
    exact (wp_panic _).2 (by simp [NoVmPanic])
  | load va => exact wp_userLoad_mem h va
  | store va b => exact wp_userStore_mem h hp va b

theorem wp_exec_mem (h : KOk s) {e : Fin NPROC × Sys} (he : e.2.plain = true) :
    wp (exec e) (fun _ t => KOk t) noVmPanic s := by
  obtain ⟨S, hS⟩ := h
  unfold exec
  rw [wp_bind, wp_get]
  split_ifs with hp
  · refine wp_attempt (wp_mono (wp_call_mem hS hp he) (fun _ _ ht => ht) fun w t hw => ?_)
    exact ⟨fun _ => ⟨S, hS⟩, fun _ => hw⟩
  · exact (wp_pure _).2 ⟨S, hS⟩

/-- The kernel starts: the memory is put on the free list and the first process is set up. -/
def Kernel.boot (initcode : List Byte) : Prog Kernel Unit := do
  onMem kinit
  userinit initcode

/-- What the theorems assume of a boot: the machine starts with nothing on the free list, the kernel is
below the end of the memory, and there was memory for the page of the first process. -/
structure Booted (mem : Mem) (fs : Fs) (initcode : List Byte) (s : Kernel) : Prop where
  kend : 0 < mem.kend ∧ mem.kend ≤ PHYSTOP
  free : mem.free = []
  run : Kernel.boot initcode (initial mem fs) = .ok () s
  first : ∀ p, (s.proc p).state = .runnable → walkaddr s.mem (s.proc p).pagetable 0 ≠ 0

theorem Booted.kok {mem : Mem} {fs : Fs} {initcode : List Byte} (h : Booted mem fs initcode s) : KOk s := by
  have hwp : wp (Kernel.boot initcode) (fun _ t => KOk t ∨
      ∃ p, (t.proc p).state = .runnable ∧ walkaddr t.mem (t.proc p).pagetable 0 = 0) noVmPanic
      (initial mem fs) := by
    unfold Kernel.boot onMem
    rw [wp_bind, wp_zoom]
    refine wp_post (wp_kinit h.kend.2 h.free) fun _ m hm => ?_
    obtain ⟨hkend, hnodup, hok⟩ := hm
    exact wp_userinit_mem (kinv_initial fs (rep_unused (by rw [hkend]; exact h.kend.1) hnodup
      fun a ha => (hok a).1 ha)) initcode
  rcases wp_ok hwp h.run with hk | ⟨p, hp, h0⟩
  · exact hk
  · exact absurd h0 (h.first p hp)

theorem wp_runs_mem (h : KOk s) {es : List (Fin NPROC × Sys)} (hes : ∀ e ∈ es, e.2.plain = true) :
    wp (runs exec es) (fun _ t => KOk t) noVmPanic s := by
  induction es generalizing s with
  | nil => exact (wp_pure _).2 h
  | cons e es ih =>
    unfold runs
    exact wp_seq (wp_exec_mem h (hes e List.mem_cons_self)) fun _ t ht =>
      ih ht fun e' he' => hes e' (List.mem_cons_of_mem e he')

/-- The page a user address of a process leads to, 0 if there is none. -/
def Kernel.userFrame (s : Kernel) (p : Fin NPROC) (va : ℕ) : ℕ := walkaddr s.mem (s.proc p).pagetable va

/-- **Processes are isolated.**  A page that user code of a process can reach is reached through no other
virtual page of any process, is not on the free list, and is neither a page-table page nor the trapframe of
a process. -/
structure Isolated (s : Kernel) : Prop where
  own : ∀ p q va va', (s.proc p).pagetable ≠ 0 → (s.proc q).pagetable ≠ 0 → s.userFrame p va ≠ 0 →
    s.userFrame q va' = s.userFrame p va → q = p ∧ va' / PGSIZE = va / PGSIZE
  used : ∀ p va, (s.proc p).pagetable ≠ 0 → s.userFrame p va ≠ 0 → s.userFrame p va ∉ s.mem.free
  table : ∀ p q va path, (s.proc p).pagetable ≠ 0 → (s.proc q).pagetable ≠ 0 → s.userFrame p va ≠ 0 →
    path.length ≤ 2 → node s.mem (some (s.proc q).pagetable) path ≠ some (s.userFrame p va)
  frame : ∀ p q va, (s.proc p).pagetable ≠ 0 → s.userFrame p va ≠ 0 →
    (s.proc q).trapframe ≠ s.userFrame p va

theorem Loading.userFrame (h : Loading s S pt sz args) (hp : (s.proc p).pagetable ≠ 0) {va : ℕ}
    (hva : s.userFrame p va ≠ 0) :
    va < MAXVA ∧ pageIn s.mem S (.inl (some p, pagePath (vpn va))) = some (s.userFrame p va) := by
  have hr := h.root_of_ne hp
  obtain ⟨x, hx⟩ := Option.ne_none_iff_exists'.1 ((h.rep.walkaddr_ne_zero hr va).1 hva)
  obtain ⟨hlt, hc, -⟩ := userPage_eq_some.1 hx
  obtain ⟨hres, hw, -, -⟩ := h.rep.userPage_page hr hx
  refine ⟨hlt, ?_⟩
  rw [(h.rep.pageIn_cell hres (show _ = some (x.1, x.2) from hc)).1]
  exact congrArg some hw.symm

theorem Loading.isolated (h : Loading s S pt sz args) : Isolated s := by
  constructor
  case own =>
    intro p q va va' hp hq hva heq
    obtain ⟨hlt, hin⟩ := h.userFrame hp hva
    obtain ⟨hlt', hin'⟩ := h.userFrame hq (show s.userFrame q va' ≠ 0 by rwa [heq])
    rw [heq] at hin'
    have hplace := h.rep.pool.inj _ _ _ hin' hin
    rw [Sum.inl.injEq, Prod.mk.injEq] at hplace
    have hv := congrArg Fin.val (pagePath_injective hplace.2)
    rw [vpn_val hlt, vpn_val hlt'] at hv
    exact ⟨Option.some_inj.1 hplace.1, hv⟩
  case used => exact fun p va hp hva => h.rep.pool.apart _ _ (h.userFrame hp hva).2
  case table =>
    intro p q va path hp hq hva hlen hnode
    have hin : pageIn s.mem S (.inl (some q, path)) = some (s.userFrame p va) := by
      rw [Rep.pageIn_table hlen, h.root_of_ne hq, hnode]
    have hplace := h.rep.pool.inj _ _ _ hin (h.userFrame hp hva).2
    rw [Sum.inl.injEq, Prod.mk.injEq] at hplace
    rw [hplace.2, length_pagePath] at hlen
    omega
  case frame =>
    intro p q va hp hva heq
    obtain ⟨pg, hk⟩ := h.frame_box (p := q) (by rwa [heq])
    rw [heq] at hk
    exact absurd (h.rep.pool.inj _ _ _ (Rep.pageIn_box hk) (h.userFrame hp hva).2) (by simp)

section Runs

variable {mem : Mem} {fs : Fs} {initcode : List Byte} {s₀ : Kernel} {es : List (Fin NPROC × Sys)}

/-- **Isolation over whole runs.**  From boot on, whatever the processes do, in any order, as long as
no file is mapped and no pipe is made, and wherever `kalloc` fails, processes are isolated in every
state reached. -/
theorem processes_isolated (h₀ : Booted mem fs initcode s₀) (hes : ∀ e ∈ es, e.2.plain = true)
    (hs : runs Kernel.exec es s₀ = .ok () s) : Isolated s := by
  obtain ⟨S, hS⟩ := wp_ok (wp_runs_mem h₀.kok hes) hs
  exact hS.isolated

/-- A machine with 16 pages above the kernel. -/
def bareMem : Mem := { bootMem with kend := PHYSTOP - 16 * PGSIZE, free := [] }

def bareBooted : Kernel := (Kernel.boot [] (initial bareMem bootFs)).state

/-- The child of a fork writes to its heap. -/
def forkedStore : List (Fin NPROC × Sys) := [(0, .fork), (1, .store 8 7)]

-- evaluated together: the boot, the calls, and the end of the first process after them
theorem bareBooted_evaluated :
    (Kernel.boot [] (initial bareMem bootFs)).stopped = none ∧
    (∀ p, (bareBooted.proc p).state = .runnable → walkaddr bareBooted.mem
    (bareBooted.proc p).pagetable 0 ≠ 0) ∧
    ((runs Kernel.exec forkedStore bareBooted).stopped = none ∧
      (runs Kernel.exec forkedStore bareBooted).state.userFrame 0 0 ≠ 0 ∧
      (runs Kernel.exec forkedStore bareBooted).state.userFrame 1 0 ≠ 0) ∧
    (runs Kernel.exec (forkedStore ++ [(0, .exit 0)]) bareBooted).stopped =
    some (.panic "init exiting") := by
  decide +kernel

theorem booted_bareBooted : Booted bareMem bootFs [] bareBooted :=
  ⟨by decide, rfl, Res.eq_ok_of_stopped bareBooted_evaluated.1, bareBooted_evaluated.2.1⟩

theorem processes_isolated_forkedStore : ∃ s, runs Kernel.exec forkedStore bareBooted =
    .ok () s ∧ Isolated s ∧
    s.userFrame 0 0 ≠ 0 ∧ s.userFrame 1 0 ≠ 0 := by
  obtain ⟨hrun, h0, h1⟩ := bareBooted_evaluated.2.2.1
  have hrun := Res.eq_ok_of_stopped hrun
  exact ⟨_, hrun, processes_isolated booted_bareBooted (by decide) hrun, h0, h1⟩

/-- **A store is private.**  When a process stores to its memory in such a run, every other process goes on
reaching the same pages, with the same contents. -/
theorem store_private (h₀ : Booted mem fs initcode s₀) (hes : ∀ e ∈ es, e.2.plain = true)
    (hs : runs Kernel.exec es s₀ = .ok () s) {q : Fin NPROC} (hpq : q ≠ p)
    (hp : (s.proc p).state = .runnable)
    (hq : (s.proc q).pagetable ≠ 0) (va : ℕ) (hva : userMapped s.mem (s.proc p).pagetable va PTEW =
    true) (b : Byte) :
    ∃ t, userStore p va b s = .ok () t ∧ ∀ va', t.userFrame q va' = s.userFrame q va' ∧
      (s.userFrame q va' ≠ 0 → t.mem.page (s.userFrame q va') = s.mem.page (s.userFrame q va')) := by
  obtain ⟨S, hS⟩ := wp_ok (wp_runs_mem h₀.kok hes) hs
  have hroot := hS.root_of_ne hq
  obtain ⟨x, hx, -⟩ := hS.rep.readable_cell (hS.root_some hp) (readable_of_userMapped hva)
  obtain ⟨hres, hwalk, -, -⟩ := hS.rep.userPage_page (hS.root_some hp) hx
  have hc : S.cell (some p) (vpn va) = some (x.1, x.2) := (userPage_eq_some.1 hx).2.1
  have hrep := hS.rep.setCell hres hc ((s.mem.page (pte2pa x.1)).blit (va % PGSIZE) [b])
  refine ⟨{ s with mem := s.mem.blit (pte2pa x.1) (va % PGSIZE) [b] }, ?_, fun va' => ⟨?_, fun hne => ?_⟩⟩
  · unfold userStore
    rw [← hwalk]
    exact congrFun (if_pos hva) s
  · have hother := (rewritten_setCell hc ((s.mem.page (pte2pa x.1)).blit (va % PGSIZE) [b])).other (some q)
      fun heq => hpq (Option.some_inj.1 heq)
    have hafter := hrep.walkaddr_eq hroot va'
    unfold MemMap.userPage at hafter
    rw [hother] at hafter
    exact hafter.trans (hS.rep.walkaddr_eq hroot va').symm
  · refine Function.update_of_ne (fun heq => hpq ?_) _ _
    have hown : s.userFrame q va' = s.userFrame p va := heq.trans hwalk.symm
    exact (hS.isolated.own p q va va' ((hS.proc p).live hp).1 hq (hown ▸ hne) hown).1

theorem store_private_forkedStore : ∃ s t, runs Kernel.exec [(0, .fork)] bareBooted = .ok () s ∧
    userStore 1 8 7 s = .ok () t ∧ t.userFrame 0 8 = s.userFrame 0 8 := by
  have hrun : (runs Kernel.exec [(0, .fork)] bareBooted).stopped = none := by decide +kernel
  have hrun := Res.eq_ok_of_stopped hrun
  obtain ⟨t, ht, hsame⟩ := store_private (p := 1) (q := 0) booted_bareBooted (by decide) hrun (by decide)
    (by decide +kernel) (by decide +kernel) 8 (by decide +kernel) 7
  exact ⟨_, t, hrun, ht, (hsame 8).1⟩

/-- **The memory functions find what they expect.**  In such a run the kernel never stops in `kfree`,
`walk`, `mappages` (a remapped page apart), `uvmunmap`, `freewalk`, `uvmcopy` or `uvmclear`. -/
theorem memory_functions_sound (h₀ : Booted mem fs initcode s₀)
    (hes : ∀ e ∈ es, e.2.plain = true) {w : Stop}
    (hs : runs Kernel.exec es s₀ = .stop w s) : NoVmPanic w :=
  wp_stop (wp_runs_mem h₀.kok hes) hs

theorem memory_functions_sound_exit : ∃ s,
    runs Kernel.exec (forkedStore ++ [(0, .exit 0)]) bareBooted = .stop (.panic "init exiting") s ∧
    NoVmPanic (.panic "init exiting") := by
  have hrun := Res.eq_stop_of_stopped bareBooted_evaluated.2.2.2
  exact ⟨_, hrun, memory_functions_sound booted_bareBooted (by decide) hrun⟩

end Runs

end Xv6
