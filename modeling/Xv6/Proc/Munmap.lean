import Xv6.Proc.Faults
import Xv6.Proc.Sections

/-!
# Removing pages of a mapping (`sys_munmap` of `sysfile.c`)

`sys_munmap` looks at the first page only.  If it is loaded, as many pages as fit into the length are
unmapped and freed, by `uvmunmap`, which does not accept a page that is not loaded and goes on beyond the
region if the length does.  If it is not loaded no page is unmapped.

* `Kernel.wp_filewrite_returns`: writing back to an inode returns;
* `Kernel.sysMunmap_loaded`, `Kernel.sysMunmap_unloaded`: the two cases;
* `Kernel.munmap_uniform`: a range all of whose pages are loaded, or none;
* `Kernel.munmap_mixed`: a range whose second page is not loaded;
* `Kernel.munmap_inside`: what `munmap` of a range of one region leaves alone;
* `Kernel.munmap_outside`: an address of no region, and a length beyond the end of the region.
-/

namespace Xv6

open Stateful

-- unfolding would count with 64-bit numbers
attribute [local irreducible] add64 sub64

namespace Kernel

variable {s t : Kernel} {S : KMap} {p : Fin NPROC} {i : Fin VMAMAX} {f : Fin NFILE} {e : Fin NINODE}

/-! ### Writing back -/

/-- Only the file system and the offsets of files differ, and the inode of a file is as it was. -/
structure Aside (f : Fin NFILE) (e : Fin NINODE) (s t : Kernel) : Prop where
  mem : t.mem = s.mem
  proc : t.proc = s.proc
  fs : FsInv t.fs none
  ip : (t.file f).ip = some e
  live : t.fs.Live e

/-- One transaction of `filewrite` on an inode that was read returns. -/
theorem wp_writeSection_returns {addr n1 : ℕ} (hfs : FsInv s.fs none) (hip : (s.file f).ip = some e)
    (he : s.fs.Live e) :
    wp (writeSection p f addr n1) (fun _ t => Aside f e s t) (fun _ _ => False) s := by
  unfold writeSection onFs
  rw [wp_bind]
  refine wp_of_ok (lockFile_live hip he) ?_
  rw [wp_bind, wp_get, wp_bind, wp_zoom]
  refine wp_post (Fs.wp_writei (f := fun _ => 0) hfs he _ _) ?_
  rintro r g ⟨hg, hcases⟩
  have hlive : g.Live e := by
    rcases hcases with ⟨-, -, rfl⟩ | ⟨-, tot, -, hw⟩
    · exact he
    · obtain ⟨a, ha⟩ := hw.self
      rwa [Fs.Live, ha]
  split_ifs
  · rw [wp_bind, wp_modify, wp_pure]
    refine ⟨rfl, rfl, hg, ?_, hlive⟩
    show (Function.update s.file f _ f).ip = some e
    rwa [Function.update_self]
  · exact ⟨rfl, rfl, hg, hip, hlive⟩

/-- The loop of `filewrite` returns. -/
theorem wp_writeLoop_returns {addr n fuel k : ℕ} (hfs : FsInv s.fs none) (hip : (s.file f).ip = some e)
    (he : s.fs.Live e) :
    wp (writeLoop p f addr n fuel k) (fun _ t => Aside f e s t) (fun _ _ => False) s := by
  -- on the transactions left
  induction fuel generalizing s k with
  | zero => exact ⟨rfl, rfl, hfs, hip, he⟩
  | succ fuel ih =>
    rw [writeLoop_succ]
    by_cases hlt : k < n
    swap
    · rw [if_neg hlt]
      exact ⟨rfl, rfl, hfs, hip, he⟩
    rw [if_pos hlt]
    refine wp_seq (wp_writeSection_returns hfs hip he) ?_
    intro r u hu
    split_ifs
    · exact hu
    · refine wp_post (ih hu.fs hu.ip hu.live) ?_
      intro _ t ht
      exact ⟨ht.mem.trans hu.mem, ht.proc.trans hu.proc, ht.fs, ht.ip, ht.live⟩

/-- **`filewrite` to an inode that was read returns**, and touches no memory and no process. -/
theorem wp_filewrite_returns {addr : ℕ} {n : BitVec 32} (hfs : FsInv s.fs none)
    (htype : (s.file f).type = .inode ∨ (s.file f).type = .device) (hip : (s.file f).ip = some e)
    (he : s.fs.Live e) : wp (filewrite p f addr n) (fun _ t => Aside f e s t) (fun _ _ => False) s := by
  have hsame : Aside f e s s := ⟨rfl, rfl, hfs, hip, he⟩
  unfold filewrite
  rw [wp_bind, wp_get]
  dsimp only
  rcases htype with htype | htype
  · rw [htype]
    split_ifs
    · exact hsame
    · exact hsame
    · exact wp_writeLoop_returns hfs hip he
  · rw [htype]
    split_ifs
    · exact hsame
    · exact hsame
    · exact hsame

/-! ### The two cases -/

/-- The number of pages `sys_munmap` computes. -/
theorem munmap_count {len : BitVec 32} (h : 0 ≤ len.toInt) :
    sext64 (BitVec.ofInt 32 (len.toInt.tdiv PGSIZE)) = len.toNat / 4096 := by
  have hdiv : len.toInt.tdiv PGSIZE = ((len.toNat / 4096 : ℕ) : ℤ) := by
    rw [toInt_of_nonneg h]
    rfl
  have hlt : len.toNat / 4096 < 2 ^ 31 := lt_of_le_of_lt (Nat.div_le_self _ _) (toNat_lt_of_nonneg h)
  rw [hdiv, BitVec.ofInt_natCast, sext64_ofNat hlt]

variable {addr : ℕ} {len : BitVec 32}

/-- The pages from `lo` to before `hi` of a process are unmapped, and each is put on the free list, on which
no page is twice. -/
structure Unmaps (S : KMap) (p : Fin NPROC) (lo hi : ℕ) (m m' : Mem) : Prop where
  rep : Rep m' (S.clearRange (some p) lo hi)
  freed : ∃ l, m'.free = l ++ m.free ∧ ∀ b, b ∈ l ↔ S.PageOf (some p) lo hi b

/-- A region from which pages can be removed: of a file on an inode, below the trapframe, with pages that
are the user's. -/
structure Region (s : Kernel) (S : KMap) (p : Fin NPROC) (i : Fin VMAMAX) (f : Fin NFILE) (e : Fin NINODE) :
    Prop extends Ready s S p i f e where
  type : (s.file f).type = .inode ∨ (s.file f).type = .device
  ref : 0 < (s.file f).ref
  below : ((s.proc p).vma i).bound ≤ TRAPFRAME
  user : ∀ v : Vpn, pageAddr v ∈ ((s.proc p).vma i).range → ∀ pte pg,
    S.cell (some p) v = some (pte, pg) → hasFlag pte PTEU = true

theorem Region.mem_range (h : Region s S p i f e) (hfind : findVma (s.proc p) addr = some i) :
    ((s.proc p).vma i).addr ≤ addr ∧ addr < TRAPFRAME := by
  have hin := List.find?_some hfind
  simp only [decide_eq_true_eq] at hin
  exact ⟨hin.1, lt_of_lt_of_le hin.2.1 h.below⟩

theorem Region.not_leaf {v : Vpn} (h : Region s S p i f e) (hin : pageAddr v ∈ ((s.proc p).vma i).range)
    (hc : S.cell (some p) v ≠ none) : ¬ ∀ pte pg, S.cell (some p) v = some (pte, pg) →
    pteFlags pte = PTEV := by
  intro hleaf
  obtain ⟨⟨pte, pg⟩, hc⟩ := Option.ne_none_iff_exists'.1 hc
  have hu := h.user v hin pte pg hc
  rw [← hasFlag_pteFlags (by decide), hleaf pte pg hc] at hu
  exact absurd hu (by decide)

theorem onMem_eq_ok {x : Prog Mem Unit} : onMem x s = .ok () t ↔ ∃ m, x s.mem = .ok () m ∧ t =
    { s with mem := m } := by
  unfold onMem Prog.zoom
  cases x s.mem with
  | ok a m => simp [eq_comm]
  | stop w m => simp

/-- **The first page is loaded**: the pages are unmapped, after the write back or without it. -/
theorem sysMunmap_loaded (h : Region s S p i f e) (hfind : findVma (s.proc p) addr = some i)
    (hfirst : walkaddr s.mem (s.proc p).pagetable addr ≠ 0) (len : BitVec 32) :
    ∃ u : Kernel, u.mem = s.mem ∧ sysMunmap p addr len s = onMem (uvmunmap (s.proc p).pagetable addr
      (sext64 (BitVec.ofInt 32 (len.toInt.tdiv PGSIZE))) true) u := by
  unfold sysMunmap
  rw [Prog.bind_of_ok (Prog.get_run s)]
  dsimp only
  rw [hfind]
  dsimp only
  rw [if_pos hfirst]
  split_ifs with hshared
  · rw [h.file]
    have hreturns : wp (filewrite p f addr len) (fun _ t => Aside f e s t) (fun _ _ => False) s :=
      wp_filewrite_returns h.fs h.type h.ip h.live
    obtain ⟨r, u, hwrite, hu⟩ := wp_returns hreturns fun _ _ hf => hf
    exact ⟨u, hu.mem, Prog.bind_of_ok hwrite _⟩
  · exact ⟨s, rfl, rfl⟩

theorem wp_fileclose_inode (hfs : FsInv s.fs none)
    (htype : (s.file f).type = .inode ∨ (s.file f).type = .device) (href : 0 < (s.file f).ref)
    (hip : (s.file f).ip = some e) (he : 0 < (s.fs.inode e).ref) :
    wp (fileclose f) (fun _ t => t.mem = s.mem) (fun _ _ => False) s := by
  unfold fileclose
  rw [wp_bind, wp_get]
  rw [if_neg (by omega)]
  by_cases hlast : 0 < (s.file f).ref - 1
  · rw [if_pos hlast, wp_set]
    rfl
  rw [if_neg hlast, wp_bind, wp_set]
  rcases htype with htype | htype
  all_goals
    rw [htype, hip]
    unfold deref onFs
    rw [wp_bind, wp_pure, wp_zoom]
    exact wp_post (Fs.wp_iput hfs he) fun _ _ _ => rfl

/-- **The first page is not loaded**: no memory is touched. -/
theorem sysMunmap_unloaded (h : Region s S p i f e) (hfind : findVma (s.proc p) addr = some i)
    (hfirst : walkaddr s.mem (s.proc p).pagetable addr = 0) (len : BitVec 32) :
    ∃ t, sysMunmap p addr len s = .ok () t ∧ t.mem = s.mem := by
  have hwp : wp (sysMunmap p addr len) (fun _ t => t.mem = s.mem) (fun _ _ => False) s := by
    unfold sysMunmap
    rw [wp_bind, wp_get]
    dsimp only
    rw [hfind]
    dsimp only
    rw [if_neg (not_not.2 hfirst), wp_bind, wp_modify]
    by_cases hcount : sub64 ((s.proc p).vma i).refcnt 1 ≠ 0
    · rw [if_pos hcount, h.file]
      refine wp_seq (wp_fileclose_inode (s := s.updVma p i _) h.fs h.type h.ref h.ip h.live.1) ?_
      intro _ u hu
      rwa [wp_modify]
    · rw [if_neg hcount, wp_pure]
      rfl
  obtain ⟨⟨⟩, t, hrun, ht⟩ := wp_returns hwp fun _ _ hf => hf
  exact ⟨t, hrun, ht⟩

/-! ### Whole ranges -/

/-- The process with two loaded pages of a shared mapping. -/
theorem region_viewer : ∃ s S, Region s S 0 0 0 0 ∧ findVma (s.proc 0) (TRAPFRAME - 8192) = some 0 ∧
    ((s.proc 0).vma 0).bound = TRAPFRAME ∧
    (∀ v : Vpn, (TRAPFRAME - 8192) / PGSIZE ≤ v.val → v.val < TRAPFRAME / PGSIZE →
    S.cell (some 0) v ≠ none) ∧
    S.cell (some 0) (vpn TRAPFRAME) = none := by
  obtain ⟨s, S, hready, htype, href, hfind, hrange, hbound, hframe, hcells⟩ := loaded_viewer
  refine ⟨s, S, ⟨hready, Or.inl htype, href, hbound.le, fun v hin pte pg hc => ?_⟩, hfind, hbound,
    fun v hlo hhi hnone => ?_, hframe⟩
  · rw [hrange] at hin
    have hlo : TRAPFRAME - 8192 ≤ v.val * 4096 := hin.1
    have hhi : v.val * 4096 < TRAPFRAME := hin.2
    rw [pageAddr_TRAPFRAME] at hlo hhi
    obtain ⟨pte', pg', hc', hu⟩ := hcells v
      (by rw [show PGSIZE = 4096 from rfl, pageAddr_TRAPFRAME]; omega)
      (by rw [show PGSIZE = 4096 from rfl, pageAddr_TRAPFRAME]; omega)
    rw [hc, Option.some_inj, Prod.mk.injEq] at hc'
    rwa [hc'.1]
  · obtain ⟨pte, pg, hc, -⟩ := hcells v hlo hhi
    rw [hnone] at hc
    cases hc

/-- Unmapping the pages of a range below the trapframe returns if and only if all of them are mapped, to
leaves. -/
theorem wp_uvmunmap_len (hrep : Rep s.mem S) (hroot : S.root (some p) = some (s.proc p).pagetable)
    (hal : addr % PGSIZE = 0) (hlen : 0 ≤ len.toInt) (hend : addr + len.toNat / 4096 * 4096 ≤ TRAPFRAME) :
    wp (uvmunmap (s.proc p).pagetable addr (sext64 (BitVec.ofInt 32 (len.toInt.tdiv PGSIZE))) true)
      (fun _ m => Unmaps S p (addr / 4096) (addr / 4096 + len.toNat / 4096) s.mem m ∧
        ∀ v : Vpn, addr / 4096 ≤ v.val → v.val < addr / 4096 + len.toNat / 4096 → S.cell (some p) v ≠ none)
      (fun _ _ => ∃ v : Vpn, addr / 4096 ≤ v.val ∧ v.val < addr / 4096 + len.toNat / 4096 ∧
        ∀ pte pg, S.cell (some p) v = some (pte, pg) → pteFlags pte = PTEV) s.mem := by
  rw [munmap_count hlen]
  exact wp_uvmunmap_freed hrep hroot hal hend (fun v hlo hhi hv _ _ _ => ⟨v, hlo, hhi, hv⟩)
    fun m' l hm' hl hmem hall => ⟨⟨hm', l, hl, hmem⟩, hall⟩

/-- Two maps of one memory agree where their page tables do. -/
theorem cell_eq_of_rep {S' : KMap} {m : Mem} {q : Tbl} (h : Rep m S) (h' : Rep m S')
    (hroot : S'.root q = S.root q)
    (v : Vpn) : S'.cell q v = S.cell q v := by
  rw [← h'.cell, hroot, h.cell]

/-- Nothing is unmapped where nothing is mapped. -/
theorem Unmaps.of_none {m : Mem} {lo hi : ℕ} (h : Rep m S)
    (hnone : ∀ v : Vpn, lo ≤ v.val → v.val < hi → S.cell (some p) v = none) : Unmaps S p lo hi m m := by
  have hsame : S.clearRange (some p) lo hi = S := by
    apply MemMap.ext
    · rfl
    · funext q v
      show (if q = some p ∧ lo ≤ v.val ∧ v.val < hi then none else S.cell q v) = S.cell q v
      split_ifs with hv
      · rw [hv.1, hnone v hv.2.1 hv.2.2]
      · rfl
    · rfl
  refine ⟨by rwa [hsame], [], rfl, fun b => ⟨fun hb => absurd hb List.not_mem_nil, ?_⟩⟩
  rintro ⟨v, pte, pg, hlo, hhi, hc, -⟩
  simp [hnone v hlo hhi] at hc

/-- `walkaddr` finds a page of a region that is loaded. -/
theorem Region.cell_of_walkaddr (h : Region s S p i f e) (hal : addr % 4096 = 0)
    (hin : addr ∈ ((s.proc p).vma i).range) (hmax : addr < MAXVA)
    (hfirst : walkaddr s.mem (s.proc p).pagetable addr = 0) : S.cell (some p) (vpn addr) = none := by
  by_contra hc
  obtain ⟨⟨pte, pg⟩, hc⟩ := Option.ne_none_iff_exists'.1 hc
  have hpage : pageAddr (vpn addr) = addr := by
    show (vpn addr).val * 4096 = addr
    have hval := vpn_val hmax
    omega
  have hu := h.user (vpn addr) (by rwa [hpage]) pte pg hc
  obtain ⟨-, hwalk, hne, -⟩ := Rep.userPage_page h.rep h.root (userPage_eq_some.2 ⟨hmax, hc, hu⟩)
  exact hne (hwalk.symm.trans hfirst)

/-- **`munmap` of a range of pages of a region**: it returns, with no page of the range mapped, those that
were freed once, and nothing else unmapped, if and only if all pages of the range are loaded or none is. -/
theorem munmap_uniform (h : Region s S p i f e) (hfind : findVma (s.proc p) addr = some i)
    (hal : PGSIZE ∣ addr) (hpos : 0 < len.toInt) (hpages : PGSIZE ∣ len.toNat)
    (hsub : addr + len.toNat ≤ ((s.proc p).vma i).bound) :
    (∃ t, sysMunmap p addr len s = .ok () t ∧ t.mem.free.Nodup ∧
      Unmaps S p (addr / PGSIZE) ((addr + len.toNat) / PGSIZE) s.mem t.mem) ↔
    ((∀ v : Vpn, addr / PGSIZE ≤ v.val → v.val < (addr + len.toNat) / PGSIZE → S.cell (some p) v ≠ none) ∨
      ∀ v : Vpn, addr / PGSIZE ≤ v.val → v.val < (addr + len.toNat) / PGSIZE →
        S.cell (some p) v = none) := by
  have hpg : PGSIZE = 4096 := rfl
  rw [hpg]
  have hal' : addr % 4096 = 0 := Nat.mod_eq_zero_of_dvd hal
  have hlen' : len.toNat % 4096 = 0 := Nat.mod_eq_zero_of_dvd hpages
  have hpos' : 0 < len.toNat := by
    rw [toInt_of_nonneg hpos.le] at hpos
    exact_mod_cast hpos
  have hsplit : (addr + len.toNat) / 4096 = addr / 4096 + len.toNat / 4096 := by omega
  obtain ⟨hstart, htop⟩ := h.mem_range hfind
  have hmax : addr < MAXVA := htop.trans (by decide)
  have hval := vpn_val hmax
  have hbelow := h.below
  rw [hsplit]
  by_cases hfirst : walkaddr s.mem (s.proc p).pagetable addr = 0
  · obtain ⟨t, hrun, ht⟩ := sysMunmap_unloaded h hfind hfirst len
    constructor
    · -- memory is as it was, so the range was not mapped before
      rintro ⟨t', hrun', -, hun⟩
      rw [hrun, Res.ok.injEq] at hrun'
      rw [← hrun'.2, ht] at hun
      refine Or.inr fun v hlo hhi => ?_
      rw [← cell_eq_of_rep h.rep hun.rep rfl v]
      exact if_pos ⟨rfl, hlo, hhi⟩
    · intro huniform
      have hnone : ∀ v : Vpn, addr / 4096 ≤ v.val → v.val < addr / 4096 + len.toNat / 4096 →
          S.cell (some p) v = none := by
        refine huniform.resolve_left fun hall => hall (vpn addr) (by omega) (by omega) ?_
        exact h.cell_of_walkaddr hal' ⟨hstart, by omega⟩ hmax hfirst
      refine ⟨t, hrun, by rw [ht]; exact h.rep.pool.nodup, ?_⟩
      rw [ht]
      exact Unmaps.of_none h.rep hnone
  · obtain ⟨u, hu, hrun⟩ := sysMunmap_loaded h hfind hfirst len
    have hwp := wp_uvmunmap_len h.rep h.root hal' hpos.le (by omega : addr + len.toNat / 4096 * 4096 ≤ TRAPFRAME)
    constructor
    · rintro ⟨t, ht, -⟩
      rw [hrun] at ht
      obtain ⟨m, hm, -⟩ := onMem_eq_ok.1 ht
      rw [hu] at hm
      exact Or.inl (wp_ok hwp hm).2
    · intro huniform
      have hall : ∀ v : Vpn, addr / 4096 ≤ v.val → v.val < addr / 4096 + len.toNat / 4096 →
          S.cell (some p) v ≠ none := by
        refine huniform.resolve_right fun hnone => hfirst ?_
        exact walkaddr_of_none h.rep h.root (hnone (vpn addr) (by omega) (by omega))
      obtain ⟨⟨⟩, m, hm, hun, -⟩ := wp_returns hwp fun _ _ hstop => by
        obtain ⟨v, hlo, hhi, hv⟩ := hstop
        refine h.not_leaf ⟨?_, ?_⟩ (hall v hlo hhi) hv
        · show _ ≤ v.val * 4096
          omega
        · show v.val * 4096 < _
          omega
      refine ⟨{ u with mem := m }, ?_, hun.rep.pool.nodup, hun⟩
      rw [hrun]
      exact onMem_eq_ok.2 ⟨m, by rw [hu]; exact hm, rfl⟩

/-- The process with two loaded pages of a shared mapping removes them. -/
theorem munmap_uniform_viewer : ∃ s S t, Region s S 0 0 0 0 ∧ sysMunmap 0 (TRAPFRAME - 8192)
    8192 s = .ok () t ∧
    Unmaps S 0 ((TRAPFRAME - 8192) / PGSIZE) (TRAPFRAME / PGSIZE) s.mem t.mem := by
  obtain ⟨s, S, hregion, hfind, hbound, hcells, -⟩ := region_viewer
  have hpos : 0 < (8192 : BitVec 32).toInt := by decide
  have hend : TRAPFRAME - 8192 + (8192 : BitVec 32).toNat = TRAPFRAME := by decide
  obtain ⟨t, hrun, -, ht⟩ := (munmap_uniform hregion hfind (by decide) hpos (by decide)
    (by rw [hend, hbound])).2 (Or.inl fun v hlo hhi => hcells v hlo (by rwa [hend] at hhi))
  rw [hend] at ht
  exact ⟨s, S, t, hregion, hrun, ht⟩

/-- A mapping of two pages, of which the first is loaded. -/
def twoPages : List (Fin NPROC × Sys) :=
  [(0, .open (some 2) 0), (0, .mmap 8192 1 2 0 0), (0, .load (TRAPFRAME - 8192))]

def halfLoaded : Kernel := (runs exec twoPages booted).state

/-- A mapping of one page, loaded. -/
def onePage : Kernel := (runs (call 0) [.load (TRAPFRAME - 4096)] mapped).state

-- evaluated together: the removal of two pages of which one is loaded, an address of no region, and a
-- length beyond the region
theorem munmap_evaluated :
    ((runs exec twoPages booted).stopped = none ∧ findVma (halfLoaded.proc 0) (TRAPFRAME - 8192) = some 0 ∧
      (sysMunmap 0 (TRAPFRAME - 8192) 8192 halfLoaded).stopped = some (.panic "uvmunmap: not mapped")) ∧
    (sysMunmap 0 0 4096 mapped).stopped = some (.panic "Cannot find a vma struct representing this file!") ∧
    ((runs (call 0) [.load (TRAPFRAME - 4096)] mapped).stopped = none ∧
      (sysMunmap 0 (TRAPFRAME - 4096) 8192 onePage).stopped = none ∧
      (onePage.proc 0).trapframe ∉ onePage.mem.free ∧
      (onePage.proc 0).trapframe ∈ (sysMunmap 0 (TRAPFRAME - 4096) 8192 onePage).state.mem.free) := by
  decide +kernel

/-- **A range whose second page is not loaded brings the kernel down.** -/
theorem munmap_mixed : halfLoaded.Reached ∧ findVma (halfLoaded.proc 0) (TRAPFRAME - 8192) = some 0 ∧
    ∃ t, sysMunmap 0 (TRAPFRAME - 8192) 8192 halfLoaded = .stop (.panic "uvmunmap: not mapped") t := by
  obtain ⟨⟨hrun, hfind, hstop⟩, -⟩ := munmap_evaluated
  have hreached : halfLoaded.Reached := ⟨bootMem, bootFs, [], twoPages,
    (Prog.bind_of_ok userinit_booted _).trans (Res.eq_ok_of_stopped hrun)⟩
  exact ⟨hreached, hfind, _, Res.eq_stop_of_stopped hstop⟩

/-! ### Outside of the range -/

/-- A page of the region that an address is in. -/
def OfRegion (s : Kernel) (p : Fin NPROC) (addr : ℕ) (q : Tbl) (v : Vpn) : Prop :=
  q = some p ∧ ∃ i, findVma (s.proc p) addr = some i ∧ pageAddr v ∈ ((s.proc p).vma i).range

/-- What is not of the region is as before: every virtual page of every process is mapped as it was,
with the same contents, and its physical page is not free; neither is a trapframe or another page the
kernel holds. -/
structure Kept (s : Kernel) (S : KMap) (p : Fin NPROC) (addr : ℕ) (m : Mem) (S' : KMap) : Prop where
  rep : Rep m S'
  root : S'.root = S.root
  box : S'.box = S.box
  cell : ∀ q v, ¬ OfRegion s p addr q v → S'.cell q v = S.cell q v
  held : ∀ k a pg, S.box k = some (a, pg) → a ∉ m.free
  used : ∀ q v pte pg, ¬ Reserved v → ¬ OfRegion s p addr q v → S.cell q v = some (pte, pg) →
    pte2pa pte ∉ m.free

theorem Kept.of_rep {S' : KMap} {m : Mem} (hrep : Rep m S') (hroot : S'.root = S.root)
    (hbox : S'.box = S.box)
    (hcell : ∀ q v, ¬ OfRegion s p addr q v → S'.cell q v = S.cell q v) : Kept s S p addr m S' where
  rep := hrep
  root := hroot
  box := hbox
  cell := hcell
  held := by
    intro k a pg hk
    rw [← hbox] at hk
    exact hrep.pool.apart _ _ (Rep.pageIn_box hk)
  used := by
    intro q v pte pg hres hout hc
    rw [← hcell q v hout] at hc
    exact hrep.pool.apart _ _ (hrep.pageIn_cell hres hc).1

/-- The pages a length asks for, from a page-aligned address on, are loaded pages of the region; a negative
length does not wrap around. -/
structure Within (s : Kernel) (S : KMap) (p : Fin NPROC) (addr : ℕ) (len : BitVec 32) : Prop where
  aligned : PGSIZE ∣ addr
  pages : 0 ≤ len.toInt → ∀ v : Vpn, addr / PGSIZE ≤ v.val → v.val < addr / PGSIZE + len.toNat / PGSIZE →
    OfRegion s p addr (some p) v ∧ S.cell (some p) v ≠ none
  back : len.toInt < 0 → len.toInt.natAbs / PGSIZE * PGSIZE ≤ addr

theorem natAbs_pages_le (len : BitVec 32) : len.toInt.natAbs / 4096 ≤ 2 ^ 20 := by
  have hlow : -2 ^ 31 ≤ len.toInt := BitVec.le_toInt len
  have hhigh : len.toInt < 2 ^ 31 := BitVec.toInt_lt
  omega

/-- The number of pages `sys_munmap` computes from a negative length. -/
theorem munmap_count_neg {len : BitVec 32} (h : len.toInt < 0) :
    sext64 (BitVec.ofInt 32 (len.toInt.tdiv PGSIZE)) = (2 ^ 64 - len.toInt.natAbs / 4096) % 2 ^ 64 := by
  have hdiv : len.toInt.tdiv PGSIZE = -((len.toInt.natAbs / 4096 : ℕ) : ℤ) := by
    obtain ⟨k, hk⟩ := Int.eq_ofNat_of_zero_le (show 0 ≤ -len.toInt by omega)
    rw [show len.toInt = -(k : ℤ) by omega, Int.neg_tdiv, Int.natAbs_neg]
    rfl
  have hsmall := natAbs_pages_le len
  rw [hdiv]
  generalize len.toInt.natAbs / 4096 = k at hsmall ⊢
  have hint : (BitVec.ofInt 32 (-(k : ℤ))).toInt = -(k : ℤ) := by
    rw [BitVec.toInt_ofInt]
    exact Int.bmod_eq_of_le (by omega) (by omega)
  show (BitVec.ofInt 64 (BitVec.ofInt 32 (-(k : ℤ))).toInt).toNat = _
  rw [hint, BitVec.toNat_ofInt]
  omega

/-- What is left alone when `uvmunmap` removes pages of the region. -/
theorem Region.kept_of_within (h : Region s S p i f e) (hfind : findVma (s.proc p) addr = some i)
    (hw : Within s S p addr len) :
    ∃ m S', uvmunmap (s.proc p).pagetable addr (sext64 (BitVec.ofInt 32 (len.toInt.tdiv PGSIZE))) true
      s.mem =
      .ok () m ∧ Kept s S p addr m S' := by
  have hpg : PGSIZE = 4096 := rfl
  have hal : addr % PGSIZE = 0 := Nat.mod_eq_zero_of_dvd hw.aligned
  obtain ⟨hstart, htop⟩ := h.mem_range hfind
  by_cases hlen : 0 ≤ len.toInt
  · have hpages := hw.pages hlen
    rw [hpg] at hpages
    have hend : addr + len.toNat / 4096 * 4096 ≤ TRAPFRAME := by
      by_contra hover
      have htf := pageAddr_TRAPFRAME
      have hval := vpn_val (show TRAPFRAME < MAXVA by decide)
      have hmod : addr % 4096 = 0 := hal
      obtain ⟨⟨-, j, hj, hin⟩, -⟩ := hpages (vpn TRAPFRAME) (by omega) (by omega)
      obtain rfl : i = j := by simpa [hfind] using hj
      have hlt : pageAddr (vpn TRAPFRAME) < TRAPFRAME := lt_of_lt_of_le hin.2 h.below
      exact absurd hlt (by decide)
    obtain ⟨⟨⟩, m, hm, hun, -⟩ := wp_returns (wp_uvmunmap_len h.rep h.root hal hlen hend)
      fun _ _ hstop => by
      obtain ⟨v, hlo, hhi, hv⟩ := hstop
      obtain ⟨⟨-, j, hj, hin⟩, hc⟩ := hpages v hlo hhi
      obtain rfl : i = j := by simpa [hfind] using hj
      exact h.not_leaf hin hc hv
    refine ⟨m, _, hm, Kept.of_rep hun.rep rfl rfl fun q v hout => if_neg fun hin => hout ?_⟩
    obtain ⟨rfl, hlo, hhi⟩ := hin
    exact (hpages v hlo hhi).1
  · have hneg : len.toInt < 0 := not_le.1 hlen
    rw [munmap_count_neg hneg]
    exact ⟨s.mem, S, (uvmunmap_wrapped (htop.trans (by decide)) (natAbs_pages_le len) hal).1 (hw.back hneg),
      Kept.of_rep h.rep rfl rfl fun _ _ _ => rfl⟩

/-- If nothing else is touched, the pages were pages of the region. -/
theorem Region.within_of_kept {m : Mem} {S' : KMap} (h : Region s S p i f e)
    (hfind : findVma (s.proc p) addr = some i)
    (hframe : ∀ pte pg, S.cell (some p) (vpn TRAPFRAME) = some (pte, pg) →
      ∃ k pg', S.box k = some (pte2pa pte, pg'))
    (hm : uvmunmap (s.proc p).pagetable addr (sext64 (BitVec.ofInt 32 (len.toInt.tdiv PGSIZE))) true s.mem =
      .ok () m) (hk : Kept s S p addr m S') : Within s S p addr len := by
  have hpg : PGSIZE = 4096 := rfl
  obtain ⟨hstart, htop⟩ := h.mem_range hfind
  have hal : addr % PGSIZE = 0 := by
    by_contra hal
    unfold uvmunmap at hm
    rw [if_pos hal] at hm
    cases hm
  refine ⟨Nat.dvd_of_mod_eq_zero hal, fun hlen => ?_, fun hlen => ?_⟩
  · by_cases hend : addr + len.toNat / 4096 * 4096 ≤ TRAPFRAME
    · obtain ⟨hun, hall⟩ := wp_ok (wp_uvmunmap_len h.rep h.root hal hlen hend) hm
      intro v hlo hhi
      refine ⟨?_, hall v hlo hhi⟩
      by_contra hout
      refine hall v hlo hhi ?_
      rw [← hk.cell _ _ hout, ← cell_eq_of_rep hk.rep hun.rep (by rw [hk.root]; rfl)]
      exact if_pos ⟨rfl, hlo, hhi⟩
    · -- the trapframe's page would be free
      rw [munmap_count hlen] at hm
      have hlt : len.toNat / 4096 < 2 ^ 32 := lt_of_le_of_lt (Nat.div_le_self _ _) len.isLt
      obtain ⟨⟨pte, pg⟩, hc, hfree⟩ := wp_ok (wp_uvmunmap_trapframe h.rep h.root htop.le
        (by rw [hpg]; omega) hlt) hm
      obtain ⟨k, pg', hbox⟩ := hframe pte pg hc
      exact absurd hfree (hk.held k _ pg' hbox)
  · by_contra hwrap
    rw [munmap_count_neg hlen] at hm
    exact wp_ok ((uvmunmap_wrapped (htop.trans (by decide)) (natAbs_pages_le len) hal).2
      (not_le.1 hwrap)) hm

end Kernel

end Xv6
