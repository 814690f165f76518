import Xv6.Proc.Mmap

/-!
# Load page faults (`usertrap` of `trap.c`)

A load fault in a mapped region allocates a page, maps it at the faulting address and reads a page of the
file into it, from the distance of the address to the start of the region on.  It brings the kernel down
when the address is not page-aligned, when the page is mapped already, and when there is no memory.

* `Kernel.Ready`: what a fault relies on;
* `Kernel.wp_loadFault_maps`: what a fault does;
* `Kernel.load_fault_maps`: a fault at the start of a page that is not mapped maps it;
* `Kernel.load_fault_panics`: the other faults;
* `Kernel.mapped_contents`: the contents of the pages of a mapping, and when they are those of its offset;
* `Kernel.offset_ignored`: a mapping at another offset.
-/

namespace Xv6

open Stateful Function List

/-! ### Reading a page of a file -/

theorem takes_page (m : Mem) (pa : ℕ) (cs : List Byte) (base n : ℕ) :
    Fs.Takes (fun m tot bytes => (m.blit pa tot bytes, true))
      (fun tot m' => ∃ pg, m' = m.setPage pa pg ∧ ∀ k < 4096,
        pg.byte k = (((cs.drop base).take tot)[k]?).getD ((m.page pa).byte k)) cs base n := by
  rintro m' tot j ⟨pg, rfl, hpg⟩ _
  have hpage : (m.setPage pa pg).page pa = pg := Rep.page_setPage_self m pa pg
  refine ⟨rfl, pg.blit tot ((cs.drop (base + tot)).take j), ?_, fun k hk => ?_⟩
  · show (m.setPage pa pg).setPage pa (((m.setPage pa pg).page pa).blit tot _) = _
    rw [hpage]
    unfold Mem.setPage
    simp only [update_idem]
  · rw [Words.byte_blit, hpg k hk]
    by_cases htot : tot ≤ k
    · have hnone : ((cs.drop base).take tot)[k]? = none := by
        rw [getElem?_eq_none_iff, length_take]
        omega
      rw [if_pos ⟨htot, hk⟩, hnone, getElem?_take, getElem?_take, getElem?_drop,
        getElem?_drop, show base + tot + (k - tot) = base + k by omega]
      by_cases hj : k < tot + j
      · rw [if_pos (by omega), if_pos hj]
        rfl
      · rw [if_neg (by omega), if_neg hj]
        rfl
    · rw [if_neg fun h => htot h.1, getElem?_take, getElem?_take, if_pos (by omega),
        if_pos (by omega)]

namespace Kernel

variable {s t u : Kernel} {S : KMap} {p : Fin NPROC} {i : Fin VMAMAX} {f : Fin NFILE} {e : Fin NINODE}
  {va : ℕ}

/-- **Reading a page of a file** puts its bytes at the start of the page. -/
theorem readPage_run (hfs : FsInv s.fs none) (he : s.fs.Live e) (pa : ℕ) (off n : BitVec 32) :
    ∃ r pg, readPage e pa off n s = .ok r { s with mem := s.mem.setPage pa pg } ∧ ∀ k < 4096,
      pg.byte k = ((((s.fs.bytes (s.fs.inode e).inum).drop off.toNat).take
        (Fs.readCount (s.fs.inode e).size off n))[k]?).getD ((s.mem.page pa).byte k) := by
  have hsame : s.mem = s.mem.setPage pa (s.mem.page pa) := by
    unfold Mem.setPage
    rw [update_eq_self]
  obtain ⟨m', hrun, pg, rfl, hpg⟩ := Fs.readi_takes (hfs.starts he) (hfs.length_bytes he)
    (takes_page s.mem pa (s.fs.bytes (s.fs.inode e).inum) off.toNat _)
    ⟨s.mem.page pa, hsame, fun k _ => by rw [take_zero]; rfl⟩
  have honfs : onFs (Fs.readi (fun m tot bytes => (m.blit pa tot bytes, true)) s.mem e off n) s =
      .ok (s.mem.setPage pa pg, BitVec.ofNat 32 (Fs.readCount (s.fs.inode e).size off n)) s := by
    unfold onFs Prog.zoom
    rw [hrun]
  unfold readPage
  rw [Prog.bind_of_ok (Prog.get_run s), Prog.bind_of_ok honfs]
  exact ⟨_, pg, rfl, hpg⟩

/-! ### The fault -/

/-- What a fault in region `i` of a process relies on: the page tables and the file system are well
formed, no page is in the hands of the kernel, and the region is that of a file whose inode was read. -/
structure Ready (s : Kernel) (S : KMap) (p : Fin NPROC) (i : Fin VMAMAX) (f : Fin NFILE) (e : Fin NINODE) :
    Prop where
  rep : Rep s.mem S
  root : S.root (some p) = some (s.proc p).pagetable
  hand : S.box .hand = none
  fs : FsInv s.fs none
  file : ((s.proc p).vma i).f = some f
  ip : (s.file f).ip = some e
  live : s.fs.Live e
  /-- The protection has no other bits than those of an entry. -/
  perm : ((vmaPerm ((s.proc p).vma i).prot).signExtend 64).toNat < 1024

/-- The region after a fault. -/
def oneMore (v : Vma) : Vma := { v with refcnt := add64 v.refcnt 1 }

/-- The state after a fault, but for the memory. -/
def counted (s : Kernel) (p : Fin NPROC) (i : Fin VMAMAX) : Kernel := s.updVma p i oneMore

/-- The flags of the page of a region. -/
def vmaFlags (v : Vma) : BitVec 64 := (vmaPerm v.prot).signExtend 64 ||| PTEV

/-- The page with the bytes of the file, as the fault computes them. -/
def FilePage (s : Kernel) (v : Vma) (e : Fin NINODE) (va : ℕ) (pg : Page) : Prop :=
  ∀ k < 4096, pg.byte k = ((((s.fs.bytes (s.fs.inode e).inum).drop
    (BitVec.ofNat 32 (sub64 va v.addr)).toNat).take (Fs.readCount (s.fs.inode e).size
      (BitVec.ofNat 32 (sub64 va v.addr)) (BitVec.ofNat 32 PGSIZE)))[k]?).getD 0

theorem byte_fill_zero (k : ℕ) : (Words.fill 0 : Page).byte k = 0 := by
  unfold Words.byte
  split_ifs with h
  · exact wordByte_ofWordBytes (fun _ => 0) ⟨k % 8, Nat.mod_lt _ (by decide)⟩
  · rfl

/-- A page is taken and cleared; without memory, the page at address 0 is cleared. -/
theorem wp_zeroPage {α : Type} {k : ℕ → Prog Kernel α} {Q : α → Kernel → Prop} {A : Stop → Kernel → Prop}
    (hrep : Rep s.mem S) (h0 : s.mem.free = [] → A (.panic "kerneltrap") s)
    (h1 : ∀ a m, Holding m a S → m.page a = Words.fill 0 → s.mem.free.length = m.free.length + 1 →
      (∀ b, b ∉ s.mem.free → m.page b = s.mem.page b) → wp (k a) Q A { s with mem := m }) :
    wp (onMem kalloc >>= fun mem => onMem (memset mem 0) >>= fun _ => k mem) Q A s := by
  unfold onMem
  rw [wp_bind, wp_zoom]
  refine wp_mono (wp_and (wp_kalloc (A := fun _ _ => False) hrep
    (Q := fun r m => (r = 0 ∧ s.mem.free = [] ∧ m = s.mem) ∨ Holding m r S)
    (fun h0 => Or.inl ⟨rfl, h0, rfl⟩)
    fun r m hm _ => Or.inr hm) (wp_kalloc_free (A := fun _ _ => True))) ?_ fun _ _ hf => hf.1.elim
  rintro a m ⟨⟨rfl, hnil, rfl⟩ | hm, hfree, hmem, hpage⟩
  · rw [wp_bind, wp_zoom, memset, if_pos rfl, wp_panic]
    exact h0 hnil
  have ha := hmem hm.ne_zero
  have hclear : wp (memset a 0) (fun _ m' => m'.free = m.free ∧ ∀ b, b ≠ a → m'.page b = m.page b)
      (fun _ _ => True) m := by
    unfold memset
    rw [if_neg hm.ne_zero, wp_modify]
    exact ⟨rfl, fun b hb => update_of_ne hb _ _⟩
  rw [wp_bind, wp_zoom]
  refine wp_mono (wp_and (wp_memset (A := fun _ _ => False) hm
    (Q := fun _ m' => Holding m' a S ∧ m'.page a = Words.fill 0) fun m' h1 _ h2 => ⟨h1, h2⟩) hclear) ?_
    fun _ _ hf => hf.1.elim
  rintro - m' ⟨⟨hm', hzero⟩, hfree', hpage'⟩
  refine h1 a m' hm' hzero ?_ fun b hb => ?_
  · have := length_pos_iff.2 (ne_nil_of_mem ha)
    rw [hfree', hfree, length_tail]
    omega
  · rw [hpage' b (ne_of_mem_of_not_mem ha hb).symm, hpage b hb]

/-- A cleared page of the user is filled with bytes of a file. -/
theorem wp_fillPage {q : Tbl} {v : Vpn} {pte : BitVec 64} {pa : ℕ} (hfs : FsInv s.fs none)
    (hip : (s.file f).ip = some e) (he : s.fs.Live e) (hrep : Rep s.mem S) (hres : ¬ Reserved v)
    (hc : S.cell q v = some (pte, Words.fill 0)) (hpa : pte2pa pte = pa) (off n : BitVec 32) :
    wp (lockFile f >>= fun e => readPage e pa off n >>= fun _ => pure ())
      (fun _ t => ∃ pg, t = { s with mem := s.mem.setPage pa pg } ∧
      Rep t.mem (S.setCell q v (some (pte, pg))) ∧
        ∀ k < 4096, pg.byte k = ((((s.fs.bytes (s.fs.inode e).inum).drop off.toNat).take
          (Fs.readCount (s.fs.inode e).size off n))[k]?).getD 0)
      (fun _ _ => False) s := by
  subst hpa
  obtain ⟨r, pg, hread, hpg⟩ := readPage_run hfs he (pte2pa pte) off n
  have hold : s.mem.page (pte2pa pte) = Words.fill 0 := (hrep.pageIn_cell hres hc).2
  rw [wp_bind]
  refine wp_of_ok (lockFile_live hip he) ?_
  rw [wp_bind]
  refine wp_of_ok hread ?_
  rw [wp_pure]
  refine ⟨pg, rfl, hrep.setCell hres hc pg, fun k hk => ?_⟩
  rw [hpg k hk, hold, byte_fill_zero]

/-- What a fault needs: the address is the start of a page, the page is not mapped, and there is a page of
memory for it and for each page-table page that is missing. -/
structure Mapping (s : Kernel) (S : KMap) (p : Fin NPROC) (va : ℕ) : Prop where
  aligned : va % PGSIZE = 0
  cell : S.cell (some p) (vpn va) = none
  room : 4 ≤ s.mem.free.length + (tables s.mem va 2 (s.proc p).pagetable).length

/-- **A fault in a region** maps a page with the bytes of the file, and takes three pages of memory at most;
it returns exactly if it has what it needs. -/
theorem wp_loadFault_maps (h : Ready s S p i f e) (hfind : findVma (s.proc p) va = some i)
    (hva : va < TRAPFRAME) :
    wp (loadFault p va) (fun _ t => Mapping s S p va ∧ ∃ m pte pg, t = { counted s p i with mem := m } ∧
        Rep m (S.setCell (some p) (vpn va) (some (pte, pg))) ∧
        pteFlags pte = vmaFlags ((s.proc p).vma i) ∧ FilePage s ((s.proc p).vma i) e va pg ∧
        s.mem.free.length ≤ m.free.length + 3)
      (fun _ _ => ¬ Mapping s S p va) s := by
  have hmax : va < MAXVA := lt_trans hva (by decide)
  have hres : ¬ Reserved (vpn va) := by
    refine not_reserved_of_lt ?_
    rw [vpn_val hmax]
    have := pageAddr_TRAPFRAME
    omega
  have htwo : ∀ m, (tables m va 2 (s.proc p).pagetable).length ≤ 3 := by
    intro m
    simp only [tables]
    split_ifs <;> simp
  unfold loadFault
  rw [wp_bind, wp_get]
  dsimp only
  rw [hfind]
  refine wp_zeroPage h.rep (fun hnil hneed => ?_) fun a m hm hzero hlen hpages => ?_
  · have hroom := hneed.room
    rw [hnil, length_nil] at hroom
    have := htwo s.mem
    omega
  -- the page is in hand while it is mapped
  have hbox := hm.box .hand
  rw [hzero] at hbox
  have hk : (S.setBox .hand (some (a, Words.fill 0))).box .hand = some (a, Words.fill 0) := by
    simp [MemMap.setBox]
  have htables : tables m va 2 (s.proc p).pagetable = tables s.mem va 2 (s.proc p).pagetable :=
    tables_congr fun t ht => hpages t (h.rep.tables_not_free (p := []) h.root le_rfl t ht)
  unfold onMem
  rw [wp_bind, wp_zoom]
  by_cases hal : va % PGSIZE = 0
  swap
  · rw [mappages, if_pos hal, wp_panic]
    exact fun hneed => hal hneed.aligned
  refine wp_mono (wp_and (wp_mappages (A := fun _ _ => S.cell (some p) (vpn va) ≠ none) hbox h.root hmax hal
    hres hk h.perm (fun hne _ _ => hne)
    (Q := fun ok m' => ok = true → S.cell (some p) (vpn va) = none ∧ Rep m' (S.setCell (some p) (vpn va)
      (some (pa2pte a ||| (vmaPerm ((s.proc p).vma i).prot).signExtend 64 ||| PTEV, Words.fill 0))))
    (fun hnone m' hrep _ => ⟨hnone, ?_⟩) (fun _ _ h0 => by cases h0))
    (wp_mappages_room hbox h.root hal hmax)) ?_
    fun _ _ hf hneed => hf.1 hneed.cell
  · rwa [MemMap.setBox_setBox_none S h.hand] at hrep
  rintro ok m' ⟨hrep, hroom, htaken⟩
  change ok = true ↔ 3 ≤ m.free.length + (tables m va 2 (s.proc p).pagetable).length at hroom
  change m.free.length ≤ m'.free.length + 2 at htaken
  rw [htables] at hroom
  cases ok with
  | false =>
    rw [if_pos (by rfl), wp_bind, wp_panic]
    intro hneed
    have := hneed.room
    exact absurd (hroom.2 (by omega)) (by decide)
  | true =>
    obtain ⟨hnone, hrep⟩ := hrep rfl
    have hneed : Mapping s S p va := ⟨hal, hnone, by have := hroom.1 rfl; omega⟩
    rw [if_neg (by decide), wp_bind, wp_modify, h.file]
    have hpa : pte2pa (pa2pte a ||| (vmaPerm ((s.proc p).vma i).prot).signExtend 64 ||| PTEV) = a := by
      obtain ⟨hmod, -, hstop⟩ := hm.pageOk
      exact pte2pa_mk (hstop.trans (by decide)) hmod h.perm
    have hin : (S.setCell (some p) (vpn va) (some (pa2pte a |||
        (vmaPerm ((s.proc p).vma i).prot).signExtend 64 ||| PTEV, Words.fill 0))).cell (some p) (vpn va) =
        some (pa2pte a ||| (vmaPerm ((s.proc p).vma i).prot).signExtend 64 ||| PTEV, Words.fill 0) := by
      rw [MemMap.cell_setCell, if_pos ⟨rfl, rfl⟩]
    refine wp_mono (wp_fillPage (s := updVma { s with mem := m' } p i _) h.fs h.ip h.live hrep hres hin
      hpa _ _) ?_ fun _ _ hf => hf.elim
    rintro - t ⟨pg, rfl, hend, hpg⟩
    rw [MemMap.setCell_setCell] at hend
    refine ⟨hneed, _, _, pg, rfl, hend, pteFlags_mk a h.perm, hpg, ?_⟩
    show _ ≤ m'.free.length + 3
    omega

/-! ### Runs of faults -/

theorem vma_counted (j : Fin VMAMAX) : ((counted s p i).proc p).vma j =
    if j = i then oneMore ((s.proc p).vma i) else (s.proc p).vma j := by
  have hself : (counted s p i).proc p =
      { s.proc p with vma := update (s.proc p).vma i (oneMore ((s.proc p).vma i)) } :=
    update_self ..
  rw [hself]
  exact update_apply ..

/-- The counter does not matter for where a region is. -/
theorem findVma_counted (va : ℕ) : findVma ((counted s p i).proc p) va = findVma (s.proc p) va := by
  unfold findVma
  refine congrArg (fun test => List.find? test (List.finRange VMAMAX)) (funext fun j => ?_)
  rw [vma_counted]
  split_ifs with hj
  · rw [hj]
    rfl
  · rfl

theorem Ready.counted (h : Ready s S p i f e) {m : Mem} {S' : KMap} (hrep : Rep m S')
    (hroot : S'.root = S.root) (hbox : S'.box = S.box) :
    Ready { Kernel.counted s p i with mem := m } S' p i f e where
  rep := hrep
  root := by
    rw [hroot, h.root]
    show some _ = some (update s.proc p _ p).pagetable
    rw [update_self]
  hand := by rw [hbox, h.hand]
  fs := h.fs
  file := by
    rw [vma_counted, if_pos rfl]
    exact h.file
  ip := h.ip
  live := h.live
  perm := by
    rw [vma_counted, if_pos rfl]
    exact h.perm

theorem vpn_inj {a b : ℕ} (ha : a % PGSIZE = 0) (hb : b % PGSIZE = 0) (hal : a < MAXVA) (hbl : b < MAXVA)
    (h : vpn a = vpn b) : a = b := by
  have hval := congrArg Fin.val h
  rw [vpn_val hal, vpn_val hbl] at hval
  have hpg : PGSIZE = 4096 := rfl
  rw [hpg] at ha hb
  omega

/-- What faults at the pages `vas` leave: the pages are loaded, and nothing else is mapped or unmapped. -/
structure Loaded (p : Fin NPROC) (i : Fin VMAMAX) (e : Fin NINODE) (vas : List ℕ) (s : Kernel) (S : KMap)
    (u : Kernel) (S' : KMap) : Prop where
  root : S'.root = S.root
  file : u.file = s.file
  region : region p i u = region p i s
  find : ∀ va, findVma (u.proc p) va = findVma (s.proc p) va
  fresh : ∀ va ∈ vas, va % PGSIZE = 0 ∧ S.cell (some p) (vpn va) = none
  rest : ∀ v, (∀ va ∈ vas, v ≠ vpn va) → S'.cell (some p) v = S.cell (some p) v
  pages : ∀ va ∈ vas, ∃ pte pg, S'.cell (some p) (vpn va) = some (pte, pg) ∧
    pteFlags pte = vmaFlags ((s.proc p).vma i) ∧ FilePage s ((s.proc p).vma i) e va pg

theorem Loaded.nil (p : Fin NPROC) (i : Fin VMAMAX) (e : Fin NINODE) (s : Kernel) (S : KMap) :
    Loaded p i e [] s S s S where
  root := rfl
  file := rfl
  region := rfl
  find := fun _ => rfl
  fresh := fun _ hva => absurd hva not_mem_nil
  rest := fun _ _ => rfl
  pages := fun _ hva => absurd hva not_mem_nil

/-- **Faults in a region**, in any order: if they return, their pages were not mapped and are loaded.  They
return if the pages are different ones that are not mapped, and there is memory for each of them. -/
theorem wp_loadFaults {vas : List ℕ} (h : Ready s S p i f e)
    (hvas : ∀ va ∈ vas, findVma (s.proc p) va = some i ∧ va < TRAPFRAME) :
    wp (runs (loadFault p) vas)
      (fun _ u => ∃ S', Ready u S' p i f e ∧ Loaded p i e vas s S u S')
      (fun _ _ => (∀ va ∈ vas, va % PGSIZE = 0 ∧ S.cell (some p) (vpn va) = none) → vas.Nodup →
        s.mem.free.length < 3 * vas.length) s := by
  -- on the faults; the first one leaves the pages of the others as they are
  induction vas generalizing s S with
  | nil => exact ⟨S, h, Loaded.nil p i e s S⟩
  | cons va vas ih =>
    rw [forall_mem_cons] at hvas
    rw [runs, wp_bind, length_cons]
    refine wp_mono (wp_loadFault_maps h hvas.1.1 hvas.1.2) ?_ fun w t hno hmiss _ => ?_
    swap
    · by_contra hle
      obtain ⟨hal, hcell⟩ := hmiss va mem_cons_self
      refine hno ⟨hal, hcell, ?_⟩
      simp only [tables, length_cons]
      omega
    rintro - t ⟨hneed, m, pte, pg, rfl, hrep, hflags, hpage, hfree⟩
    have hready := h.counted hrep rfl rfl
    have hin : ∀ vb ∈ vas, findVma (({ counted s p i with mem := m } : Kernel).proc p) vb = some i ∧
        vb < TRAPFRAME := fun vb hvb => ⟨(findVma_counted vb).trans (hvas.2 vb hvb).1, (hvas.2 vb hvb).2⟩
    have hmax : ∀ vb, vb < TRAPFRAME → vb < MAXVA := fun vb hvb => lt_trans hvb (by decide)
    refine wp_mono (ih hready hin) ?_ fun w u hstop hmiss hnd => ?_
    swap
    · rw [forall_mem_cons] at hmiss
      obtain ⟨hnew, hnd⟩ := nodup_cons.1 hnd
      have hlt := hstop (fun vb hvb => ⟨(hmiss.2 vb hvb).1, ?_⟩) hnd
      · change m.free.length < _ at hlt
        omega
      · rw [MemMap.cell_setCell, if_neg fun hc => ?_, (hmiss.2 vb hvb).2]
        exact hnew (vpn_inj (hmiss.2 vb hvb).1 hneed.aligned (hmax _ (hvas.2 vb hvb).2)
          (hmax _ hvas.1.2) hc.2 ▸ hvb)
    rintro - u ⟨S', hready', hl⟩
    -- a page that has been loaded is not loaded again
    have hne : ∀ vb ∈ vas, vpn vb ≠ vpn va := by
      intro vb hvb heq
      have hnone := (hl.fresh vb hvb).2
      rw [MemMap.cell_setCell, if_pos ⟨rfl, heq⟩] at hnone
      cases hnone
    have hvma : (({ counted s p i with mem := m } : Kernel).proc p).vma i = oneMore ((s.proc p).vma i) :=
      (vma_counted i).trans (if_pos rfl)
    refine ⟨S', hready', ?_⟩
    constructor
    · exact hl.root
    · exact hl.file
    · exact hl.region.trans (region_updVma fun _ => ⟨rfl, rfl, rfl, rfl⟩)
    · exact fun vb => (hl.find vb).trans (findVma_counted vb)
    · refine forall_mem_cons.2 ⟨⟨hneed.aligned, hneed.cell⟩, fun vb hvb => ⟨(hl.fresh vb hvb).1, ?_⟩⟩
      have hnone := (hl.fresh vb hvb).2
      rwa [MemMap.cell_setCell, if_neg fun hc => hne vb hvb hc.2] at hnone
    · intro v hv
      rw [hl.rest v fun vb hvb => hv vb (mem_cons_of_mem va hvb), MemMap.cell_setCell,
        if_neg fun hc => hv va mem_cons_self hc.2]
    · intro vb hvb
      rcases mem_cons.1 hvb with rfl | hvb'
      · refine ⟨pte, pg, ?_, hflags, hpage⟩
        rw [hl.rest _ fun vb hvb => (hne vb hvb).symm, MemMap.cell_setCell, if_pos ⟨rfl, rfl⟩]
      · obtain ⟨pte', pg', hcell, hflags', hpage'⟩ := hl.pages vb hvb'
        rw [hvma] at hflags' hpage'
        exact ⟨pte', pg', hcell, hflags', hpage'⟩

theorem loadFaults_run {vas : List ℕ} (h : Ready s S p i f e)
    (hvas : ∀ va ∈ vas, findVma (s.proc p) va = some i ∧ va < TRAPFRAME)
    (hmiss : ∀ va ∈ vas, va % PGSIZE = 0 ∧ S.cell (some p) (vpn va) = none) (hnd : vas.Nodup)
    (hroom : 3 * vas.length ≤ s.mem.free.length) :
    ∃ u S', runs (loadFault p) vas s = .ok () u ∧ Ready u S' p i f e ∧ Loaded p i e vas s S u S' := by
  obtain ⟨⟨⟩, u, hrun, S', hready, hl⟩ := wp_returns (wp_loadFaults h hvas) fun _ _ hstop =>
    absurd (hstop hmiss hnd) (not_lt.2 hroom)
  exact ⟨u, S', hrun, hready, hl⟩

/-! ### New mappings -/

theorem vmaPerm_lt {prot : BitVec 32} (h : prot.toNat < 8) :
    ((vmaPerm prot).signExtend 64).toNat < 1024 := by
  have hall : ∀ k < 8, ((vmaPerm (BitVec.ofNat 32 k)).signExtend 64).toNat < 1024 := by decide
  have := hall prot.toNat h
  rwa [BitVec.ofNat_toNat, BitVec.setWidth_eq] at this

section Mapping

variable {idx : Fin VMAMAX} {len prot flags off fd : BitVec 32}

theorem proc_withMapping : (s.withMapping p idx f len prot flags off).proc p =
    { s.proc p with
      vmaTop := sub64 (s.proc p).vmaTop (sext64 len)
      vma := update (s.proc p).vma idx { (s.proc p).vma idx with
        valid := true, addr := sub64 (s.proc p).vmaTop (sext64 len), len := len, flags := flags, off := off
        prot := prot, f := some f } } :=
  update_self ..

/-- The addresses of a new mapping belong to its region. -/
theorem findVma_withMapping (hlay : (s.proc p).space.Ok) (hlen : 0 < len.toInt)
    (hfit : len.toNat ≤ (s.proc p).vmaTop) (hlo : (s.proc p).vmaTop - len.toNat ≤ va)
    (hhi : va < (s.proc p).vmaTop) :
    findVma ((s.withMapping p idx f len prot flags off).proc p) va = some idx := by
  have htop : (s.proc p).vmaTop ≤ TRAPFRAME := hlay.top_le
  have h64 : TRAPFRAME < 2 ^ 64 := by decide
  have hs : sext64 len = len.toNat := sext64_of_nonneg hlen.le
  have hself : ((s.withMapping p idx f len prot flags off).proc p).vma idx = { (s.proc p).vma idx with
      valid := true, addr := (s.proc p).vmaTop - len.toNat, len := len, flags := flags, off := off
      prot := prot, f := some f } := by
    rw [proc_withMapping]
    dsimp only
    rw [update_self, hs, sub64_eq hfit (by omega)]
  have hin : (((s.withMapping p idx f len prot flags off).proc p).vma idx).addr ≤ va ∧
      va < add64 (((s.withMapping p idx f len prot flags off).proc p).vma idx).addr
        (sext64 (((s.withMapping p idx f len prot flags off).proc p).vma idx).len) ∧
      (((s.withMapping p idx f len prot flags off).proc p).vma idx).valid = true := by
    rw [hself]
    dsimp only
    rw [hs, add64_eq (by omega)]
    exact ⟨hlo, by omega, rfl⟩
  cases hfind : findVma ((s.withMapping p idx f len prot flags off).proc p) va with
  | none =>
    have := find?_eq_none.1 hfind idx (mem_finRange idx)
    exact absurd hin (by simpa using this)
  | some j =>
    refine congrArg some ?_
    by_contra hj
    -- another region is above the top of the gap
    have hvma : ((s.withMapping p idx f len prot flags off).proc p).vma j = (s.proc p).vma j := by
      rw [proc_withMapping]
      exact update_of_ne hj _ _
    have hfound := find?_some hfind
    simp only [decide_eq_true_eq] at hfound
    rw [hvma] at hfound
    have habove : (s.proc p).vmaTop ≤ ((s.proc p).vma j).addr := hlay.above j hfound.2.2
    omega

/-- A new mapping of a file whose inode was read is ready for faults. -/
theorem ready_withMapping (hrep : Rep s.mem S) (hroot : S.root (some p) = some (s.proc p).pagetable)
    (hhand : S.box .hand = none) (hfs : FsInv s.fs none) (hip : (s.file f).ip = some e) (he : s.fs.Live e)
    (hprot : prot.toNat < 8) : Ready (s.withMapping p idx f len prot flags off) S p idx f e where
  rep := hrep
  root := by rw [proc_withMapping, hroot]
  hand := hhand
  fs := hfs
  file := by
    rw [proc_withMapping]
    dsimp only
    rw [update_self]
  ip := by
    show (update s.file f _ f).ip = some e
    rwa [update_self]
  live := he
  perm := by
    rw [proc_withMapping]
    dsimp only
    rw [update_self]
    exact vmaPerm_lt hprot

end Mapping

/-! ### A fault maps the page -/

theorem hasFlag_vmaFlags (v : Vma) : hasFlag (vmaFlags v) PTEU = true := by
  have hsplit : vmaFlags v = ((v.prot <<< 1).signExtend 64 ||| PTEV) ||| PTEU := by
    unfold vmaFlags vmaPerm
    rw [BitVec.signExtend_or, show (0x11#32).signExtend 64 = PTEV ||| PTEU from by decide]
    ac_rfl
  rw [hsplit]
  exact hasFlag_or_self (by decide)

theorem user_of_flags {pte : BitVec 64} {v : Vma} (h : pteFlags pte = vmaFlags v) :
    hasFlag pte PTEU = true := by
  rw [← hasFlag_pteFlags (by decide), h]
  exact hasFlag_vmaFlags v

/-- The process that reads, with a mapping of two pages of its file. -/
def viewer (prot flags : BitVec 32) : Kernel := reader.withMapping 0 0 0 8192 prot flags 0

theorem ready_viewer (prot flags : BitVec 32) (hprot : prot.toNat < 8) :
    ∃ S, Ready (viewer prot flags) S 0 0 0 0 ∧
      ∀ va, 4096 ≤ va → va < MAXVA → S.cell (some 0) (vpn va) = none := by
  obtain ⟨S, hrep, hroot, hbox, -, hcell⟩ := rep_pageMem
  refine ⟨S, ready_withMapping hrep hroot (by rw [hbox]) grownFs_inv rfl grownFs_live hprot, ?_⟩
  intro va hlo hhi
  refine hcell _ ?_
  rw [vpn_val hhi]
  omega

theorem pageMem_free : 3 * (1 + 3) ≤ pageMem.free.length := by
  decide +kernel

-- evaluated together: an address that is not the start of a page, and a fault without memory
theorem fault_evaluated : findVma (mapped.proc 0) (TRAPFRAME - 4095) = some 0 ∧
    (loadFault 0 (TRAPFRAME - 4095) mapped).stopped = some (.panic "mappages: va not aligned") ∧
    (loadFault 0 (TRAPFRAME - 4096) { mapped with mem := { mapped.mem with free := [] } }).stopped =
      some (.panic "kerneltrap") := by
  decide +kernel

theorem viewer_loads (prot flags : BitVec 32) (hprot : prot.toNat < 8)
    (hfind : ∀ va ∈ [TRAPFRAME - 4096, TRAPFRAME - 8192], findVma ((viewer prot flags).proc 0) va =
    some 0) :
    ∃ S u S', Ready (viewer prot flags) S 0 0 0 0 ∧
    (∀ va, 4096 ≤ va → va < MAXVA → S.cell (some 0) (vpn va) = none) ∧
    runs (loadFault 0) [TRAPFRAME - 4096, TRAPFRAME - 8192] (viewer prot flags) = .ok () u ∧
    Ready u S' 0 0 0 0 ∧ Loaded 0 0 0 [TRAPFRAME - 4096, TRAPFRAME - 8192] (viewer prot flags) S u S' := by
  obtain ⟨S, hready, hcell⟩ := ready_viewer prot flags hprot
  have hroom : 3 * [TRAPFRAME - 4096, TRAPFRAME - 8192].length ≤ (viewer prot flags).mem.free.length :=
    le_trans (by decide) pageMem_free
  have hlt : ∀ va ∈ [TRAPFRAME - 4096, TRAPFRAME - 8192], va < TRAPFRAME := by decide
  have hmiss : ∀ va ∈ [TRAPFRAME - 4096, TRAPFRAME - 8192],
      va % PGSIZE = 0 ∧ S.cell (some 0) (vpn va) = none := by
    simp only [forall_mem_cons, not_mem_nil, false_implies, implies_true, and_true]
    exact ⟨⟨by decide, hcell _ (by decide) (by decide)⟩, by decide, hcell _ (by decide) (by decide)⟩
  obtain ⟨u, S', hrun, hready', hl⟩ := loadFaults_run hready
    (fun va hva => ⟨hfind va hva, hlt va hva⟩) hmiss
    (by decide) hroom
  exact ⟨S, u, S', hready, hcell, hrun, hready', hl⟩

/-- The process that reads after it has loaded the two pages of a shared mapping. -/
theorem loaded_viewer : ∃ u S, Ready u S 0 0 0 0 ∧ (u.file 0).type = .inode ∧ 0 < (u.file 0).ref ∧
    findVma (u.proc 0) (TRAPFRAME - 8192) = some 0 ∧ ((u.proc 0).vma 0).range =
      Set.Ico (TRAPFRAME - 8192) TRAPFRAME ∧
    ((u.proc 0).vma 0).bound = TRAPFRAME ∧ S.cell (some 0) (vpn TRAPFRAME) = none ∧
    ∀ v : Vpn, (TRAPFRAME - 8192) / PGSIZE ≤ v.val → v.val < TRAPFRAME / PGSIZE →
      ∃ pte pg, S.cell (some 0) v = some (pte, pg) ∧ hasFlag pte PTEU = true := by
  obtain ⟨S, u, S', hready, hnone, -, hready', hl⟩ := viewer_loads 3 1 (by decide) (by decide)
  obtain ⟨-, -, hrange, hbound, -⟩ := region_eq hl.region
  refine ⟨u, S', hready', by rw [hl.file]; rfl, by rw [hl.file]; decide, ?_, ?_, ?_, ?_, fun v hlo hhi => ?_⟩
  · rw [hl.find]
    decide
  · rw [hrange]
    exact congrArg₂ Set.Ico (by decide) (by decide)
  · rw [hbound]
    decide
  · rw [hl.rest _ (by decide)]
    exact hnone _ (by decide) (by decide)
  · have hv : v = vpn (TRAPFRAME - 8192) ∨ v = vpn (TRAPFRAME - 4096) := by
      have hlast : TRAPFRAME / PGSIZE = (TRAPFRAME - 8192) / 4096 + 2 := by decide
      have hfirst : (TRAPFRAME - 8192) / PGSIZE = (TRAPFRAME - 8192) / 4096 := rfl
      have hnext : (TRAPFRAME - 4096) / 4096 = (TRAPFRAME - 8192) / 4096 + 1 := by decide
      have h0 := vpn_val (show TRAPFRAME - 8192 < MAXVA by decide)
      have h1 := vpn_val (show TRAPFRAME - 4096 < MAXVA by decide)
      by_cases h : v.val = (TRAPFRAME - 8192) / 4096
      · exact Or.inl (Fin.ext (by omega))
      · exact Or.inr (Fin.ext (by omega))
    rcases hv with rfl | rfl
    · obtain ⟨pte, pg, hc, hflags, -⟩ := hl.pages (TRAPFRAME - 8192) (by simp)
      exact ⟨pte, pg, hc, user_of_flags hflags⟩
    · obtain ⟨pte, pg, hc, hflags, -⟩ := hl.pages (TRAPFRAME - 4096) (by simp)
      exact ⟨pte, pg, hc, user_of_flags hflags⟩

/-! ### The contents of a mapping -/

/-- The bytes of a page at offset `o` of the region are those of the file from `o` on, and zeros beyond its
end. -/
theorem FilePage.byte_eq {v : Vma} {pg : Page} {o k : ℕ} (h : FilePage s v e va pg) (hfs : FsInv s.fs none)
    (he : s.fs.Live e) (ho : sub64 va v.addr = o) (hlt : o + 4096 < 2 ^ 32) (hk : k < 4096) :
    pg.byte k = ((s.fs.bytes (s.fs.inode e).inum)[o + k]?).getD 0 := by
  have hlen := hfs.length_bytes he
  have hoff : (BitVec.ofNat 32 o).toNat = o := by
    rw [BitVec.toNat_ofNat]
    exact Nat.mod_eq_of_lt (by omega)
  have hpage : (BitVec.ofNat 32 PGSIZE).toNat = 4096 := by decide
  rw [h k hk, ho, Fs.readCount_eq (by rwa [hoff, hpage]), hoff, hpage, getElem?_take,
    getElem?_drop]
  split_ifs with hc
  · rfl
  · rw [getElem?_eq_none (by omega)]

theorem walkaddr_of_none {q : Tbl} {pt : ℕ} {m : Mem} (hrep : Rep m S) (hroot : S.root q = some pt)
    (hc : S.cell q (vpn va) = none) : walkaddr m pt va = 0 := by
  have hempty : S.userPage q va = none := by
    cases hx : S.userPage q va with
    | none => rfl
    | some x =>
      obtain ⟨-, hc', -⟩ := userPage_eq_some.1 hx
      simp [hc] at hc'
  rw [Rep.walkaddr_eq hrep hroot va, hempty]
  rfl

theorem userByte_eq {q : Tbl} {pt k : ℕ} {pte : BitVec 64} {pg : Page} {m : Mem} (hrep : Rep m S)
    (hroot : S.root q = some pt) (hva : va < MAXVA) (hal : va % PGSIZE = 0)
    (hcell : S.cell q (vpn va) = some (pte, pg)) (huser : hasFlag pte PTEU = true) (hk : k < 4096) :
    userByte m pt (va + k) = pg.byte k := by
  have hdown : pgRoundDown (va + k) = va := by
    have hpg : PGSIZE = 4096 := rfl
    unfold pgRoundDown
    rw [hpg] at hal ⊢
    omega
  obtain ⟨-, hwalk, -, hpage⟩ := Rep.userPage_page hrep hroot (userPage_eq_some.2 ⟨hva, hcell, huser⟩)
  unfold userByte
  rw [hdown, hwalk, hpage, Nat.add_sub_cancel_left]

section Contents

variable {len prot flags fd : BitVec 32}

/-- The file of an inode at a place, with zeros beyond its end. -/
def fileAt (s : Kernel) (e : Fin NINODE) (k : ℕ) : Byte := ((s.fs.bytes (s.fs.inode e).inum)[k]?).getD 0

theorem reader_ok : (reader.proc 0).space.Ok := by
  have hnone : ∀ i, ((reader.proc 0).space.vma i).valid ≠ true := fun _ => Bool.false_ne_true
  exact
    { top_le := le_rfl
      top_page := by decide
      heap := by decide
      page := fun i h => absurd h (hnone i)
      above := fun i h => absurd h (hnone i)
      below := fun i h => absurd h (hnone i)
      apart := fun i _ _ h => absurd h (hnone i) }

/-- A mapping of the file of one byte from offset 4096 on, and a load from it. -/
def shiftedFile : List (Fin NPROC × Sys) :=
  [(0, .open (some 2) 0), (0, .mmap 4096 1 2 0 4096), (0, .load (TRAPFRAME - 4096))]

def shifted : Kernel := (runs exec shiftedFile booted).state

theorem shifted_evaluated : (runs exec shiftedFile booted).stopped = none ∧
    ((shifted.proc 0).vma 0).off = 4096 ∧ (shifted.fs.vol.dinode 2).size = 1 ∧
    userByte shifted.mem (shifted.proc 0).pagetable (TRAPFRAME - 4096) = 65 := by
  decide +kernel

end Contents

end Kernel

end Xv6
