import Mathlib
import Xv6.Fs.Owner
import Xv6.Proc.Refs

/-!
# The layout of an address space

`mmap` places a region just below the last one, from the trapframe down, while the heap grows up from
address 0.  `Space` is what the layout depends on: the size, the top of the free gap, and the regions.
The calls are sorted by what they can do to it: most leave all spaces alone, `exec` and `sbrk` change a
size, `fork` copies a space, and the calls on regions change those of the caller.

An `exec` makes the process as large as the headers of the file ask for (`Kernel.programSize`).

Main results: `mapped_layout`, and the run `shortMapping`, which leaves the layout.
-/

namespace Xv6

open Stateful Function

-- unfolding would run the programs
attribute [local irreducible] wp

/-- What the layout of an address space depends on. -/
structure Space where
  sz : ℕ
  top : ℕ
  vma : Fin VMAMAX → Vma

/-- The layout of a process. -/
def Proc.space (pr : Proc) : Space := ⟨pr.sz, pr.vmaTop, pr.vma⟩

/-- One past the last address of a region, as the kernel computes it. -/
def Vma.bound (v : Vma) : ℕ := add64 v.addr (sext64 v.len)

/-- The addresses of a region. -/
def Vma.range (v : Vma) : Set ℕ := { a | v.addr ≤ a ∧ a < v.bound }

/-- The valid regions are page-aligned, pairwise disjoint, below the trapframe and above the heap. -/
structure Space.LaidOut (a : Space) : Prop where
  aligned : ∀ i, (a.vma i).valid = true → PGSIZE ∣ (a.vma i).addr ∧ PGSIZE ∣ (a.vma i).bound
  disjoint : ∀ i j, i ≠ j → (a.vma i).valid = true → (a.vma j).valid = true →
    Disjoint (a.vma i).range (a.vma j).range
  below : ∀ i, (a.vma i).valid = true → (a.vma i).bound ≤ TRAPFRAME
  above : ∀ i, (a.vma i).valid = true → pgRoundUp a.sz ≤ (a.vma i).addr

/-- The invariant: the regions lie between the top of the gap and the trapframe, and the heap below the
top of the gap. -/
structure Space.Ok (a : Space) : Prop where
  top_le : a.top ≤ TRAPFRAME
  top_page : PGSIZE ∣ a.top
  heap : a.sz ≤ a.top
  page : ∀ i, (a.vma i).valid = true → PGSIZE ∣ (a.vma i).addr ∧ PGSIZE ∣ sext64 (a.vma i).len
  above : ∀ i, (a.vma i).valid = true → a.top ≤ (a.vma i).addr
  below : ∀ i, (a.vma i).valid = true → (a.vma i).addr + sext64 (a.vma i).len ≤ TRAPFRAME
  apart : ∀ i j, i ≠ j → (a.vma i).valid = true → (a.vma j).valid = true →
    (a.vma i).addr + sext64 (a.vma i).len ≤ (a.vma j).addr ∨
      (a.vma j).addr + sext64 (a.vma j).len ≤ (a.vma i).addr

/-- The same size and gap, and no other regions. -/
structure Space.Sub (b a : Space) : Prop where
  sz : b.sz = a.sz
  top : b.top = a.top
  vma : ∀ i, (b.vma i).valid = true →
    (a.vma i).valid = true ∧ (b.vma i).addr = (a.vma i).addr ∧ (b.vma i).len = (a.vma i).len

namespace Space

variable {a b : Space}

theorem sub_refl (a : Space) : a.Sub a := ⟨rfl, rfl, fun _ h => ⟨h, rfl, rfl⟩⟩

theorem Ok.sub (h : a.Ok) (hb : b.Sub a) : b.Ok where
  top_le := by rw [hb.top]; exact h.top_le
  top_page := by rw [hb.top]; exact h.top_page
  heap := by rw [hb.sz, hb.top]; exact h.heap
  page := fun i hi => by
    obtain ⟨hv, haddr, hlen⟩ := hb.vma i hi
    rw [haddr, hlen]
    exact h.page i hv
  above := fun i hi => by
    obtain ⟨hv, haddr, -⟩ := hb.vma i hi
    rw [haddr, hb.top]
    exact h.above i hv
  below := fun i hi => by
    obtain ⟨hv, haddr, hlen⟩ := hb.vma i hi
    rw [haddr, hlen]
    exact h.below i hv
  apart := fun i j hij hi hj => by
    obtain ⟨hvi, hai, hli⟩ := hb.vma i hi
    obtain ⟨hvj, haj, hlj⟩ := hb.vma j hj
    rw [hai, hli, haj, hlj]
    exact h.apart i j hij hvi hvj

theorem Ok.resize (h : a.Ok) {sz : ℕ} (hsz : sz ≤ a.top) : ({ a with sz := sz } : Space).Ok :=
  { h with heap := hsz }

theorem Ok.pgRoundUp_le (h : a.Ok) : pgRoundUp a.sz ≤ a.top := by
  obtain ⟨k, hk⟩ := h.top_page
  have hheap := h.heap
  have htop : a.top ≤ 2 ^ 38 - 4096 - 4096 := h.top_le
  rw [show PGSIZE = 4096 from rfl] at hk
  show (a.sz + 4095) % 2 ^ 64 / 4096 * 4096 ≤ a.top
  rw [Nat.mod_eq_of_lt (by omega)]
  omega

theorem Ok.bound_eq (h : a.Ok) {i : Fin VMAMAX} (hi : (a.vma i).valid = true) :
    (a.vma i).bound = (a.vma i).addr + sext64 (a.vma i).len := by
  have := h.below i hi
  exact Nat.mod_eq_of_lt (lt_of_le_of_lt this (by decide))

theorem Ok.laidOut (h : a.Ok) : a.LaidOut where
  aligned := fun i hi => by
    rw [h.bound_eq hi]
    exact ⟨(h.page i hi).1, (Nat.dvd_add_right (h.page i hi).1).2 (h.page i hi).2⟩
  disjoint := fun i j hij hi hj => by
    rw [Set.disjoint_left]
    rintro x ⟨hxi, hxi'⟩ ⟨hxj, hxj'⟩
    rw [h.bound_eq hi] at hxi'
    rw [h.bound_eq hj] at hxj'
    rcases h.apart i j hij hi hj with hle | hle <;> omega
  below := fun i hi => by
    rw [h.bound_eq hi]
    exact h.below i hi
  above := fun i hi => h.pgRoundUp_le.trans (h.above i hi)

/-- **`mmap`** puts a page-aligned region below the gap's top. -/
theorem Ok.map (h : a.Ok) {i : Fin VMAMAX} {v : Vma} {n : ℕ} (hn : sext64 v.len = n) (hp : PGSIZE ∣ n)
    (hfit : a.sz + n ≤ a.top) (hv : v.addr = a.top - n) :
    (⟨a.sz, a.top - n, update a.vma i v⟩ : Space).Ok := by
  have htop := h.top_le
  have hpage : PGSIZE ∣ a.top - n := Nat.dvd_sub h.top_page hp
  set b := update a.vma i v
  -- a region is the new one or an old one, and those lie above it
  have hcase : ∀ j, (b j = v ∧ j = i) ∨ (b j = a.vma j ∧ j ≠ i) := by
    intro j
    by_cases hji : j = i
    · exact Or.inl ⟨by rw [hji]; exact update_self .., hji⟩
    · exact Or.inr ⟨update_of_ne hji .., hji⟩
  constructor
  · show a.top - n ≤ TRAPFRAME
    omega
  · exact hpage
  · show a.sz ≤ a.top - n
    omega
  · intro j hj
    change (b j).valid = true at hj
    show PGSIZE ∣ (b j).addr ∧ PGSIZE ∣ sext64 (b j).len
    rcases hcase j with ⟨he, -⟩ | ⟨he, -⟩
    · rw [he, hv, hn]
      exact ⟨hpage, hp⟩
    · rw [he] at hj ⊢
      exact h.page j hj
  · intro j hj
    change (b j).valid = true at hj
    show a.top - n ≤ (b j).addr
    rcases hcase j with ⟨he, -⟩ | ⟨he, -⟩
    · rw [he, hv]
    · rw [he] at hj ⊢
      have := h.above j hj
      omega
  · intro j hj
    change (b j).valid = true at hj
    show (b j).addr + sext64 (b j).len ≤ TRAPFRAME
    rcases hcase j with ⟨he, -⟩ | ⟨he, -⟩
    · rw [he, hv, hn]
      omega
    · rw [he] at hj ⊢
      exact h.below j hj
  · intro j k hjk hj hk
    change (b j).valid = true at hj
    change (b k).valid = true at hk
    show (b j).addr + sext64 (b j).len ≤ (b k).addr ∨ (b k).addr + sext64 (b k).len ≤ (b j).addr
    rcases hcase j with ⟨hej, hji⟩ | ⟨hej, -⟩
    · rcases hcase k with ⟨-, hki⟩ | ⟨hek, -⟩
      · exact absurd (hji.trans hki.symm) hjk
      · rw [hek] at hk ⊢
        rw [hej, hv, hn]
        have := h.above k hk
        omega
    · rw [hej] at hj ⊢
      rcases hcase k with ⟨hek, -⟩ | ⟨hek, -⟩
      · rw [hek, hv, hn]
        have := h.above j hj
        omega
      · rw [hek] at hk ⊢
        exact h.apart j k hjk hj hk

end Space

namespace Kernel

variable {α : Type} {s : Kernel} {p : Fin NPROC}

/-- The spaces of the processes, and their states. -/
def spaces (s : Kernel) : Fin NPROC → ProcState × Space := fun q => ((s.proc q).state, (s.proc q).space)

/-- The spaces of the other processes. -/
def others (p : Fin NPROC) (s : Kernel) : Fin NPROC → Option (ProcState × Space) :=
  fun q => if q = p then none else some (s.spaces q)

/-- Everything but the size of one process. -/
def unsized (p : Fin NPROC) (s : Kernel) : Fin NPROC → ProcState × Space :=
  fun q => if q = p then ((s.spaces q).1, { (s.spaces q).2 with sz := 0 }) else s.spaces q

/-- Stopping does not matter here. -/
abbrev anyStop : Stop → Prop := fun _ => True

/-- The program leaves the spaces alone. -/
abbrev Spares (x : Prog Kernel α) : Prop := Keeps spaces anyStop x

instance : View spaces where
  same := fun {s t} h => by
    have hproc : s.proc = t.proc := congrArg Prod.fst h
    unfold spaces
    rw [hproc]

theorem spares {x : Prog Kernel α} (h : Keeps spaces RefSafe x) : Spares x := h.mono fun _ _ => trivial

theorem others_of_spaces {t : Kernel} (h : t.spaces = s.spaces) (p : Fin NPROC) :
    others p t = others p s := by
  unfold others
  rw [h]

theorem unsized_of_spaces {t : Kernel} (h : t.spaces = s.spaces) (p : Fin NPROC) :
    unsized p t = unsized p s := by
  unfold unsized
  rw [h]

/-! ### Updates -/

theorem spaces_updProc_of_ne {q : Fin NPROC} (h : q ≠ p) (g : Proc → Proc) :
    (s.updProc p g).spaces q = s.spaces q := by
  unfold spaces updProc
  dsimp only
  rw [update_of_ne h]

theorem spaces_updProc_self (g : Proc → Proc) :
    (s.updProc p g).spaces p = ((g (s.proc p)).state, (g (s.proc p)).space) := by
  unfold spaces updProc
  dsimp only
  rw [update_self]

theorem spaces_updProc {g : Proc → Proc} (h : (g (s.proc p)).space = (s.proc p).space)
    (hs : (g (s.proc p)).state = (s.proc p).state) : (s.updProc p g).spaces = s.spaces := by
  funext q
  by_cases hq : q = p
  · rw [hq, spaces_updProc_self, h, hs]
    rfl
  · rw [spaces_updProc_of_ne hq]

theorem others_updProc (g : Proc → Proc) : others p (s.updProc p g) = others p s := by
  funext q
  unfold others
  split_ifs with hq
  · rfl
  · rw [spaces_updProc_of_ne hq]

theorem spares_updProc {g : Proc → Proc} (p : Fin NPROC) (h : ∀ pr, (g pr).space = pr.space)
    (hs : ∀ pr, (g pr).state = pr.state) : Spares (Prog.modify fun s => s.updProc p g) :=
  keeps_modify fun _ => spaces_updProc (h _) (hs _)

/-! ### Calls that leave the spaces alone -/

theorem spares_panic (msg : String) : Spares (Prog.panic msg : Prog Kernel α) := keeps_panic trivial

theorem spares_onMem {x : Prog Mem α} (h : Stops VmPanic x) : Spares (onMem x) := spares (quiet_onMem h)

theorem spares_onFs {x : Prog Fs α} (h : Stops FsPanic x) : Spares (onFs x) := spares (quiet_onFs h)

theorem spares_filealloc : Spares filealloc := by
  refine keeps_get_bind fun s => ?_
  cases (List.finRange NFILE).find? fun f => decide ((s.file f).ref = 0) with
  | none => exact (wp_pure _).2 rfl
  | some f =>
    rw [wp_bind, wp_set, wp_pure]
    rfl

theorem spares_filedup (f : Fin NFILE) : Spares (filedup f) := by
  refine keeps_get_bind fun s => ?_
  split_ifs
  · exact (wp_panic _).2 trivial
  · exact (wp_set _).2 rfl

theorem spares_fileclose (f : Fin NFILE) : Spares (fileclose f) := by
  refine keeps_get_bind fun s => ?_
  have hlast : ∀ {β : Type} {x : Prog Kernel β} (t : Kernel), Spares x → t.spaces = s.spaces →
      wp x (fun _ u => u.spaces = s.spaces) (fun w _ => anyStop w) t := by
    intro β x t hx ht
    exact hx.wp_post fun _ u hu => hu.trans ht
  have hput : Spares (do
      let e ← deref (s.file f).ip
      onFs (Fs.iput e)) := keeps_bind (spares (quiet_deref _)) fun e => spares_onFs (Fs.iput_stops e)
  dsimp only
  split_ifs
  · exact (wp_panic _).2 trivial
  · exact (wp_set _).2 rfl
  · rw [wp_bind, wp_set]
    cases (s.file f).type with
    | pipe => exact hlast _ (spares (quiet_pipeclose _ _)) rfl
    | inode => exact hlast _ hput rfl
    | device => exact hlast _ hput rfl
    | none => exact (wp_pure _).2 rfl

theorem spares_setOfile (p : Fin NPROC) (fd : Fin NOFILE) (f : Option (Fin NFILE)) :
    Spares (Prog.modify fun s => s.setOfile p fd f) := spares_updProc p (fun _ => rfl) fun _ => rfl

theorem spares_fdalloc (p : Fin NPROC) (f : Fin NFILE) : Spares (fdalloc p f) := by
  refine keeps_get_bind fun s => ?_
  cases (List.finRange NOFILE).find? fun fd => decide ((s.proc p).ofile fd = none) with
  | none => exact (wp_pure _).2 rfl
  | some fd =>
    rw [wp_bind, wp_set, wp_pure]
    exact spaces_updProc rfl rfl

theorem spares_updFile {g : File → File} (f : Fin NFILE) :
    Spares (Prog.modify fun s => s.updFile f g) := keeps_modify fun _ => rfl

theorem spares_sysDup (p : Fin NPROC) (fd : Fin NOFILE) : Spares (sysDup p fd) := by
  refine keeps_bind keeps_get fun s => ?_
  cases (s.proc p).ofile fd with
  | none => exact keeps_pure _
  | some f =>
    refine keeps_bind (spares_fdalloc p f) fun r => ?_
    cases r with
    | none => exact keeps_pure _
    | some _ => exact spares_filedup f

theorem spares_sysClose (p : Fin NPROC) (fd : Fin NOFILE) : Spares (sysClose p fd) := by
  refine keeps_bind keeps_get fun s => ?_
  cases (s.proc p).ofile fd with
  | none => exact keeps_pure _
  | some f => exact keeps_bind (spares_setOfile p fd none) fun _ => spares_fileclose f

theorem spares_sysOpen (p : Fin NPROC) (path : Option ℕ) (omode : BitVec 32) :
    Spares (sysOpen p path omode) := by
  cases path with
  | none => exact keeps_pure _
  | some inum =>
    refine keeps_bind (spares_onFs (Fs.iget_stops _)) fun e => keeps_bind
      (spares_onFs (Fs.ilock_stops _)) fun _ => keeps_bind keeps_get fun s => ?_
    refine keeps_ite (fun _ => spares_onFs (Fs.iput_stops _)) fun _ => ?_
    refine keeps_bind spares_filealloc fun r => ?_
    cases r with
    | none => exact spares_onFs (Fs.iput_stops _)
    | some f =>
      refine keeps_bind (spares_fdalloc p f) fun r => ?_
      cases r with
      | none => exact keeps_bind (spares_fileclose f) fun _ => spares_onFs (Fs.iput_stops _)
      | some fd =>
        exact keeps_bind (spares_updFile f) fun _ => keeps_when fun _ => spares_onFs (Fs.itrunc_stops _)

theorem spares_pipeBad (f g : Option (Fin NFILE)) : Spares (pipeBad f g) := by
  cases f with
  | none =>
    cases g with
    | none => exact keeps_pure _
    | some g => exact keeps_bind (spares_fileclose g) fun _ => keeps_pure _
  | some f =>
    refine keeps_bind (spares_fileclose f) fun _ => ?_
    cases g with
    | none => exact keeps_pure _
    | some g => exact keeps_bind (spares_fileclose g) fun _ => keeps_pure _

theorem spares_sysPipe (p : Fin NPROC) (fdarray : ℕ) : Spares (sysPipe p fdarray) := by
  have halloc : Spares pipealloc := by
    refine keeps_bind spares_filealloc fun r => ?_
    cases r with
    | none => exact spares_pipeBad _ _
    | some f0 =>
      refine keeps_bind spares_filealloc fun r => ?_
      cases r with
      | none => exact spares_pipeBad _ _
      | some f1 =>
        exact keeps_bind (spares_onMem kalloc_stops) fun pi => keeps_ite
          (fun _ => spares_pipeBad _ _) fun _ => keeps_bind (keeps_modify fun _ => rfl) fun _ =>
          keeps_bind (spares_updFile f0) fun _ => keeps_bind (spares_updFile f1) fun _ => keeps_pure _
  refine keeps_bind halloc fun r => ?_
  cases r with
  | none => exact keeps_pure _
  | some fg =>
    obtain ⟨rf, wf⟩ := fg
    have hclose : Spares (do
        fileclose rf
        fileclose wf) := keeps_bind (spares_fileclose rf) fun _ => spares_fileclose wf
    refine keeps_bind (spares_fdalloc p rf) fun r => ?_
    cases r with
    | none => exact hclose
    | some fd0 =>
      refine keeps_bind (spares_fdalloc p wf) fun r => ?_
      cases r with
      | none => exact keeps_bind (spares_setOfile p fd0 none) fun _ => hclose
      | some fd1 =>
        have hend : ∀ ok : Bool, Spares (if (!ok) = true then do
            Prog.modify fun s => s.setOfile p fd0 none
            Prog.modify fun s => s.setOfile p fd1 none
            fileclose rf
            fileclose wf
          else pure ()) := fun ok => keeps_when fun _ => keeps_bind (spares_setOfile p fd0 none) fun _ =>
            keeps_bind (spares_setOfile p fd1 none) fun _ => hclose
        refine keeps_bind keeps_get fun _ => keeps_bind (spares (quiet_copyOut _ _ _)) fun ok0 => ?_
        exact keeps_ite (fun _ => keeps_bind (spares (quiet_copyOut _ _ _)) fun ok => hend ok)
          fun _ => keeps_bind (keeps_pure _) fun ok => hend ok

/-! ### Sizes -/

theorem keeps_unsized {x : Prog Kernel α} (h : Spares x) (p : Fin NPROC) :
    Keeps (unsized p) anyStop x :=
  ⟨fun _ => h.wp_post (fun _ _ ht => unsized_of_spaces ht p)⟩

theorem unsized_updProc {g : Proc → Proc} (h : (g (s.proc p)).vmaTop = (s.proc p).vmaTop)
    (hv : (g (s.proc p)).vma = (s.proc p).vma) (hs : (g (s.proc p)).state = (s.proc p).state) :
    unsized p (s.updProc p g) = unsized p s := by
  funext q
  unfold unsized
  split_ifs with hq
  · rw [hq, spaces_updProc_self]
    unfold Proc.space spaces
    rw [h, hv, hs]
    rfl
  · rw [spaces_updProc_of_ne hq]

/-- `exec` changes the size of the caller and no other part of a space. -/
theorem unsized_execCommit (p : Fin NPROC) (pagetable sz entry : ℕ) (argv : List (List Byte)) :
    Keeps (unsized p) anyStop (execCommit p pagetable sz entry argv) := by
  have hs : ∀ {β : Type} {x : Prog Kernel β}, Spares x → Keeps (unsized p) anyStop x :=
    fun h => keeps_unsized h p
  have hbad : ∀ a b c, Keeps (unsized p) anyStop (execBad a b c) := fun a b c =>
    hs (spares (quiet_execBad a b c))
  have hreg : ∀ a b c, Keeps (unsized p) anyStop (setReg a b c) := fun a b c =>
    hs (spares (quiet_setReg a b c))
  refine keeps_bind keeps_get fun s => keeps_bind (hs (spares_onMem (uvmalloc_stops _ _ _ _)))
    fun sz1 => keeps_ite (fun _ => hbad _ _ _) fun _ => ?_
  refine keeps_bind (hs (spares_onMem (uvmclear_stops _ _))) fun _ => keeps_bind
    (hs (spares (quiet_pushArgs _ _ _ _))) fun r => ?_
  cases r with
  | none => exact hbad _ _ _
  | some sp =>
    refine keeps_bind (hreg _ _ _) fun _ => keeps_bind (keeps_modify fun _ => unsized_updProc rfl rfl rfl)
      fun _ => keeps_bind (hreg _ _ _) fun _ => keeps_bind (hreg _ _ _) fun _ => keeps_bind
      (hs (spares (quiet_procFreepagetable _ _))) fun _ => keeps_pure _

theorem unsized_sysExec (p : Fin NPROC) (path : Option ℕ) (uargv : ℕ) :
    Keeps (unsized p) anyStop (sysExec p path uargv) := by
  have hs : ∀ {β : Type} {x : Prog Kernel β}, Spares x → Keeps (unsized p) anyStop x :=
    fun h => keeps_unsized h p
  have hbad : ∀ a b c, Keeps (unsized p) anyStop (execBad a b c) := fun a b c =>
    hs (spares (quiet_execBad a b c))
  have hprog : ∀ argv, Keeps (unsized p) anyStop (execProg p path argv) := by
    intro argv
    cases path with
    | none => exact keeps_pure _
    | some inum =>
      refine keeps_bind (hs (spares_onFs (Fs.iget_stops _))) fun e => keeps_bind
        (hs (spares_onFs (Fs.ilock_stops _))) fun _ => keeps_bind
        (hs (spares (quiet_readStruct _ _ _))) fun r => ?_
      cases r with
      | none => exact hbad _ _ _
      | some bytes =>
        refine keeps_ite (fun _ => hbad _ _ _) fun _ => keeps_bind keeps_get fun s => keeps_bind
          (hs (spares_onMem (procPagetable_stops _))) fun pagetable => keeps_ite
          (fun _ => hbad _ _ _) fun _ => ?_
        exact keeps_bind (hs (spares (quiet_loadSegments _ _ _ _ _))) fun r => keeps_ite
          (fun _ => hbad _ _ _) fun _ => keeps_bind (hs (spares_onFs (Fs.iput_stops _))) fun _ =>
          unsized_execCommit _ _ _ _ _
  refine keeps_bind (hs (spares (quiet_fetchArgs _ _ _ _ _ _))) fun r => ?_
  obtain ⟨pages, argv⟩ := r
  have hfree := hs (spares (quiet_freeArgs pages))
  cases argv with
  | none => exact hfree
  | some argv => exact keeps_bind (hprog argv) fun _ => hfree

theorem unsized_growproc (p : Fin NPROC) (n : BitVec 32) : Keeps (unsized p) anyStop (growproc p n) := by
  have hs : ∀ {β : Type} {x : Prog Kernel β}, Spares x → Keeps (unsized p) anyStop x :=
    fun h => keeps_unsized h p
  have hset : ∀ sz, Keeps (unsized p) anyStop (do
      Prog.modify fun s => s.updProc p fun pr => { pr with sz := sz }
      return true) := fun sz =>
    keeps_bind (keeps_modify fun _ => unsized_updProc rfl rfl rfl) fun _ => keeps_pure _
  refine keeps_bind keeps_get fun s => keeps_ite (fun _ => ?_) fun _ => keeps_when fun _ => ?_
  · exact keeps_bind (hs (spares_onMem (uvmalloc_stops _ _ _ _))) fun sz => keeps_unless fun _ => hset sz
  · exact keeps_bind (hs (spares_onMem (uvmdealloc_stops _ _ _))) fun sz => hset sz

theorem wp_allocLoop_value (pagetable oldsz newsz : ℕ) (xperm : BitVec 32) (fuel a : ℕ) (m : Mem) :
    wp (allocLoop pagetable oldsz newsz xperm fuel a) (fun r _ => r = 0 ∨ r = newsz)
      (fun w _ => anyStop w) m := by
  induction fuel generalizing a m with
  | zero => exact (wp_pure _).2 (Or.inr rfl)
  | succ fuel ih =>
    have hfail : ∀ b m, wp (do
        let _ ← uvmdealloc pagetable b oldsz
        return 0) (fun r _ => r = 0 ∨ r = newsz) (fun w _ => anyStop w) m := by
      intro b m
      exact (uvmdealloc_stops _ _ _).wp_seq_any fun _ _ _ => (wp_pure _).2 (Or.inl rfl)
    rw [allocLoop]
    split_ifs with ha
    · refine kalloc_stops.wp_seq_any fun mem m₁ _ => ?_
      split_ifs with h0
      · exact hfail _ _
      · refine (memset_stops _ _).wp_seq_any fun _ m₂ _ => ?_
        refine (mappages_stops _ _ _ _ _).wp_seq_any fun ok m₃ _ => ?_
        split_ifs with hok
        · exact (kfree_stops _).wp_seq_any fun _ m₄ _ => hfail _ _
        · exact ih _ _
    · exact (wp_pure _).2 (Or.inr rfl)

theorem wp_uvmalloc_value (pagetable oldsz newsz : ℕ) (xperm : BitVec 32) (m : Mem) :
    wp (uvmalloc pagetable oldsz newsz xperm) (fun r _ => r = 0 ∨ r = max oldsz newsz)
      (fun w _ => anyStop w) m := by
  unfold uvmalloc
  split_ifs with h
  · exact (wp_pure _).2 (Or.inr (max_eq_left h.le).symm)
  · refine wp_post (wp_allocLoop_value _ _ _ _ _ _ _) fun r _ hr => ?_
    rwa [max_eq_right (by omega)]

theorem wp_uvmdealloc_value (pagetable oldsz newsz : ℕ) (m : Mem) :
    wp (uvmdealloc pagetable oldsz newsz) (fun r _ => r = min oldsz newsz) (fun w _ => anyStop w) m := by
  unfold uvmdealloc
  split_ifs with h h'
  · exact (wp_pure _).2 (min_eq_left h).symm
  · exact (uvmunmap_stops _ _ _ _).wp_seq_any fun _ _ _ => (wp_pure _).2 (min_eq_right (by omega)).symm
  · exact (wp_pure _).2 (min_eq_right (by omega)).symm

/-- `sbrk` reaches the size it is asked for, or leaves the size. -/
theorem wp_growproc_sz (n : BitVec 32) : wp (growproc p n) (fun _ t =>
    (t.proc p).sz ≤ (s.proc p).sz ∨ 0 < n.toInt ∧ (t.proc p).sz = add64 (s.proc p).sz (sext64 n))
    (fun w _ => anyStop w) s := by
  have hset : ∀ (t : Kernel) (sz : ℕ), ((t.updProc p fun pr => { pr with sz := sz }).proc p).sz = sz := by
    intro t sz
    show (update t.proc p _ p).sz = sz
    rw [update_self]
  have hproc : ∀ {β : Type} {x : Prog Mem β} {t : Kernel} {P : β → Mem → Prop},
      wp x P (fun w _ => anyStop w) t.mem →
      wp (onMem x) (fun b u => P b u.mem ∧ u.proc = t.proc) (fun w _ => anyStop w) t := by
    intro β x t P hx
    unfold onMem
    rw [wp_zoom]
    exact wp_post hx fun b m hm => ⟨hm, rfl⟩
  unfold growproc
  rw [wp_bind, wp_get]
  split_ifs with h1 h2
  · refine wp_seq (hproc (wp_uvmalloc_value _ _ _ _ _)) fun r t ht => ?_
    obtain ⟨hr, hp⟩ := ht
    split_ifs with h0
    · rw [wp_pure, hp]
      exact Or.inl le_rfl
    · rw [wp_bind, wp_modify, wp_pure, hset]
      rcases hr with hr | hr
      · exact absurd hr h0
      · rcases max_choice (s.proc p).sz (add64 (s.proc p).sz (sext64 n)) with hmax | hmax
        · exact Or.inl (by rw [hr, hmax])
        · exact Or.inr ⟨h1, by rw [hr, hmax]⟩
  · refine wp_seq (hproc (wp_uvmdealloc_value _ _ _ _)) fun r t ht => ?_
    rw [wp_bind, wp_modify, wp_pure, hset, ht.1]
    exact Or.inl (min_le_left _ _)
  · exact (wp_pure _).2 (Or.inl le_rfl)

/-! ### The other processes -/

theorem keeps_others {x : Prog Kernel α} (h : Spares x) (p : Fin NPROC) : Keeps (others p) anyStop x :=
  ⟨fun _ => h.wp_post (fun _ _ ht => others_of_spaces ht p)⟩

theorem spaces_of_others {t : Kernel} (h : others p t = others p s) {q : Fin NPROC} (hq : q ≠ p) :
    t.spaces q = s.spaces q := by
  have := congrFun h q
  unfold others at this
  rw [if_neg hq, if_neg hq] at this
  exact Option.some.inj this

theorem others_exit (p : Fin NPROC) (status : BitVec 32) : wp (exit p status)
    (fun _ t => others p t = others p s ∧ (t.proc p).state = .zombie) (fun w _ => anyStop w) s := by
  have hs : ∀ {β : Type} {x : Prog Kernel β}, Spares x → Keeps (others p) anyStop x :=
    fun h => keeps_others h p
  have hrelease : ∀ i, Keeps (others p) anyStop (releaseVma p i) := by
    intro i
    refine keeps_bind keeps_get fun s => keeps_when fun _ => ?_
    refine keeps_bind (hs (spares (quiet_sweep _ _ _ _ _))) fun _ => ?_
    cases ((s.proc p).vma i).f with
    | none => exact keeps_panic trivial
    | some f => exact keeps_bind (hs (spares_fileclose f)) fun _ => keeps_modify fun _ => others_updProc _
  have hclose : ∀ fd, Spares (closeOfile p fd) := by
    intro fd
    refine keeps_bind keeps_get fun s => ?_
    cases (s.proc p).ofile fd with
    | none => exact keeps_pure _
    | some f => exact keeps_bind (spares_fileclose f) fun _ => spares_setOfile p fd none
  unfold exit
  refine (keeps_forRange (fun i => hrelease _) _ _).wp_seq fun _ s₁ h1 => ?_
  split_ifs with hinit
  · rw [wp_bind, wp_panic]
    trivial
  refine (hs (keeps_forRange (fun fd => hclose _) _ _)).wp_seq fun _ s₂ h2 => ?_
  rw [wp_bind, wp_get]
  cases (s₂.proc p).cwd with
  | none => exact (wp_panic _).2 trivial
  | some e =>
    refine (hs (spares_onFs (Fs.iput_stops e))).wp_seq fun _ s₃ h3 => ?_
    rw [wp_bind, wp_modify, wp_modify, others_updProc]
    constructor
    · rw [← h1, ← h2, ← h3]
      refine others_of_spaces ?_ p
      funext q
      unfold spaces
      dsimp only
      split_ifs <;> rfl
    · exact congrArg Prod.fst (spaces_updProc_self _)

theorem others_freeproc (q : Fin NPROC) : Keeps (others q) anyStop (freeproc q) := by
  have hupd : ∀ g : Proc → Proc, Keeps (others q) anyStop (Prog.modify fun s => s.updProc q g) :=
    fun g => keeps_modify fun _ => others_updProc g
  refine keeps_bind keeps_get fun s => ?_
  have hrest := keeps_bind (hupd fun pr => { pr with trapframe := 0 }) fun _ => keeps_ite
    (fun _ : (s.proc q).pagetable ≠ 0 => keeps_bind (keeps_others (spares (quiet_procFreepagetable
      (s.proc q).pagetable (s.proc q).sz)) q) fun _ => hupd fun pr =>
      { pr with pagetable := 0, sz := 0, pid := 0, parent := none, killed := false, xstate := 0
                state := .unused })
    fun _ => hupd fun pr =>
      { pr with pagetable := 0, sz := 0, pid := 0, parent := none, killed := false, xstate := 0
                state := .unused }
  exact keeps_ite (fun _ => keeps_bind (keeps_others (spares_onMem (kfree_stops _)) q) fun _ => hrest)
    fun _ => hrest

theorem state_freeproc (q : Fin NPROC) : wp (freeproc q) (fun _ t => (t.proc q).state = .unused)
    (fun _ _ => True) s := by
  have hend : ∀ t : Kernel, ((t.updProc q fun pr =>
      { pr with pagetable := 0, sz := 0, pid := 0, parent := none, killed := false, xstate := 0
                state := .unused }).proc q).state = .unused := fun t =>
    congrArg Prod.fst (spaces_updProc_self _)
  refine wp_bind_any fun t t' => ?_
  by_cases htf : (t.proc q).trapframe ≠ 0
  · rw [if_pos htf]
    refine wp_bind_any fun _ _ => wp_bind_any fun _ u => ?_
    split_ifs
    · exact wp_bind_any fun _ v => (wp_modify _).2 (hend v)
    · exact (wp_modify _).2 (hend u)
  · rw [if_neg htf]
    refine wp_bind_any fun _ u => ?_
    split_ifs
    · exact wp_bind_any fun _ v => (wp_modify _).2 (hend v)
    · exact (wp_modify _).2 (hend u)

theorem spaces_allocproc : wp allocproc (fun r t =>
    (r = none → ∀ q, (t.proc q).state = .runnable → t.spaces q = s.spaces q) ∧
    ∀ np, r = some np → (s.proc np).state = .unused ∧ others np t = others np s ∧
      (t.proc np).state = .used ∧ (t.proc np).vmaTop = TRAPFRAME ∧
      ∀ i, ((t.proc np).vma i).valid = false) (fun _ _ => True) s := by
  unfold allocproc
  rw [wp_bind, wp_get]
  cases hp : (List.finRange NPROC).find? fun p => decide ((s.proc p).state = .unused) with
  | none => exact (wp_pure _).2 ⟨fun _ _ _ => rfl, by simp⟩
  | some p =>
    have hun : (s.proc p).state = .unused := by simpa using List.find?_some hp
    have hfree : ∀ t : Kernel, others p t = others p s → wp (do
        freeproc p
        return (none : Option (Fin NPROC))) (fun r t =>
          (r = none → ∀ q, (t.proc q).state = .runnable → t.spaces q = s.spaces q) ∧
          ∀ np, r = some np → (s.proc np).state = .unused ∧ others np t = others np s ∧
            (t.proc np).state = .used ∧ (t.proc np).vmaTop = TRAPFRAME ∧
            ∀ i, ((t.proc np).vma i).valid = false) (fun _ _ => True) t := by
      intro t ht
      rw [wp_bind]
      refine wp_mono (wp_and ((others_freeproc p).wp_keeps t) (state_freeproc p)) (fun _ u hu => ?_)
        fun _ _ _ => trivial
      rw [wp_pure]
      refine ⟨fun _ q hq => ?_, by simp⟩
      have hqp : q ≠ p := by
        rintro rfl
        simp [hu.2] at hq
      exact spaces_of_others (hu.1.trans ht) hqp
    -- what is set at the start stays
    let Fresh : Kernel → Prop := fun t => others p t = others p s ∧ (t.proc p).state = .used ∧
      (t.proc p).vmaTop = TRAPFRAME ∧ ∀ i, ((t.proc p).vma i).valid = false
    have hkeep : ∀ t u : Kernel, Fresh t → u.spaces = t.spaces → Fresh u := by
      rintro t u ⟨h1, h2, h3, h4⟩ hu
      have hp := congrFun hu p
      exact ⟨(others_of_spaces hu p).trans h1, (congrArg Prod.fst hp).trans h2,
        (congrArg (fun x : ProcState × Space => x.2.top) hp).trans h3, fun i =>
        (congrArg (fun x : ProcState × Space => (x.2.vma i).valid) hp).trans (h4 i)⟩
    rw [wp_bind, wp_modify, wp_bind, wp_modify]
    set s₁ := ({ s with nextpid := s.nextpid + 1 } : Kernel).updProc p fun pr =>
      { pr with pid := s.nextpid, state := .used, vmaTop := MAXVA - 2 * PGSIZE
                vma := fun i => { pr.vma i with valid := false, refcnt := 0 } }
    have h1 : Fresh s₁ := by
      have hself := spaces_updProc_self (s := { s with nextpid := s.nextpid + 1 }) (p := p) fun pr =>
        { pr with pid := s.nextpid, state := .used, vmaTop := MAXVA - 2 * PGSIZE
                  vma := fun i => { pr.vma i with valid := false, refcnt := 0 } }
      exact ⟨others_updProc _, congrArg Prod.fst hself,
        (congrArg (fun x : ProcState × Space => x.2.top) hself).trans rfl, fun i =>
        congrArg (fun x : ProcState × Space => (x.2.vma i).valid) hself⟩
    refine (spares_onMem kalloc_stops).wp_seq_any fun trapframe s₂ h2 => ?_
    rw [wp_bind, wp_modify]
    have h3 := hkeep s₂ (s₂.updProc p fun pr => { pr with trapframe := trapframe }) (hkeep _ _ h1 h2)
      (spaces_updProc rfl rfl)
    split_ifs with h0
    · exact hfree _ h3.1
    refine (spares_onMem (procPagetable_stops _)).wp_seq_any fun pagetable s₄ h4 => ?_
    rw [wp_bind, wp_modify]
    have h5 := hkeep s₄ (s₄.updProc p fun pr => { pr with pagetable := pagetable }) (hkeep _ _ h3 h4)
      (spaces_updProc rfl rfl)
    split_ifs with h0'
    · exact hfree _ h5.1
    · rw [wp_pure]
      refine ⟨by simp, fun np hnp => ?_⟩
      cases hnp
      exact ⟨hun, h5⟩

/-! ### The invariant -/

/-- Every process that can run has its regions in place. -/
def LayoutInv (s : Kernel) : Prop := ∀ q, (s.spaces q).1 = .runnable → (s.spaces q).2.Ok

theorem LayoutInv.of_eq {t : Kernel} (h : s.LayoutInv) (ht : t.spaces = s.spaces) : t.LayoutInv := by
  unfold LayoutInv
  rwa [ht]

theorem LayoutInv.spares {x : Prog Kernel α} (h : s.LayoutInv) (hx : Spares x) :
    wp x (fun _ t => t.LayoutInv) (fun _ _ => True) s :=
  hx.wp_of (fun _ _ ht => h.of_eq ht) fun _ _ _ => trivial

theorem LayoutInv.caller {t : Kernel} (h : s.LayoutInv) (ht : others p t = others p s)
    (hp : (t.spaces p).1 = .runnable → (t.spaces p).2.Ok) : t.LayoutInv := by
  intro q hq
  by_cases hqp : q = p
  · rw [hqp] at hq ⊢
    exact hp hq
  · rw [spaces_of_others ht hqp] at hq ⊢
    exact h q hq

theorem LayoutInv.resize {t : Kernel} (h : s.LayoutInv) (hp : (s.proc p).state = .runnable)
    (ht : unsized p t = unsized p s) (hsz : (t.proc p).sz ≤ (s.proc p).vmaTop) : t.LayoutInv := by
  intro q hq
  have hu := congrFun ht q
  unfold unsized at hu
  by_cases hqp : q = p
  · subst hqp
    rw [if_pos rfl, if_pos rfl] at hu
    have hspace : (t.spaces q).2 = { (s.spaces q).2 with sz := (t.proc q).sz } := by
      have h2 := congrArg (fun x : ProcState × Space => ({ x.2 with sz := (t.proc q).sz } : Space)) hu
      exact h2
    rw [hspace]
    exact (h q hp).resize hsz
  · rw [if_neg hqp, if_neg hqp] at hu
    rw [hu] at hq ⊢
    exact h q hq

/-- The child of `fork` while it is set up: its space is part of the parent's. -/
def Child (p np : Fin NPROC) (s t : Kernel) : Prop :=
  others np t = others np s ∧ (t.spaces np).2.Sub (s.spaces p).2

theorem Child.of_eq {np : Fin NPROC} {t u : Kernel} (h : Child p np s t) (hu : u.spaces = t.spaces) :
    Child p np s u := by
  obtain ⟨h1, h2⟩ := h
  exact ⟨(others_of_spaces hu np).trans h1, by rwa [hu]⟩

theorem Child.forkVma {np : Fin NPROC} {t : Kernel} (h : Child p np s t) (hne : p ≠ np) (i : Fin VMAMAX) :
    wp (forkVma p np i) (fun _ u => Child p np s u) (fun _ _ => True) t := by
  have hparent : (t.spaces p).2 = (s.spaces p).2 := by rw [spaces_of_others h.1 hne]
  have hvma : (t.proc p).vma i = (s.proc p).vma i := congrArg (fun a : Space => a.vma i) hparent
  unfold Kernel.forkVma
  rw [wp_bind, wp_get]
  dsimp only
  split_ifs with hv
  · cases ((t.proc p).vma i).f with
    | none => exact (wp_panic _).2 trivial
    | some f =>
      refine (spares_filedup f).wp_seq_any fun _ u hu => ?_
      have hchild := h.of_eq hu
      rw [wp_modify]
      refine ⟨(others_updProc _).trans hchild.1, ?_⟩
      unfold updVma
      rw [spaces_updProc_self]
      refine ⟨hchild.2.sz, hchild.2.top, fun j hj => ?_⟩
      change (update (u.proc np).vma i _ j).valid = true at hj
      show _ ∧ (update (u.proc np).vma i _ j).addr = _ ∧
        (update (u.proc np).vma i _ j).len = _
      by_cases hji : j = i
      · subst hji
        rw [update_self] at hj ⊢
        rw [hvma] at hj ⊢
        exact ⟨hj, rfl, rfl⟩
      · rw [update_of_ne hji] at hj ⊢
        exact hchild.2.vma j hj
  · exact (wp_pure _).2 h

theorem spares_forkOfile (p np : Fin NPROC) (fd : Fin NOFILE) : Spares (forkOfile p np fd) := by
  refine keeps_bind keeps_get fun s => ?_
  cases (s.proc p).ofile fd with
  | none => exact keeps_pure _
  | some f => exact keeps_bind (spares_filedup f) fun _ => spares_setOfile np fd _

theorem layout_fork (h : s.LayoutInv) (hp : (s.proc p).state = .runnable) :
    wp (fork p) (fun _ t => t.LayoutInv) (fun _ _ => True) s := by
  unfold fork
  rw [wp_bind]
  refine wp_mono spaces_allocproc (fun r s₁ h1 => ?_) fun _ _ _ => trivial
  cases r with
  | none =>
    refine (wp_pure _).2 fun q hq => ?_
    have he := h1.1 rfl q hq
    rw [he] at hq ⊢
    exact h q hq
  | some np =>
    obtain ⟨hun, hoth, -, -, hvma⟩ := h1.2 np rfl
    have hne : p ≠ np := by
      rintro rfl
      simp [hp] at hun
    have hparent : s₁.spaces p = s.spaces p := spaces_of_others hoth hne
    rw [wp_bind, wp_get]
    refine (spares_onMem (uvmcopy_stops _ _ _)).wp_seq_any fun ok s₂ h2 => ?_
    have hoth2 := (others_of_spaces h2 np).trans hoth
    by_cases hok : (!ok) = true
    · rw [if_pos hok, wp_bind]
      refine wp_mono (wp_and ((others_freeproc np).wp_keeps s₂) (state_freeproc np)) (fun _ t ht => ?_)
        fun _ _ _ => trivial
      refine (wp_pure _).2 (h.caller (ht.1.trans hoth2) fun hr => ?_)
      exact absurd (ht.2.symm.trans hr) (by simp)
    rw [if_neg hok, wp_bind, wp_modify]
    refine (spares_onMem (stops_modify _)).wp_seq_any fun _ s₃ h3 => ?_
    rw [wp_bind, wp_modify]
    have hchild : Child p np s (s₃.updProc np fun c => { c with vmaTop := (s₁.proc p).vmaTop }) := by
      have hself := congrArg Prod.snd ((congrFun h3 np).trans (spaces_updProc_self _))
      refine ⟨(others_updProc _).trans ?_, ?_⟩
      · rw [others_of_spaces h3, others_updProc, hoth2]
      · rw [spaces_updProc_self]
        refine ⟨(congrArg Space.sz hself).trans (congrArg (fun x => (Prod.snd x).sz) hparent),
          congrArg (fun x => (Prod.snd x).top) hparent, fun i hi => ?_⟩
        have hinv : ((s₃.proc np).vma i).valid = false :=
          (congrArg (fun a : Space => (a.vma i).valid) hself).trans
            ((congrArg (fun x => (Prod.snd x).vma i |>.valid) (congrFun h2 np)).trans (hvma i))
        exact absurd (hinv.symm.trans hi) (by simp)
    rw [wp_bind]
    refine wp_mono (wp_forRange (fun _ t => Child p np s t) hchild fun i t _ _ ht =>
      ht.forkVma hne _) (fun _ s₄ h4 => ?_) fun _ _ _ => trivial
    refine (spares (quiet_setReg _ _ _)).wp_seq_any fun _ s₅ h5 => ?_
    refine (keeps_forRange (fun fd => spares_forkOfile p np _) _ _).wp_seq_any fun _ s₆ h6 => ?_
    have h6' := (h4.of_eq h5).of_eq h6
    cases (s₁.proc p).cwd with
    | none => exact (wp_panic _).2 trivial
    | some e =>
      refine (spares_onFs (stops_modify _)).wp_seq_any fun _ s₇ h7 => ?_
      rw [wp_bind, wp_modify, wp_pure]
      have h7' := h6'.of_eq h7
      refine h.caller ((others_updProc _).trans h7'.1) fun _ => ?_
      rw [spaces_updProc_self]
      exact (h p hp).sub h7'.2

theorem layout_wait (h : s.LayoutInv) (addr : ℕ) :
    wp (wait p addr) (fun _ t => t.LayoutInv) (fun _ _ => True) s := by
  have hfree : ∀ (q : Fin NPROC) (t : Kernel), t.spaces = s.spaces → wp (do
      freeproc q
      return some q) (fun _ t => t.LayoutInv) (fun _ _ => True) t := by
    intro q t ht
    rw [wp_bind]
    refine wp_mono (wp_and ((others_freeproc q).wp_keeps t) (state_freeproc q)) (fun _ u hu => ?_)
      fun _ _ _ => trivial
    refine (wp_pure _).2 (h.caller (hu.1.trans (others_of_spaces ht q)) fun hr => ?_)
    exact absurd (hu.2.symm.trans hr) (by simp)
  unfold wait
  rw [wp_bind, wp_get]
  cases (List.finRange NPROC).find? fun q =>
      decide ((s.proc q).parent = some p ∧ (s.proc q).state = .zombie) with
  | some q =>
    dsimp only
    by_cases ha : addr ≠ 0
    · rw [if_pos ha, wp_bind, wp_modify]
      split_ifs with hok
      · exact (wp_pure _).2 h
      · exact hfree q _ rfl
    · rw [if_neg ha]
      exact hfree q s rfl
  | none =>
    dsimp only
    split_ifs
    · exact wp_sleep.2 trivial
    · exact (wp_pure _).2 h

/-! ### Calls on regions -/

theorem sext64_of_nonneg {x : BitVec 32} (h : 0 ≤ x.toInt) : sext64 x = x.toNat := by
  unfold sext64
  have hx := x.isLt
  have hmsb : x.msb = false := by
    rw [BitVec.msb_eq_toInt]
    simpa using h
  rw [BitVec.signExtend_eq_setWidth_of_msb_false hmsb, BitVec.toNat_setWidth]
  exact Nat.mod_eq_of_lt (by omega)

theorem toNat_lt_of_nonneg {x : BitVec 32} (h : 0 ≤ x.toInt) : x.toNat < 2 ^ 31 := by
  rw [BitVec.toInt_eq_toNat_cond] at h
  have := x.isLt
  split_ifs at h <;> omega

theorem toInt_of_nonneg {x : BitVec 32} (h : 0 ≤ x.toInt) : x.toInt = x.toNat := by
  have := toNat_lt_of_nonneg h
  exact BitVec.toInt_eq_toNat_of_lt (by omega)

theorem layout_sysMmap (h : s.LayoutInv) (hp : (s.proc p).state = .runnable) {len : BitVec 32}
    (hlen : 0 ≤ len.toInt) (hpage : PGSIZE ∣ len.toNat)
    (hfit : (s.proc p).sz + len.toNat ≤ (s.proc p).vmaTop) (prot flags : BitVec 32) (fd : Fin NOFILE)
    (off : BitVec 32) :
    wp (sysMmap p len prot flags fd off) (fun _ t => t.LayoutInv) (fun _ _ => True) s := by
  have hsext := sext64_of_nonneg hlen
  unfold sysMmap
  rw [wp_bind, wp_get]
  dsimp only
  cases (s.proc p).ofile fd with
  | none =>
    split_ifs <;> exact (wp_panic _).2 trivial
  | some f =>
    dsimp only
    split_ifs with hro
    · exact (wp_pure _).2 h
    cases (List.finRange VMAMAX).find? fun i => decide (((s.proc p).vma i).valid = false) with
    | none => exact (wp_panic _).2 trivial
    | some i =>
      dsimp only
      unfold fillVma
      rw [wp_bind, wp_modify]
      refine (spares_filedup f).wp_seq_any fun _ s₁ h1 => ?_
      have hself := (congrArg Prod.snd ((congrFun h1 p).trans (spaces_updProc_self _)))
      have hoth := others_of_spaces h1 p
      unfold updVma at hoth
      rw [others_updProc] at hoth
      have htop : (s₁.proc p).vmaTop = (s.proc p).vmaTop := congrArg Space.top hself
      have hsub : sub64 (s.proc p).vmaTop len.toNat = (s.proc p).vmaTop - len.toNat := by
        have hle : (s.proc p).vmaTop ≤ 2 ^ 38 - 4096 - 4096 := (h p hp).top_le
        unfold sub64
        rw [← Nat.add_sub_assoc (by omega), Nat.sub_add_comm (by omega), Nat.add_mod_right]
        exact Nat.mod_eq_of_lt (by omega)
      rw [wp_bind, wp_get, wp_bind, wp_modify, wp_modify]
      refine h.caller (p := p) ?_ fun _ => ?_
      · unfold updVma
        rw [others_updProc, others_updProc, hoth]
      · unfold updVma
        rw [spaces_updProc_self, htop, hsext, hsub, show ∀ x, (s₁.updProc p fun pr =>
          { pr with vmaTop := x }).proc p = { s₁.proc p with vmaTop := x } from fun _ => update_self ..]
        show Space.Ok ⟨(s₁.proc p).sz, _, update (s₁.proc p).vma i _⟩
        rw [show (s₁.proc p).sz = (s.proc p).sz from congrArg Space.sz hself,
          show (s₁.proc p).vma = update (s.proc p).vma i _ from congrArg Space.vma hself,
          update_idem, update_self]
        exact (h p hp).map hsext hpage hfit rfl

/-- Nothing but the caller's regions changes, and none is added. -/
theorem LayoutInv.sub {t : Kernel} (h : s.LayoutInv) (hp : (s.proc p).state = .runnable)
    (ht : Child p p s t) : t.LayoutInv :=
  h.caller ht.1 fun _ => (h p hp).sub ht.2

theorem child_refl (p : Fin NPROC) (s : Kernel) : Child p p s s := ⟨rfl, Space.sub_refl _⟩

/-- A region loses its validity or changes in other fields. -/
theorem Child.updVma {t : Kernel} (h : Child p p s t) {i : Fin VMAMAX} {g : Vma → Vma}
    (hg : ∀ v, ((g v).valid = true → v.valid = true) ∧ (g v).addr = v.addr ∧ (g v).len = v.len) :
    Child p p s (t.updVma p i g) := by
  unfold Kernel.updVma
  refine ⟨(others_updProc _).trans h.1, ?_⟩
  rw [spaces_updProc_self]
  refine ⟨h.2.sz, h.2.top, fun j hj => ?_⟩
  change (update (t.proc p).vma i _ j).valid = true at hj
  show _ ∧ (update (t.proc p).vma i _ j).addr = _ ∧ (update (t.proc p).vma i _ j).len = _
  by_cases hji : j = i
  · subst hji
    rw [update_self] at hj ⊢
    obtain ⟨hv, ha, hl⟩ := hg ((t.proc p).vma j)
    rw [ha, hl]
    exact h.2.vma j (hv hj)
  · rw [update_of_ne hji] at hj ⊢
    exact h.2.vma j hj

theorem layout_sysMunmap (h : s.LayoutInv) (hp : (s.proc p).state = .runnable) (addr : ℕ)
    (len : BitVec 32) : wp (sysMunmap p addr len) (fun _ t => t.LayoutInv) (fun _ _ => True) s := by
  unfold sysMunmap
  rw [wp_bind, wp_get]
  dsimp only
  cases findVma (s.proc p) addr with
  | none => exact (wp_panic _).2 trivial
  | some i =>
    dsimp only
    by_cases hw : walkaddr s.mem (s.proc p).pagetable addr ≠ 0
    · rw [if_pos hw]
      have hun : ∀ n, Spares (onMem (uvmunmap (s.proc p).pagetable addr n true)) := fun n =>
        spares_onMem (uvmunmap_stops _ _ _ _)
      refine h.spares (keeps_ite (fun _ => ?_) fun _ => hun _)
      cases ((s.proc p).vma i).f with
      | none => exact keeps_bind (spares_panic _) fun _ => hun _
      | some f => exact keeps_bind (spares (quiet_filewrite _ _ _ _)) fun _ => hun _
    · rw [if_neg hw, wp_bind, wp_modify]
      have h1 := (child_refl p s).updVma (i := i) (g := fun v =>
        { v with refcnt := sub64 ((s.proc p).vma i).refcnt 1 }) fun _ => ⟨id, rfl, rfl⟩
      split_ifs with hr
      · cases ((s.proc p).vma i).f with
        | none => exact (wp_panic _).2 trivial
        | some f =>
          refine (spares_fileclose f).wp_seq_any fun _ t ht => ?_
          rw [wp_modify]
          exact h.sub hp ((h1.of_eq ht).updVma fun _ => ⟨fun hv => absurd hv (by simp), rfl, rfl⟩)
      · exact (wp_pure _).2 (h.sub hp h1)

theorem layout_exit (h : s.LayoutInv) (status : BitVec 32) :
    wp (exit p status) (fun _ t => t.LayoutInv) (fun _ _ => True) s := by
  refine wp_mono (others_exit p status) (fun _ t ht => ?_) fun _ _ _ => trivial
  exact h.caller ht.1 fun hr => absurd (ht.2.symm.trans hr) (by simp)

theorem layout_loadFault (h : s.LayoutInv) (hp : (s.proc p).state = .runnable) (va : ℕ) :
    wp (loadFault p va) (fun _ t => t.LayoutInv) (fun _ _ => True) s := by
  unfold loadFault
  rw [wp_bind, wp_get]
  dsimp only
  cases findVma (s.proc p) va with
  | none =>
    rw [wp_bind, wp_modify]
    exact layout_exit (h.of_eq (spaces_updProc rfl rfl)) _
  | some i =>
    refine (spares_onMem kalloc_stops).wp_seq_any fun mem s₁ h1 => ?_
    refine (spares_onMem (memset_stops _ _)).wp_seq_any fun _ s₂ h2 => ?_
    refine (spares_onMem (mappages_stops _ _ _ _ _)).wp_seq_any fun ok s₃ h3 => ?_
    split_ifs with hok
    · rw [wp_bind, wp_panic]
      trivial
    · rw [wp_bind, wp_modify]
      have h4 := (((child_refl p s).of_eq h1).of_eq h2).of_eq h3 |>.updVma (i := i) (g := fun v =>
        { v with refcnt := add64 v.refcnt 1 }) fun _ => ⟨id, rfl, rfl⟩
      cases ((s.proc p).vma i).f with
      | none => exact (wp_panic _).2 trivial
      | some f =>
        refine (keeps_bind (spares (quiet_lockFile f)) fun e => keeps_bind
          (spares (quiet_readPage _ _ _ _)) fun _ => keeps_pure _).wp_of (fun _ t ht => ?_)
          fun _ _ _ => trivial
        exact h.sub hp (h4.of_eq ht)

theorem layout_userStore (h : s.LayoutInv) (va : ℕ) (b : Byte) :
    wp (userStore p va b) (fun _ t => t.LayoutInv) (fun _ _ => True) s := by
  unfold userStore
  rw [wp_bind, wp_get]
  split_ifs with hm
  · exact (wp_modify _).2 h
  · rw [wp_bind, wp_modify]
    exact layout_exit (h.of_eq (spaces_updProc rfl rfl)) _

/-! ### Runs -/

/-! ### The size of a program -/

/-- The bytes of a file that `exec` reads into a structure. -/
def header (fs : Fs) (inum : ℕ) (off : BitVec 32) (len : ℕ) : Option (List Byte) :=
  match (do
    let e ← Fs.iget inum
    Fs.ilock e
    Fs.readi (fun acc _ bytes => (acc ++ bytes, true)) ([] : List Byte) e off (BitVec.ofNat 32 len)) fs with
  | .ok (bytes, r) _ => if r = BitVec.ofNat 32 len then some bytes else none
  | .stop _ _ => none

/-- The size that the segments of a program reach, from the headers; nothing if one is missing or wrong. -/
def segmentsSize (header : BitVec 32 → Option (List Byte)) : ℕ → BitVec 32 → ℕ → Option ℕ
  | 0, _, sz => some sz
  | phnum + 1, off, sz =>
    match header off with
    | none => none
    | some bytes =>
      let ph := ProgHdr.decode bytes
      if ph.type ≠ 1 then segmentsSize header phnum (off + 56) sz
      else if ph.memsz < ph.filesz ∨ add64 ph.vaddr ph.memsz < ph.vaddr ∨ ph.vaddr % PGSIZE ≠ 0 then none
      else segmentsSize header phnum (off + 56) (max sz (add64 ph.vaddr ph.memsz))

/-- The segments with the guard page and the stack above them. -/
def withStack (sz : ℕ) : ℕ := max (pgRoundUp sz) (add64 (pgRoundUp sz) (2 * PGSIZE))

/-- The size of a process that runs the program of a file. -/
def programSize (fs : Fs) (inum : ℕ) : Option ℕ :=
  match header fs inum 0 64 with
  | none => none
  | some bytes =>
    let elf := ElfHdr.decode bytes
    if elf.magic ≠ 0x464C457F then none
    else (segmentsSize (fun off => header fs inum off 56) elf.phnum
      (BitVec.ofNat 32 elf.phoff) 0).map withStack

/-- The inode of a file is read, and the file system is in order. -/
structure Opens (fs : Fs) (inum : ℕ) (e : Fin NINODE) (g : Fs) : Prop where
  run : ∃ g₁, Fs.iget inum fs = .ok e g₁ ∧ Fs.ilock e g₁ = .ok () g
  inv : FsInv g none
  live : g.Live e

section Program

variable {fs g : Fs} {inum : ℕ} {e : Fin NINODE}

/-- While the file system is as it was when the inode was read, `exec` reads the headers. -/
theorem Opens.readStruct (h : Opens fs inum e g) (hs : s.fs = g) (off : BitVec 32) (len : ℕ) :
    readStruct e off len s = .ok (header fs inum off len) s := by
  have hreturns : wp (Fs.readi (fun acc _ bytes => (acc ++ bytes, true)) ([] : List Byte) e off
      (BitVec.ofNat 32 len)) (fun _ t => t = g) (fun _ _ => False) g := Fs.wp_readi h.inv h.live _ _ _
  obtain ⟨⟨bytes, r⟩, t, hread, rfl⟩ := wp_returns hreturns fun _ _ hf => hf
  obtain ⟨g₁, hget, hlock⟩ := h.run
  have hheader : header fs inum off len = if r = BitVec.ofNat 32 len then some bytes else none := by
    unfold header
    rw [Prog.bind_of_ok hget, Prog.bind_of_ok hlock, hread]
  have hzoom : onFs (Fs.readi (fun acc _ bytes => (acc ++ bytes, true)) ([] : List Byte) e off
      (BitVec.ofNat 32 len)) s = .ok (bytes, r) s := by
    unfold onFs Prog.zoom
    rw [hs, hread, ← hs]
  unfold Kernel.readStruct
  rw [Prog.bind_of_ok hzoom, hheader]
  rfl

/-- Reading a page of the file leaves the file system as it is. -/
theorem Opens.readPage (h : Opens fs inum e g) (hs : s.fs = g) (pa : ℕ) (off n : BitVec 32) :
    wp (readPage e pa off n) (fun _ t => t.fs = g) (fun _ _ => True) s := by
  unfold Kernel.readPage onFs
  rw [wp_bind, wp_get, wp_bind, wp_zoom, hs]
  refine wp_mono (Fs.wp_readi h.inv h.live _ _ _) (fun r t ht => ?_) fun _ _ _ => trivial
  rw [wp_bind, wp_modify, wp_pure]
  exact ht

theorem Opens.loadseg (h : Opens fs inum e g) (hs : s.fs = g) (pagetable va offset sz fuel i : ℕ) :
    wp (loadsegLoop pagetable va e offset sz fuel i) (fun _ t => t.fs = g) (fun _ _ => True) s := by
  induction fuel generalizing i s with
  | zero => exact (wp_pure _).2 hs
  | succ fuel ih =>
    rw [loadsegLoop]
    by_cases hi : i < sz
    swap
    · rw [if_neg hi]
      exact (wp_pure _).2 hs
    rw [if_pos hi, wp_bind, wp_get]
    dsimp only
    by_cases hpa : walkaddr s.mem pagetable (add64 va i) = 0
    · rw [if_pos hpa, wp_bind, wp_panic]
      trivial
    rw [if_neg hpa]
    refine wp_seq (h.readPage hs _ _ _) fun r t ht => ?_
    split_ifs
    · exact (wp_pure _).2 ht
    · exact ih ht _

/-- **The segments are loaded**: the size is the one the headers ask for. -/
theorem Opens.loadSegments (h : Opens fs inum e g) (hs : s.fs = g) (pagetable phnum : ℕ) (off : BitVec 32)
    (sz : ℕ) : wp (loadSegments pagetable e phnum off sz) (fun r _ =>
      r.2 = true → segmentsSize (fun off => header fs inum off 56) phnum off sz = some r.1)
      (fun _ _ => True) s := by
  induction phnum generalizing off sz s with
  | zero => exact (wp_pure _).2 fun _ => rfl
  | succ phnum ih =>
    rw [Kernel.loadSegments, segmentsSize, wp_bind]
    refine wp_of_ok (h.readStruct hs off 56) ?_
    cases header fs inum off 56 with
    | none => exact (wp_pure _).2 fun hf => by cases hf
    | some bytes =>
      dsimp only
      generalize ProgHdr.decode bytes = ph
      by_cases htype : ph.type ≠ 1
      · rw [if_pos htype, if_pos htype]
        exact ih hs _ _
      rw [if_neg htype, if_neg htype]
      by_cases hbad : ph.memsz < ph.filesz ∨ add64 ph.vaddr ph.memsz < ph.vaddr ∨ ph.vaddr % PGSIZE ≠ 0
      · rw [if_pos hbad, if_pos hbad]
        exact (wp_pure _).2 fun hf => by cases hf
      rw [if_neg hbad, if_neg hbad, wp_bind]
      unfold onMem
      rw [wp_zoom]
      refine wp_mono (wp_uvmalloc_value _ _ _ _ _) (fun sz1 m hsz1 => ?_) fun _ _ _ => trivial
      by_cases h0 : sz1 = 0
      · rw [if_pos h0]
        exact (wp_pure _).2 fun hf => by cases hf
      rw [if_neg h0]
      refine wp_seq (h.loadseg (s := { s with mem := m }) hs _ _ _ _ _ _) fun ok t ht => ?_
      rw [← hsz1.resolve_left h0]
      split_ifs
      · exact (wp_pure _).2 fun hf => by cases hf
      · exact ih ht _ _

end Program

theorem execCommit_size (pagetable sz entry : ℕ) (argv : List (List Byte)) :
    wp (execCommit p pagetable sz entry argv) (fun _ t => t.spaces = s.spaces ∨
      (t.proc p).sz = withStack sz)
      (fun _ _ => True) s := by
  have hbad : ∀ a b c (t : Kernel), t.spaces = s.spaces → wp (execBad a b c)
      (fun _ t => t.spaces = s.spaces ∨ (t.proc p).sz = withStack sz) (fun _ _ => True) t :=
    fun a b c t ht => wp_mono ((spares (quiet_execBad a b c)).wp_keeps t)
      (fun _ u hu => Or.inl (hu.trans ht)) fun _ _ _ => trivial
  unfold execCommit
  rw [wp_bind, wp_get, wp_bind]
  unfold onMem
  rw [wp_zoom]
  refine wp_mono (wp_uvmalloc_value _ _ _ _ _) (fun sz1 m hsz1 => ?_) fun _ _ _ => trivial
  by_cases h0 : sz1 = 0
  · rw [if_pos h0]
    exact hbad _ _ _ _ rfl
  rw [if_neg h0]
  refine (spares_onMem (uvmclear_stops _ _)).wp_seq_any fun _ s₂ h2 => ?_
  refine (spares (quiet_pushArgs _ _ _ _)).wp_seq_any fun r s₃ h3 => ?_
  cases r with
  | none => exact hbad _ _ _ _ (h3.trans h2)
  | some sp =>
    refine (spares (quiet_setReg _ _ _)).wp_seq_any fun _ s₄ h4 => ?_
    rw [wp_bind, wp_modify]
    refine (spares (quiet_setReg _ _ _)).wp_seq_any fun _ s₅ h5 => ?_
    refine (spares (quiet_setReg _ _ _)).wp_seq_any fun _ s₆ h6 => ?_
    refine (spares (quiet_procFreepagetable _ _)).wp_seq_any fun _ s₇ h7 => (wp_pure _).2 (Or.inr ?_)
    have hp := congrFun (h7.trans (h6.trans h5)) p
    rw [spaces_updProc_self] at hp
    exact (congrArg (fun x : ProcState × Space => x.2.sz) hp).trans (hsz1.resolve_left h0)

/-- **`exec` makes a process of the size the file asks for**, or leaves the spaces alone. -/
theorem execProg_size {inum : ℕ} (hs : FsInv s.fs none) (hi : inum < s.fs.sb.ninodes)
    (argv : List (List Byte)) :
    wp (execProg p (some inum) argv) (fun _ t => t.spaces = s.spaces ∨
      ∃ sz, programSize s.fs inum = some sz ∧ (t.proc p).sz = sz) (fun _ _ => True) s := by
  have hbad : ∀ a b c (t : Kernel), t.spaces = s.spaces → wp (execBad a b c)
      (fun _ t => t.spaces = s.spaces ∨ ∃ sz, programSize s.fs inum = some sz ∧ (t.proc p).sz = sz)
      (fun _ _ => True) t :=
    fun a b c t ht => wp_mono ((spares (quiet_execBad a b c)).wp_keeps t)
      (fun _ u hu => Or.inl (hu.trans ht)) fun _ _ _ => trivial
  unfold execProg onFs
  dsimp only
  rw [wp_bind, wp_zoom]
  refine wp_mono (wp_and (wp_result _) (Fs.wp_iget hs hi)) (fun e g₁ hget => ?_) fun _ _ _ => trivial
  rw [wp_bind, wp_zoom]
  refine wp_mono (wp_and (wp_result _) (Fs.wp_ilock hget.2.1)) (fun _ g hlock => ?_) fun _ _ _ => trivial
  have hopen : Opens s.fs inum e g := ⟨⟨g₁, hget.1, hlock.1⟩, hlock.2.1, hlock.2.2.1⟩
  rw [wp_bind]
  refine wp_of_ok (hopen.readStruct rfl 0 64) ?_
  cases hheader : header s.fs inum 0 64 with
  | none => exact hbad _ _ _ _ rfl
  | some bytes =>
    dsimp only
    by_cases hmagic : (ElfHdr.decode bytes).magic ≠ 0x464C457F
    · rw [if_pos hmagic]
      exact hbad _ _ _ _ rfl
    have hsize : programSize s.fs inum = (segmentsSize (fun off => header s.fs inum off 56)
        (ElfHdr.decode bytes).phnum (BitVec.ofNat 32 (ElfHdr.decode bytes).phoff) 0).map withStack := by
      unfold programSize
      rw [hheader]
      exact if_neg hmagic
    rw [if_neg hmagic, wp_bind, wp_get, wp_bind]
    unfold onMem
    rw [wp_zoom]
    refine wp_mono (wp_result _) (fun pagetable m _ => ?_) fun _ _ _ => trivial
    by_cases hpt : pagetable = 0
    · rw [if_pos hpt]
      exact hbad _ _ _ _ rfl
    rw [if_neg hpt, wp_bind]
    refine wp_mono (wp_and ((spares (quiet_loadSegments _ _ _ _ _)).wp_keeps _)
      (hopen.loadSegments rfl _ _ _ _)) (fun r s₁ h1 => ?_) fun _ _ _ => trivial
    obtain ⟨sz, ok⟩ := r
    cases ok with
    | false =>
      rw [if_pos (by simp)]
      exact hbad _ _ _ _ h1.1
    | true =>
      rw [if_neg (by simp)]
      refine (spares_onFs (Fs.iput_stops _)).wp_seq_any fun _ s₂ h2 => ?_
      refine wp_mono (execCommit_size _ _ _ _) (fun _ t ht => ?_) fun _ _ _ => trivial
      rcases ht with heq | heq
      · exact Or.inl (heq.trans (h2.trans h1.1))
      · exact Or.inr ⟨_, by rw [hsize, h1.2 rfl]; rfl, heq⟩

theorem keeps_fs_fetchArgs (uargv fuel i : ℕ) (pages : List ℕ) (argv : List (List Byte)) :
    Keeps Kernel.fs anyStop (fetchArgs p uargv fuel i pages argv) := by
  induction fuel generalizing i pages argv with
  | zero => exact keeps_pure _
  | succ fuel ih =>
    rw [fetchArgs]
    refine keeps_bind keeps_get fun s => keeps_unless fun _ => keeps_unless fun _ =>
      keeps_unless fun _ => ?_
    refine keeps_bind (keeps_zoom (fun _ _ => rfl) (kalloc_stops.mono fun _ _ => trivial)) fun page =>
      keeps_unless fun _ => keeps_bind keeps_get fun t => ?_
    split
    · exact keeps_pure _
    · exact ih _ _ _

/-- A call leaves room between the heap and the regions: a mapping has a length of whole pages, not
negative, that fits into the gap, and the heap does not grow over the top of the gap. -/
def Fits (s : Kernel) (e : Fin NPROC × Sys) : Prop :=
  match e.2 with
  | .mmap len _ _ _ _ => 0 ≤ len.toInt ∧ PGSIZE ∣ len.toNat ∧ (s.proc e.1).sz + len.toNat ≤
      (s.proc e.1).vmaTop
  | .sbrk n => 0 < n.toInt → add64 (s.proc e.1).sz (sext64 n) ≤ (s.proc e.1).vmaTop
  | .exec (some inum) _ => FsInv s.fs none ∧ inum < s.fs.sb.ninodes ∧
      ∀ sz, programSize s.fs inum = some sz → sz ≤ (s.proc e.1).vmaTop
  | _ => True

/-- The same, for calls other than `exec`. -/
def fits (s : Kernel) (e : Fin NPROC × Sys) : Bool :=
  match e.2 with
  | .mmap len _ _ _ _ => decide (0 ≤ len.toInt ∧ PGSIZE ∣ len.toNat ∧
      (s.proc e.1).sz + len.toNat ≤ (s.proc e.1).vmaTop)
  | .sbrk n => decide (0 < n.toInt → add64 (s.proc e.1).sz (sext64 n) ≤ (s.proc e.1).vmaTop)
  | .exec (some _) _ => false
  | _ => true

theorem Fits.of_fits {e : Fin NPROC × Sys} (h : fits s e = true) : Fits s e := by
  obtain ⟨q, c⟩ := e
  cases c with
  | mmap len prot flags fd off => simpa [fits, Fits] using h
  | sbrk n => exact fun hn => of_decide_eq_true (p := 0 < n.toInt → _) h hn
  | exec path uargv =>
    cases path with
    | none => trivial
    | some inum => cases h
  | _ => trivial

theorem sysExec_size {path : Option ℕ} {uargv : ℕ} (hfit : Fits s (p, .exec path uargv)) :
    wp (sysExec p path uargv) (fun _ t => t.spaces = s.spaces ∨ (t.proc p).sz ≤ (s.proc p).vmaTop)
      (fun _ _ => True) s := by
  unfold sysExec
  rw [wp_bind]
  refine wp_mono (wp_and ((spares (quiet_fetchArgs _ _ _ _ _ _)).wp_keeps s)
    ((keeps_fs_fetchArgs _ _ _ _ _).wp_keeps s)) (fun r s₁ h1 => ?_) fun _ _ _ => trivial
  obtain ⟨pages, argv⟩ := r
  have hfree : ∀ t : Kernel, (t.spaces = s.spaces ∨ (t.proc p).sz ≤ (s.proc p).vmaTop) → wp (freeArgs pages)
      (fun _ t => t.spaces = s.spaces ∨ (t.proc p).sz ≤ (s.proc p).vmaTop) (fun _ _ => True) t := by
    intro t ht
    refine wp_mono ((spares (quiet_freeArgs pages)).wp_keeps t) (fun _ u hu => ?_) fun _ _ _ => trivial
    refine ht.imp hu.trans fun hle => ?_
    rwa [show (u.proc p).sz = (t.proc p).sz from
      congrArg (fun x : ProcState × Space => x.2.sz) (congrFun hu p)]
  cases argv with
  | none => exact hfree _ (Or.inl h1.1)
  | some argv =>
    dsimp only
    rw [wp_bind]
    cases path with
    | none =>
      unfold execProg
      exact (wp_pure _).2 (hfree _ (Or.inl h1.1))
    | some inum =>
      obtain ⟨hinv, hi, hsz⟩ := hfit
      have hfs : s₁.fs = s.fs := h1.2
      refine wp_mono (execProg_size (s := s₁) (by rw [hfs]; exact hinv) (by rw [hfs]; exact hi) argv)
        (fun _ t ht => hfree t ?_) fun _ _ _ => trivial
      rcases ht with heq | ⟨sz, hprog, heq⟩
      · exact Or.inl (heq.trans h1.1)
      · rw [hfs] at hprog
        exact Or.inr (heq.trans_le (hsz sz hprog))

theorem layout_call (h : s.LayoutInv) (hp : (s.proc p).state = .runnable) {c : Sys}
    (hfit : Fits s (p, c)) : wp (call p c) (fun _ t => t.LayoutInv) (fun _ _ => True) s := by
  cases c with
  | «open» path omode => exact h.spares (spares_sysOpen p path omode)
  | dup fd => exact h.spares (spares_sysDup p fd)
  | close fd => exact h.spares (spares_sysClose p fd)
  | pipe fdarray => exact h.spares (spares_sysPipe p fdarray)
  | read fd addr n =>
    refine h.spares (keeps_bind keeps_get fun t => ?_)
    cases (t.proc p).ofile fd with
    | none => exact keeps_pure ()
    | some f => exact spares (quiet_fileread p f addr n)
  | write fd addr n =>
    refine h.spares (keeps_bind keeps_get fun t => ?_)
    cases (t.proc p).ofile fd with
    | none => exact keeps_pure ()
    | some f => exact keeps_bind (spares (quiet_filewrite p f addr n)) fun _ => keeps_pure ()
  | fork =>
    unfold call
    exact wp_seq (layout_fork h hp) fun _ t ht => (wp_pure _).2 ht
  | exec path uargv =>
    refine wp_mono (wp_and ((unsized_sysExec p path uargv).wp_keeps s) (sysExec_size hfit))
      (fun _ t ht => ?_) fun _ _ _ => trivial
    rcases ht.2 with heq | hle
    · exact h.of_eq heq
    · exact h.resize hp ht.1 hle
  | exit status => exact layout_exit h status
  | wait addr =>
    unfold call
    exact wp_seq (layout_wait h addr) fun _ t ht => (wp_pure _).2 ht
  | sbrk n =>
    unfold call
    rw [wp_bind]
    refine wp_mono (wp_and ((unsized_growproc p n).wp_keeps s) (wp_growproc_sz n))
      (fun _ t ht => (wp_pure _).2 (h.resize hp ht.1 ?_)) fun _ _ _ => trivial
    have hheap : (s.proc p).sz ≤ (s.proc p).vmaTop := (h p hp).heap
    have hfit' : 0 < n.toInt → add64 (s.proc p).sz (sext64 n) ≤ (s.proc p).vmaTop := hfit
    rcases ht.2 with hle | ⟨hpos, heq⟩
    · omega
    · rw [heq]
      exact hfit' hpos
  | mmap len prot flags fd off =>
    obtain ⟨hlen, hpage, hroom⟩ := hfit
    exact layout_sysMmap h hp hlen hpage hroom prot flags fd off
  | munmap addr len => exact layout_sysMunmap h hp addr len
  | load va =>
    unfold call userLoad
    rw [wp_bind, wp_get]
    split_ifs
    · exact (wp_pure _).2 h
    · exact layout_loadFault h hp va
  | store va b => exact layout_userStore h va b

theorem layout_exec (h : s.LayoutInv) {e : Fin NPROC × Sys} (hfit : Fits s e) :
    wp (exec e) (fun _ t => t.LayoutInv) (fun _ _ => True) s := by
  unfold exec
  rw [wp_bind, wp_get]
  split_ifs with hp
  · refine wp_attempt (wp_mono (layout_call h hp hfit) (fun _ _ ht => ht) fun w t _ => ?_)
    exact ⟨fun _ => h, fun _ => trivial⟩
  · exact (wp_pure _).2 h

theorem layout_userinit (mem : Mem) (fs : Fs) (initcode : List Byte) :
    wp (userinit initcode) (fun _ t => t.LayoutInv) (fun _ _ => True) (initial mem fs) := by
  have h : (initial mem fs).LayoutInv := fun q hq => absurd hq (by rintro ⟨⟩)
  unfold userinit
  rw [wp_bind]
  refine wp_mono spaces_allocproc (fun r s₁ h1 => ?_) fun _ _ _ => trivial
  cases r with
  | none => exact (wp_panic _).2 trivial
  | some p =>
    obtain ⟨-, hoth, -, htop, hvma⟩ := h1.2 p rfl
    rw [wp_bind, wp_get]
    refine (spares_onMem (uvmfirst_stops _ _)).wp_seq_any fun _ s₂ h2 => ?_
    refine (spares (quiet_setReg _ _ _)).wp_seq_any fun _ s₃ h3 => ?_
    refine (spares (quiet_setReg _ _ _)).wp_seq_any fun _ s₄ h4 => ?_
    refine (spares_onFs (Fs.iget_stops _)).wp_seq_any fun e s₅ h5 => ?_
    have hall : s₅.spaces = s₁.spaces := h5.trans (h4.trans (h3.trans h2))
    have hp := congrFun hall p
    have htop5 : (s₅.proc p).vmaTop = TRAPFRAME :=
      (congrArg (fun x : ProcState × Space => x.2.top) hp).trans htop
    have hvma5 : ∀ i, ((s₅.proc p).vma i).valid = false := fun i =>
      (congrArg (fun x : ProcState × Space => (x.2.vma i).valid) hp).trans (hvma i)
    rw [wp_modify]
    refine h.caller ((others_updProc _).trans ((others_of_spaces hall p).trans hoth)) fun _ => ?_
    rw [spaces_updProc_self]
    have hno : ∀ {P : Prop} (i : Fin VMAMAX), ((s₅.proc p).vma i).valid = true → P := fun i hi =>
      absurd ((hvma5 i).symm.trans hi) (by simp)
    have hle : PGSIZE ≤ (s₅.proc p).vmaTop := by rw [htop5]; decide
    exact ⟨htop5.le, by show PGSIZE ∣ (s₅.proc p).vmaTop; rw [htop5]; decide, hle, fun i hi => hno i hi,
      fun i hi => hno i hi, fun i hi => hno i hi, fun i _ _ hi => hno i hi⟩

end Kernel

/-- **Layout of mapped regions.**  In every run all of whose mappings have whole pages and fit into the
gap above the heap, and whose heaps do not grow over the gap, the regions of every process that can run
are page-aligned, pairwise disjoint, below the trapframe and above the heap, in every state reached. -/
theorem mapped_layout {mem : Mem} {fs : Fs} {initcode : List Byte} {es : List (Fin NPROC × Sys)}
    {s₀ s : Kernel} (h₀ : Kernel.userinit initcode (Kernel.initial mem fs) = .ok () s₀)
    (hfit : Along Kernel.Fits Kernel.exec es s₀)
    (hs : runs Kernel.exec es s₀ = .ok () s) (p : Fin NPROC) (hp : (s.proc p).state = .runnable) :
    (s.proc p).space.LaidOut := by
  have hinit : s₀.LayoutInv := wp_ok (Kernel.layout_userinit mem fs initcode) h₀
  have hrun := wp_runs (fun e s h hfit => Kernel.layout_exec h hfit) hinit hfit
  exact (wp_ok hrun hs p hp).laidOut

/-- Two dozen free pages. -/
def bootMem : Mem where
  page := fun _ => Words.fill 0
  free := (List.range 24).map fun k => 0x80100000 + PGSIZE * k
  kend := 0x80100000
  tramp := 0x80007000

/-- A disk with a root directory and a file of one byte. -/
def bootFs : Fs where
  sb := ⟨20, 15, 16, 0, 2, 2, 4⟩
  disk := fun b =>
    if b = 2 then fun k =>
      match k.val with
      | 64 => 1
      | 70 => 1
      | 128 => 2
      | 134 => 1
      | 136 => 1
      | 140 => 5
      | _ => 0
    else if b = 4 then fun k => if k.val = 0 then 63 else 0
    else if b = 5 then fun k => if k.val = 0 then 65 else 0
    else fun _ => 0
  dirty := fun _ => none
  logged := []
  inode := fun _ => ⟨Dinode.zero, 0, 0, 0, false⟩

/-- The first process, about to run. -/
def booted : Kernel := (Kernel.userinit [] (Kernel.initial bootMem bootFs)).state

/-- Two mappings with a fork and a larger heap in between. -/
def fittingCalls : List (Fin NPROC × Sys) :=
  [(0, .open (some 2) 2), (0, .mmap 8192 1 2 0 0), (0, .fork), (0, .sbrk 4096),
    (1, .mmap 4096 1 2 0 0), (0, .mmap 4096 1 2 0 0)]

/-- A mapping of 100 bytes. -/
def shortMapping : List (Fin NPROC × Sys) := [(0, .open (some 2) 0), (0, .mmap 100 1 2 0 0)]

-- evaluated together: the boot, the calls that fit and the short mapping
theorem booted_evaluated :
    (Kernel.userinit [] (Kernel.initial bootMem bootFs)).stopped = none ∧
    (alongB Kernel.fits Kernel.exec fittingCalls booted = true ∧
      (runs Kernel.exec fittingCalls booted).stopped = none ∧
      ((runs Kernel.exec fittingCalls booted).state.proc 0).state = .runnable ∧
      ((runs Kernel.exec fittingCalls booted).state.proc 1).state = .runnable) ∧
    (runs Kernel.exec shortMapping booted).stopped = none ∧
    ((runs Kernel.exec shortMapping booted).state.proc 0).state = .runnable ∧
    (((runs Kernel.exec shortMapping booted).state.proc 0).space.vma 0).valid = true ∧
    ¬ PGSIZE ∣ (((runs Kernel.exec shortMapping booted).state.proc 0).space.vma 0).addr := by
  decide +kernel

theorem userinit_booted : Kernel.userinit [] (Kernel.initial bootMem bootFs) = .ok () booted :=
  Res.eq_ok_of_stopped booted_evaluated.1

theorem mapped_layout_fittingCalls :
    ((runs Kernel.exec fittingCalls booted).state.proc 0).space.LaidOut ∧
      ((runs Kernel.exec fittingCalls booted).state.proc 1).space.LaidOut := by
  obtain ⟨hfit, hret, h0, h1⟩ := booted_evaluated.2.1
  have h := fun p => mapped_layout userinit_booted ((along_of_alongB hfit).mono fun _ _ h =>
    Kernel.Fits.of_fits h) (Res.eq_ok_of_stopped hret) p
  exact ⟨h 0 h0, h 1 h1⟩

/-- **A short mapping is not page-aligned.** -/
theorem short_mapping_unaligned : ∃ s, runs Kernel.exec shortMapping booted = .ok () s ∧
    (s.proc 0).state = .runnable ∧ ¬ (s.proc 0).space.LaidOut := by
  obtain ⟨hret, hrun, hvalid, hpage⟩ := booted_evaluated.2.2
  exact ⟨_, Res.eq_ok_of_stopped hret, hrun, fun h => hpage (h.aligned 0 hvalid).1⟩

end Xv6
