import Xv6.Vm.Kalloc

/-!
# Page tables (`vm.c`)

A page table is the address of its level-2 page.  `walk` returns the place of an entry: the address of
the page-table page and the index in it.  The functions that only read memory are functions of the
memory.  Those that report success or failure by 0 and -1 return a `Bool`.
-/

namespace Xv6

open Stateful

/-! ### Looking up -/

/-- The levels of `walk` that do not allocate: the level-0 page-table page for an address. -/
def descend (m : Mem) (va : ℕ) : ℕ → ℕ → Option ℕ
  | 0, pagetable => some pagetable
  | level + 1, pagetable =>
    let pte := m.page pagetable (px (level + 1) va)
    if hasFlag pte PTEV then descend m va level (pte2pa pte) else none

/-- The entry for a virtual address, if the page-table pages for it exist. -/
def lookup (m : Mem) (pagetable va : ℕ) : Option (BitVec 64) :=
  (descend m va 2 pagetable).map fun tbl => m.page tbl (px 0 va)

/-- Look up a virtual address, return the physical address, or 0 if not mapped for the user. -/
def walkaddr (m : Mem) (pagetable va : ℕ) : ℕ :=
  if MAXVA ≤ va then 0
  else
    match lookup m pagetable va with
    | none => 0
    | some pte =>
      if !hasFlag pte PTEV then 0
      else if !hasFlag pte PTEU then 0
      else pte2pa pte

/-- The levels of `walk`. -/
def walkLoop (va : ℕ) (alloc : Bool) : ℕ → ℕ → Prog Mem (Option ℕ)
  | 0, pagetable => pure (some pagetable)
  | level + 1, pagetable => do
    let pte := (← Prog.get).page pagetable (px (level + 1) va)
    if hasFlag pte PTEV then
      walkLoop va alloc level (pte2pa pte)
    else if !alloc then
      return none
    else
      let child ← kalloc
      if child = 0 then
        return none
      memset child 0
      Prog.modify fun m => m.setPte pagetable (px (level + 1) va) (pa2pte child ||| PTEV)
      walkLoop va alloc level child

/-- The place of the entry for a virtual address; with `alloc`, create the page-table pages. -/
def walk (pagetable va : ℕ) (alloc : Bool) : Prog Mem (Option (ℕ × Fin NPTE)) :=
  if MAXVA ≤ va then
    Prog.panic "walk"
  else do
    match ← walkLoop va alloc 2 pagetable with
    | none => return none
    | some tbl => return some (tbl, px 0 va)

/-! ### Mapping and unmapping -/

/-- The loop of `mappages`. -/
def mapLoop (pagetable last : ℕ) (perm : BitVec 64) : ℕ → ℕ → ℕ → Prog Mem Bool
  | 0, _, _ => pure true
  | fuel + 1, a, pa => do
    match ← walk pagetable a true with
    | none => return false
    | some (tbl, i) =>
      let pte := (← Prog.get).page tbl i
      if hasFlag pte PTEV then
        Prog.panic "mappages: remap"
      Prog.modify fun m => m.setPte tbl i (pa2pte pa ||| perm ||| PTEV)
      if a = last then
        return true
      mapLoop pagetable last perm fuel (add64 a PGSIZE) (add64 pa PGSIZE)

/-- Create entries for virtual addresses starting at `va` that refer to physical addresses starting at
`pa`. False if a page-table page could not be allocated. -/
def mappages (pagetable va size pa : ℕ) (perm : BitVec 32) : Prog Mem Bool :=
  if va % PGSIZE ≠ 0 then
    Prog.panic "mappages: va not aligned"
  else if size % PGSIZE ≠ 0 then
    Prog.panic "mappages: size not aligned"
  else if size = 0 then
    Prog.panic "mappages: size"
  else
    mapLoop pagetable (sub64 (add64 va size) PGSIZE) (perm.signExtend 64) (size / PGSIZE) va pa

/-- The loop of `uvmunmap`. -/
def unmapLoop (pagetable bound : ℕ) (doFree : Bool) : ℕ → ℕ → Prog Mem Unit
  | 0, _ => pure ()
  | fuel + 1, a =>
    if a < bound then do
      match ← walk pagetable a false with
      | none => Prog.panic "uvmunmap: walk"
      | some (tbl, i) =>
        let pte := (← Prog.get).page tbl i
        if !hasFlag pte PTEV then
          Prog.panic "uvmunmap: not mapped"
        if pteFlags pte = PTEV then
          Prog.panic "uvmunmap: not a leaf"
        if doFree then
          kfree (pte2pa pte)
        Prog.modify fun m => m.setPte tbl i 0
        unmapLoop pagetable bound doFree fuel (add64 a PGSIZE)
    else
      pure ()

/-- Remove `npages` of mappings starting from `va`; optionally free the physical memory. -/
def uvmunmap (pagetable va npages : ℕ) (doFree : Bool) : Prog Mem Unit :=
  if va % PGSIZE ≠ 0 then
    Prog.panic "uvmunmap: not aligned"
  else
    let bound := add64 va (npages * PGSIZE % 2 ^ 64)
    unmapLoop pagetable bound doFree ((bound - va) / PGSIZE + 1) va

/-- Create an empty page table; 0 if out of memory. -/
def uvmcreate : Prog Mem ℕ := do
  let pagetable ← kalloc
  if pagetable = 0 then
    return 0
  memset pagetable 0
  return pagetable

/-- Load the code of the first process into address 0. -/
def uvmfirst (pagetable : ℕ) (src : List Byte) : Prog Mem Unit :=
  if PGSIZE ≤ src.length then
    Prog.panic "uvmfirst: more than a page"
  else do
    let mem ← kalloc
    memset mem 0
    let _ ← mappages pagetable 0 PGSIZE mem 0x1E#32
    Prog.modify fun m => m.blit mem 0 src

/-! ### The size of a process -/

/-- Deallocate user pages to bring the process size from `oldsz` to `newsz`. -/
def uvmdealloc (pagetable oldsz newsz : ℕ) : Prog Mem ℕ := do
  if oldsz ≤ newsz then
    return oldsz
  if pgRoundUp newsz < pgRoundUp oldsz then
    let npages := (pgRoundUp oldsz - pgRoundUp newsz) / PGSIZE
    uvmunmap pagetable (pgRoundUp newsz) (sext64 (BitVec.ofNat 32 npages)) true
  return newsz

/-- The loop of `uvmalloc`. -/
def allocLoop (pagetable oldsz newsz : ℕ) (xperm : BitVec 32) : ℕ → ℕ → Prog Mem ℕ
  | 0, _ => pure newsz
  | fuel + 1, a =>
    if a < newsz then do
      let mem ← kalloc
      if mem = 0 then
        let _ ← uvmdealloc pagetable a oldsz
        return 0
      memset mem 0
      let ok ← mappages pagetable a PGSIZE mem (0x12#32 ||| xperm)
      if !ok then
        kfree mem
        let _ ← uvmdealloc pagetable a oldsz
        return 0
      allocLoop pagetable oldsz newsz xperm fuel (add64 a PGSIZE)
    else
      pure newsz

/-- Allocate pages to grow a process from `oldsz` to `newsz`. Returns the new size or 0 on error. -/
def uvmalloc (pagetable oldsz newsz : ℕ) (xperm : BitVec 32) : Prog Mem ℕ :=
  if newsz < oldsz then
    pure oldsz
  else
    let oldsz := pgRoundUp oldsz
    allocLoop pagetable oldsz newsz xperm ((newsz - oldsz) / PGSIZE + 1) oldsz

/-! ### Freeing -/

/-- The loop of `freewalk` over the entries from `i` on. -/
def freeEntries (recur : ℕ → Prog Mem Unit) (pagetable : ℕ) : ℕ → ℕ → Prog Mem Unit
  | 0, _ => pure ()
  | fuel + 1, i => do
    let pte := (← Prog.get).page pagetable (Fin.ofNat NPTE i)
    if hasFlag pte PTEV ∧ pte &&& (PTER ||| PTEW ||| PTEX) = 0 then
      recur (pte2pa pte)
      Prog.modify fun m => m.setPte pagetable (Fin.ofNat NPTE i) 0
    else if hasFlag pte PTEV then
      Prog.panic "freewalk: leaf"
    freeEntries recur pagetable fuel (i + 1)

/-- Recursively free page-table pages, to a depth the kernel stack can hold. -/
def freewalk : ℕ → ℕ → Prog Mem Unit
  | 0, _ => Prog.panic "kerneltrap"
  | depth + 1, pagetable => do
    freeEntries (freewalk depth) pagetable NPTE 0
    kfree pagetable

/-- Calls of `freewalk` that fit the kernel stack. -/
abbrev STACKDEPTH : ℕ := 48

/-- Free user memory pages, then free page-table pages. -/
def uvmfree (pagetable sz : ℕ) : Prog Mem Unit := do
  if 0 < sz then
    uvmunmap pagetable 0 (pgRoundUp sz / PGSIZE) true
  freewalk STACKDEPTH pagetable

/-! ### Copying -/

/-- The loop of `uvmcopy`; returns the address it stopped at, or nothing when it is done. -/
def copyLoop (old new sz : ℕ) : ℕ → ℕ → Prog Mem (Option ℕ)
  | 0, _ => pure none
  | fuel + 1, i =>
    if i < sz then do
      match ← walk old i false with
      | none => Prog.panic "uvmcopy: pte should exist"
      | some (tbl, k) =>
        let pte := (← Prog.get).page tbl k
        if !hasFlag pte PTEV then
          Prog.panic "uvmcopy: page not present"
        let mem ← kalloc
        if mem = 0 then
          return some i
        Prog.modify fun m => m.setPage mem (m.page (pte2pa pte))
        let ok ← mappages new i PGSIZE mem ((pteFlags pte).setWidth 32)
        if !ok then
          kfree mem
          return some i
        copyLoop old new sz fuel (add64 i PGSIZE)
    else
      pure none

/-- Copy a parent's memory into a child's page table. -/
def uvmcopy (old new sz : ℕ) : Prog Mem Bool := do
  match ← copyLoop old new sz (sz / PGSIZE + 1) 0 with
  | none => return true
  | some i =>
    uvmunmap new 0 (i / PGSIZE) true
    return false

/-- Mark an entry invalid for user access. -/
def uvmclear (pagetable va : ℕ) : Prog Mem Unit := do
  match ← walk pagetable va false with
  | none => Prog.panic "uvmclear"
  | some (tbl, i) => Prog.modify fun m => m.setPte tbl i (m.page tbl i &&& ~~~PTEU)

/-- The loop of `copyout`; `bytes` are left to copy. -/
def copyoutLoop (pagetable : ℕ) : ℕ → Mem → ℕ → List Byte → Mem × Bool
  | 0, m, _, _ => (m, true)
  | fuel + 1, m, dstva, bytes =>
    if bytes = [] then (m, true)
    else
      let va0 := pgRoundDown dstva
      if MAXVA ≤ va0 then (m, false)
      else
        match lookup m pagetable va0 with
        | none => (m, false)
        | some pte =>
          if !hasFlag pte PTEV || !hasFlag pte PTEU || !hasFlag pte PTEW then (m, false)
          else
            let n := min (PGSIZE - (dstva - va0)) bytes.length
            copyoutLoop pagetable fuel (m.blit (pte2pa pte) (dstva - va0) (bytes.take n))
              (add64 va0 PGSIZE) (bytes.drop n)

/-- Copy from kernel to user. -/
def copyout (m : Mem) (pagetable dstva : ℕ) (bytes : List Byte) : Mem × Bool :=
  copyoutLoop pagetable (bytes.length + 1) m dstva bytes

/-- The loop of `copyin`; returns what was copied. -/
def copyinLoop (m : Mem) (pagetable : ℕ) : ℕ → ℕ → ℕ → List Byte × Bool
  | 0, _, _ => ([], true)
  | fuel + 1, srcva, len =>
    if len = 0 then ([], true)
    else
      let va0 := pgRoundDown srcva
      let pa0 := walkaddr m pagetable va0
      if pa0 = 0 then ([], false)
      else
        let n := min (PGSIZE - (srcva - va0)) len
        let r := copyinLoop m pagetable fuel (add64 va0 PGSIZE) (len - n)
        ((m.page pa0).slice (srcva - va0) n ++ r.1, r.2)

/-- Copy from user to kernel. -/
def copyin (m : Mem) (pagetable srcva len : ℕ) : List Byte × Bool :=
  copyinLoop m pagetable (len + 1) srcva len

theorem sub_pgRoundDown_lt (a : ℕ) : a - pgRoundDown a < PGSIZE := by
  show a - a / 4096 * 4096 < 4096
  omega

theorem length_copyinLoop_le (m : Mem) (pagetable fuel srcva len : ℕ) :
    (copyinLoop m pagetable fuel srcva len).1.length ≤ len := by
  induction fuel generalizing srcva len with
  | zero => exact Nat.zero_le _
  | succ fuel ih =>
    rw [copyinLoop]
    dsimp only
    split_ifs
    · exact Nat.zero_le _
    · exact Nat.zero_le _
    · have := ih (add64 (pgRoundDown srcva) PGSIZE)
        (len - min (PGSIZE - (srcva - pgRoundDown srcva)) len)
      simp only [List.length_append, Words.length_slice]
      omega

theorem length_copyinLoop_eq (m : Mem) (pagetable fuel srcva len : ℕ) (hf : len < fuel)
    (h : (copyinLoop m pagetable fuel srcva len).2 = true) :
    (copyinLoop m pagetable fuel srcva len).1.length = len := by
  -- every round copies at least one byte, so the fuel lasts
  induction fuel generalizing srcva len with
  | zero => exact absurd hf (Nat.not_lt_zero _)
  | succ fuel ih =>
    have hround := sub_pgRoundDown_lt srcva
    rw [copyinLoop] at h ⊢
    dsimp only at h ⊢
    split_ifs at h ⊢ with h0 h1
    · exact h0.symm
    · have := ih (add64 (pgRoundDown srcva) PGSIZE)
        (len - min (PGSIZE - (srcva - pgRoundDown srcva)) len) (by omega) h
      simp only [List.length_append, Words.length_slice]
      omega

/-- Copy a null-terminated string from user to kernel: the string without the null, if there is one
among the first `max` bytes. -/
def copyinstr (m : Mem) (pagetable : ℕ) : ℕ → ℕ → Option (List Byte)
  | _, 0 => none
  | srcva, max + 1 =>
    let va0 := pgRoundDown srcva
    let pa0 := walkaddr m pagetable va0
    if pa0 = 0 then none
    else
      let ch := (m.page pa0).byte (srcva - va0)
      if ch = 0 then some []
      else (copyinstr m pagetable (add64 srcva 1) max).map (ch :: ·)

end Xv6
