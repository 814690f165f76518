import Xv6.Fs.Fs
import Xv6.Vm.Vm

/-!
# Files and processes (`file.c`, `pipe.c`, `proc.c`)

The kernel between system calls: physical memory, the file system, the file table, the pipes and the
process table.  A system call runs to its end before the next one starts: what another process could
do in between is kept out by the locks, or touches only that process's own entries.  Of a pipe the two
ends are modelled and not the bytes in it, and devices have no state.

`freed` records each call of `proc_freepagetable`: the memory it finds, the page table and the size.
-/

namespace Xv6

open Stateful Function

instance : NeZero NPROC := ⟨by decide⟩
instance : NeZero NOFILE := ⟨by decide⟩
instance : NeZero NFILE := ⟨by decide⟩

/-- The kinds of `struct file`. -/
inductive FdType
  | none
  | pipe
  | inode
  | device
  deriving DecidableEq

/-- `struct file`. -/
structure File where
  type : FdType
  ref : ℕ
  readable : Bool
  writable : Bool
  pipe : ℕ
  ip : Option (Fin NINODE)
  off : BitVec 32
  major : BitVec 16

/-- The ends of a pipe. -/
structure Pipe where
  readopen : Bool
  writeopen : Bool

/-- `struct vma`: a mapped region. -/
structure Vma where
  valid : Bool
  addr : ℕ
  len : BitVec 32
  prot : BitVec 32
  flags : BitVec 32
  off : BitVec 32
  f : Option (Fin NFILE)
  refcnt : ℕ

/-- The states of a process between system calls. -/
inductive ProcState
  | unused
  | used
  | runnable
  | zombie
  deriving DecidableEq

/-- `struct proc`. -/
structure Proc where
  state : ProcState
  killed : Bool
  xstate : BitVec 32
  pid : ℕ
  parent : Option (Fin NPROC)
  sz : ℕ
  pagetable : ℕ
  trapframe : ℕ
  ofile : Fin NOFILE → Option (Fin NFILE)
  cwd : Option (Fin NINODE)
  vma : Fin VMAMAX → Vma
  vmaTop : ℕ

/-- A call of `proc_freepagetable`. -/
structure Freeing where
  mem : Mem
  pagetable : ℕ
  sz : ℕ

/-- The kernel. -/
structure Kernel where
  mem : Mem
  fs : Fs
  file : Fin NFILE → File
  pipe : ℕ → Option Pipe
  proc : Fin NPROC → Proc
  nextpid : ℕ
  freed : List Freeing

/-- `MAP_SHARED` and `PROT_WRITE`. -/
abbrev MAPSHARED : BitVec 32 := 1#32
abbrev PROTWRITE : BitVec 32 := 2#32

namespace Kernel

variable {α : Type}

/-- A program on the memory. -/
def onMem (x : Prog Mem α) : Prog Kernel α :=
  Prog.zoom Kernel.mem (fun m s => { s with mem := m }) x

/-- A program on the file system. -/
def onFs (x : Prog Fs α) : Prog Kernel α := Prog.zoom Kernel.fs (fun t s => { s with fs := t }) x

/-- Change a process. -/
def updProc (s : Kernel) (p : Fin NPROC) (f : Proc → Proc) : Kernel :=
  { s with proc := update s.proc p (f (s.proc p)) }

/-- Change an entry of the file table. -/
def updFile (s : Kernel) (f : Fin NFILE) (g : File → File) : Kernel :=
  { s with file := update s.file f (g (s.file f)) }

/-- Change a mapped region of a process. -/
def updVma (s : Kernel) (p : Fin NPROC) (i : Fin VMAMAX) (g : Vma → Vma) : Kernel :=
  s.updProc p fun pr => { pr with vma := update pr.vma i (g (pr.vma i)) }

/-- Change a descriptor of a process. -/
def setOfile (s : Kernel) (p : Fin NPROC) (fd : Fin NOFILE) (f : Option (Fin NFILE)) : Kernel :=
  s.updProc p fun pr => { pr with ofile := update pr.ofile fd f }

/-! ### The file table -/

/-- Allocate a file structure. -/
def filealloc : Prog Kernel (Option (Fin NFILE)) := do
  let s ← Prog.get
  match (List.finRange NFILE).find? fun f => (s.file f).ref = 0 with
  | some f =>
    Prog.set (s.updFile f fun fl => { fl with ref := 1 })
    return some f
  | none => return none

/-- Increment the reference count of a file. -/
def filedup (f : Fin NFILE) : Prog Kernel Unit := do
  let s ← Prog.get
  if (s.file f).ref < 1 then
    Prog.panic "filedup"
  else
    Prog.set (s.updFile f fun fl => { fl with ref := fl.ref + 1 })

/-- Close one end of a pipe; free the page when both are closed. -/
def pipeclose (pi : ℕ) (writable : Bool) : Prog Kernel Unit := do
  let s ← Prog.get
  let old := (s.pipe pi).getD ⟨false, false⟩
  let new : Pipe := if writable then { old with writeopen := false } else { old with readopen := false }
  if !new.readopen && !new.writeopen then
    Prog.set { s with pipe := update s.pipe pi none }
    onMem (kfree pi)
  else
    Prog.set { s with pipe := update s.pipe pi (some new) }

/-- Follow an inode pointer. -/
def deref (ip : Option (Fin NINODE)) : Prog Kernel (Fin NINODE) :=
  match ip with
  | some e => pure e
  | none => Prog.panic "kerneltrap"

/-- Close a file: decrement the reference count, close when it reaches 0. -/
def fileclose (f : Fin NFILE) : Prog Kernel Unit := do
  let s ← Prog.get
  let ff := s.file f
  if ff.ref < 1 then
    Prog.panic "fileclose"
  else if 0 < ff.ref - 1 then
    Prog.set (s.updFile f fun fl => { fl with ref := fl.ref - 1 })
  else do
    Prog.set (s.updFile f fun fl => { fl with ref := 0, type := .none })
    match ff.type with
    | .pipe => pipeclose ff.pipe ff.writable
    | .inode | .device => do
      let e ← deref ff.ip
      onFs (Fs.iput e)
    | .none => pure ()

/-- The user memory at an address, as a source for `writei`. -/
def userSource (m : Mem) (pagetable addr : ℕ) : Source where
  copyin := fun tot len => copyin m pagetable (add64 addr tot) len
  length_le := fun tot len => length_copyinLoop_le m pagetable (len + 1) _ len
  length_eq := fun tot len => length_copyinLoop_eq m pagetable (len + 1) _ len (Nat.lt_succ_self len)

/-- The most bytes `filewrite` writes in one transaction. -/
abbrev MAXWRITE : ℕ := (MAXOPBLOCKS - 1 - 1 - 2) / 2 * BSIZE

/-- Lock the inode of a file, as `ilock` does. -/
def lockFile (f : Fin NFILE) : Prog Kernel (Fin NINODE) := do
  match ((← Prog.get).file f).ip with
  | none => Prog.panic "ilock"
  | some e =>
    onFs (Fs.ilock e)
    return e

/-- The loop of `filewrite` on an inode. -/
def writeLoop (p : Fin NPROC) (f : Fin NFILE) (addr n : ℕ) : ℕ → ℕ → Prog Kernel Bool
  | 0, i => pure (i = n)
  | fuel + 1, i =>
    if i < n then do
      let n1 := min (n - i) MAXWRITE
      let e ← lockFile f
      let s ← Prog.get
      let r ← onFs (Fs.writei (userSource s.mem (s.proc p).pagetable (add64 addr i)) e (s.file f).off
        (BitVec.ofNat 32 n1))
      if 0 < r.toInt then
        Prog.modify fun s => s.updFile f fun fl => { fl with off := fl.off + r }
      if r ≠ BitVec.ofNat 32 n1 then
        return false
      writeLoop p f addr n fuel (i + n1)
    else
      return i = n

/-- Write to a file from user memory. False on error. -/
def filewrite (p : Fin NPROC) (f : Fin NFILE) (addr : ℕ) (n : BitVec 32) : Prog Kernel Bool := do
  let fl := (← Prog.get).file f
  if !fl.writable then
    return false
  match fl.type with
  | .pipe | .device => return true
  | .inode =>
    if n.toInt < 0 then
      return false
    writeLoop p f addr n.toNat (n.toNat + 1) 0
  | .none => Prog.panic "filewrite"

/-- Read from a file on an inode to user memory. -/
def fileread (p : Fin NPROC) (f : Fin NFILE) (addr : ℕ) (n : BitVec 32) : Prog Kernel Unit := do
  let fl := (← Prog.get).file f
  if fl.readable ∧ fl.type = .inode then
    let e ← lockFile f
    let s ← Prog.get
    let pagetable := (s.proc p).pagetable
    let (m, r) ← onFs (Fs.readi (fun m tot bytes => copyout m pagetable (add64 addr tot) bytes) s.mem e
      (s.file f).off n)
    Prog.modify fun s => { s with mem := m }
    if 0 < r.toInt then
      Prog.modify fun s => s.updFile f fun fl => { fl with off := fl.off + r }

/-! ### Processes -/

/-- Create a page table with the trampoline and the trapframe and no user memory; 0 if out of
memory. -/
def procPagetable (trapframe : ℕ) : Prog Mem ℕ := do
  let pagetable ← uvmcreate
  if pagetable = 0 then
    return 0
  let ok ← mappages pagetable TRAMPOLINE PGSIZE (← Prog.get).tramp 0xA#32
  if !ok then
    uvmfree pagetable 0
    return 0
  let ok ← mappages pagetable TRAPFRAME PGSIZE trapframe 0x6#32
  if !ok then
    uvmunmap pagetable TRAMPOLINE 1 false
    uvmfree pagetable 0
    return 0
  return pagetable

/-- Free a process's page table and the physical memory it refers to. -/
def procFreepagetable (pagetable sz : ℕ) : Prog Kernel Unit := do
  Prog.modify fun s => { s with freed := s.freed ++ [⟨s.mem, pagetable, sz⟩] }
  onMem do
    uvmunmap pagetable TRAMPOLINE 1 false
    uvmunmap pagetable TRAPFRAME 1 false
    uvmfree pagetable sz

/-- Free a process and the data hanging from it, including user pages. -/
def freeproc (p : Fin NPROC) : Prog Kernel Unit := do
  let pr := (← Prog.get).proc p
  if pr.trapframe ≠ 0 then
    onMem (kfree pr.trapframe)
  Prog.modify fun s => s.updProc p fun pr => { pr with trapframe := 0 }
  if pr.pagetable ≠ 0 then
    procFreepagetable pr.pagetable pr.sz
  Prog.modify fun s => s.updProc p fun pr =>
    { pr with pagetable := 0, sz := 0, pid := 0, parent := none, killed := false, xstate := 0
              state := .unused }

/-- Look in the process table for an unused process and initialize the state required to run in the
kernel. -/
def allocproc : Prog Kernel (Option (Fin NPROC)) := do
  let s ← Prog.get
  match (List.finRange NPROC).find? fun p => (s.proc p).state = .unused with
  | none => return none
  | some p =>
    Prog.modify fun s => { s with nextpid := s.nextpid + 1 }
    Prog.modify fun t => t.updProc p fun pr =>
      { pr with pid := s.nextpid, state := .used, vmaTop := MAXVA - 2 * PGSIZE
                vma := fun i => { pr.vma i with valid := false, refcnt := 0 } }
    let trapframe ← onMem kalloc
    Prog.modify fun s => s.updProc p fun pr => { pr with trapframe := trapframe }
    if trapframe = 0 then
      freeproc p
      return none
    let pagetable ← onMem (procPagetable trapframe)
    Prog.modify fun s => s.updProc p fun pr => { pr with pagetable := pagetable }
    if pagetable = 0 then
      freeproc p
      return none
    return some p

/-- Grow or shrink user memory by `n` bytes. False on failure. -/
def growproc (p : Fin NPROC) (n : BitVec 32) : Prog Kernel Bool := do
  let pr := (← Prog.get).proc p
  if 0 < n.toInt then
    let sz ← onMem (uvmalloc pr.pagetable pr.sz (add64 pr.sz (sext64 n)) 4#32)
    if sz = 0 then
      return false
    Prog.modify fun s => s.updProc p fun pr => { pr with sz := sz }
  else if n.toInt < 0 then
    let sz ← onMem (uvmdealloc pr.pagetable pr.sz (add64 pr.sz (sext64 n)))
    Prog.modify fun s => s.updProc p fun pr => { pr with sz := sz }
  return true

/-- The words of a trapframe: `epc`, `sp`, `a0` and `a1` are among them. -/
abbrev TFWORDS : ℕ := 36
abbrev TFEPC : Fin NPTE := 3
abbrev TFSP : Fin NPTE := 6
abbrev TFA0 : Fin NPTE := 14
abbrev TFA1 : Fin NPTE := 15

/-- Set a register in a trapframe. -/
def setReg (trapframe : ℕ) (r : Fin NPTE) (v : ℕ) : Prog Kernel Unit :=
  onMem (Prog.modify fun m => m.setPte trapframe r (BitVec.ofNat 64 v))

/-- Copy a mapped region to a child, in `fork`. -/
def forkVma (p np : Fin NPROC) (i : Fin VMAMAX) : Prog Kernel Unit := do
  let v := ((← Prog.get).proc p).vma i
  if v.valid then
    match v.f with
    | none => Prog.panic "kerneltrap"
    | some f =>
      filedup f
      Prog.modify fun s => s.updVma np i fun _ => v

/-- Copy a descriptor to a child, in `fork`. -/
def forkOfile (p np : Fin NPROC) (fd : Fin NOFILE) : Prog Kernel Unit := do
  match ((← Prog.get).proc p).ofile fd with
  | none => pure ()
  | some f =>
    filedup f
    Prog.modify fun s => s.setOfile np fd (some f)

/-- Create a new process, copying the parent. Returns the child. -/
def fork (p : Fin NPROC) : Prog Kernel (Option (Fin NPROC)) := do
  match ← allocproc with
  | none => return none
  | some np =>
    let s ← Prog.get
    let pr := s.proc p
    let child := s.proc np
    let ok ← onMem (uvmcopy pr.pagetable child.pagetable pr.sz)
    if !ok then
      freeproc np
      return none
    Prog.modify fun s => s.updProc np fun c => { c with sz := pr.sz }
    -- copy saved user registers
    onMem (Prog.modify fun m => m.setPage child.trapframe fun i =>
      if i.val < TFWORDS then m.page pr.trapframe i else m.page child.trapframe i)
    Prog.modify fun s => s.updProc np fun c => { c with vmaTop := pr.vmaTop }
    Prog.forRange 0 VMAMAX fun i => forkVma p np (Fin.ofNat VMAMAX i)
    setReg child.trapframe TFA0 0
    Prog.forRange 0 NOFILE fun fd => forkOfile p np (Fin.ofNat NOFILE fd)
    match pr.cwd with
    | none => Prog.panic "kerneltrap"
    | some e =>
      onFs (Fs.idup e)
      Prog.modify fun s => s.updProc np fun c =>
        { c with cwd := some e, parent := some p, state := .runnable }
      return some np

/-- The loop of `exit` over the pages of a mapped region. -/
def sweep (p : Fin NPROC) (v : Vma) (bound : ℕ) : ℕ → ℕ → Prog Kernel Unit
  | 0, _ => pure ()
  | fuel + 1, addr =>
    if addr < bound then do
      let s ← Prog.get
      if walkaddr s.mem (s.proc p).pagetable addr ≠ 0 then
        if v.flags = MAPSHARED then
          match v.f with
          | none => Prog.panic "kerneltrap"
          | some f => let _ ← filewrite p f addr (BitVec.ofNat 32 PGSIZE)
        onMem (uvmunmap (s.proc p).pagetable addr 1 true)
      sweep p v bound fuel (add64 addr PGSIZE)
    else
      pure ()

/-- Release one mapped region, in `exit`. -/
def releaseVma (p : Fin NPROC) (i : Fin VMAMAX) : Prog Kernel Unit := do
  let v := ((← Prog.get).proc p).vma i
  if v.valid then
    let bound := add64 v.addr (sext64 v.len)
    sweep p v bound ((bound - v.addr) / PGSIZE + 1) v.addr
    match v.f with
    | none => Prog.panic "kerneltrap"
    | some f =>
      fileclose f
      Prog.modify fun s => s.updVma p i fun v => { v with valid := false }

/-- Close one descriptor, in `exit`. -/
def closeOfile (p : Fin NPROC) (fd : Fin NOFILE) : Prog Kernel Unit := do
  match ((← Prog.get).proc p).ofile fd with
  | none => pure ()
  | some f =>
    fileclose f
    Prog.modify fun s => s.setOfile p fd none

/-- The first process. -/
abbrev initproc : Fin NPROC := 0

/-- Exit a process; it remains a zombie until its parent calls `wait`. -/
def exit (p : Fin NPROC) (status : BitVec 32) : Prog Kernel Unit := do
  Prog.forRange 0 VMAMAX fun i => releaseVma p (Fin.ofNat VMAMAX i)
  if p = initproc then
    Prog.panic "init exiting"
  Prog.forRange 0 NOFILE fun fd => closeOfile p (Fin.ofNat NOFILE fd)
  match ((← Prog.get).proc p).cwd with
  | none => Prog.panic "kerneltrap"
  | some e =>
    onFs (Fs.iput e)
    -- pass abandoned children to init
    Prog.modify fun s =>
      { s with proc := fun q =>
          if (s.proc q).parent = some p then { s.proc q with parent := some initproc } else s.proc q }
    Prog.modify fun s => s.updProc p fun pr =>
      { pr with cwd := none, xstate := status, state := .zombie }

/-- Wait for a child process to exit. -/
def wait (p : Fin NPROC) (addr : ℕ) : Prog Kernel (Option (Fin NPROC)) := do
  let s ← Prog.get
  match (List.finRange NPROC).find? fun q =>
      (s.proc q).parent = some p ∧ (s.proc q).state = .zombie with
  | some q =>
    if addr ≠ 0 then
      let (m, ok) := copyout s.mem (s.proc p).pagetable addr (leBytes 4 (s.proc q).xstate.toNat)
      Prog.modify fun s => { s with mem := m }
      if !ok then
        return none
      freeproc q
      return some q
    else
      freeproc q
      return some q
  | none =>
    if (∃ q, (s.proc q).parent = some p) ∧ (s.proc p).killed = false then
      Prog.sleep
    else
      return none

/-- Set up the first user process, running `initcode`. -/
def userinit (initcode : List Byte) : Prog Kernel Unit := do
  match ← allocproc with
  | none => Prog.panic "kerneltrap"
  | some p =>
    let pr := (← Prog.get).proc p
    onMem (uvmfirst pr.pagetable initcode)
    setReg pr.trapframe TFEPC 0
    setReg pr.trapframe TFSP PGSIZE
    let e ← onFs (Fs.iget 1)
    Prog.modify fun s => s.updProc p fun pr =>
      { pr with sz := PGSIZE, cwd := some e, state := .runnable }

end Kernel

end Xv6
