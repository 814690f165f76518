import Xv6.Proc.Kernel

/-!
# System calls and page faults (`exec.c`, `sysfile.c`, `trap.c`)

What a process can make the kernel do.  Path lookup is not part of this model: a call that takes a path
is given the number of the inode that the path names, if it names one.  `Sys` collects the calls, and
`Kernel.exec` runs one of them for a process that exists; a call that has to wait is not taken.
-/

namespace Xv6

open Stateful

/-! ### `exec` -/

/-- The fields of `struct elfhdr` that `exec` uses. -/
structure ElfHdr where
  magic : ℕ
  entry : ℕ
  phoff : ℕ
  phnum : ℕ

/-- The fields of `struct proghdr` that `exec` uses. -/
structure ProgHdr where
  type : ℕ
  flags : ℕ
  off : ℕ
  vaddr : ℕ
  filesz : ℕ
  memsz : ℕ

/-- A little-endian field of a structure in memory. -/
def fieldLE (bytes : List Byte) (off len : ℕ) : ℕ := ofLE ((bytes.drop off).take len)

def ElfHdr.decode (b : List Byte) : ElfHdr :=
  ⟨fieldLE b 0 4, fieldLE b 24 8, fieldLE b 32 8, fieldLE b 56 2⟩

def ProgHdr.decode (b : List Byte) : ProgHdr :=
  ⟨fieldLE b 0 4, fieldLE b 4 4, fieldLE b 8 8, fieldLE b 16 8, fieldLE b 32 8, fieldLE b 40 8⟩

/-- The page permissions of a segment. -/
def flags2perm (flags : ℕ) : BitVec 32 :=
  (if flags % 2 = 1 then 8#32 else 0#32) ||| (if flags / 2 % 2 = 1 then 4#32 else 0#32)

namespace Kernel

/-- Read from an inode into a kernel structure of `len` bytes; nothing if there are fewer. -/
def readStruct (e : Fin NINODE) (off : BitVec 32) (len : ℕ) : Prog Kernel (Option (List Byte)) := do
  let (bytes, r) ← onFs (Fs.readi (fun acc _ bytes => (acc ++ bytes, true)) [] e off (BitVec.ofNat 32 len))
  return if r = BitVec.ofNat 32 len then some bytes else none

/-- Read from an inode into a page of physical memory. -/
def readPage (e : Fin NINODE) (pa : ℕ) (off n : BitVec 32) : Prog Kernel (BitVec 32) := do
  let s ← Prog.get
  let (m, r) ← onFs (Fs.readi (fun m tot bytes => (m.blit pa tot bytes, true)) s.mem e off n)
  Prog.modify fun s => { s with mem := m }
  return r

/-- The loop of `loadseg`. -/
def loadsegLoop (pagetable va : ℕ) (e : Fin NINODE) (offset sz : ℕ) : ℕ → ℕ → Prog Kernel Bool
  | 0, _ => pure true
  | fuel + 1, i =>
    if i < sz then do
      let pa := walkaddr (← Prog.get).mem pagetable (add64 va i)
      if pa = 0 then
        Prog.panic "loadseg: address should exist"
      let n := min (sz - i) PGSIZE
      let r ← readPage e pa (BitVec.ofNat 32 (offset + i)) (BitVec.ofNat 32 n)
      if r ≠ BitVec.ofNat 32 n then
        return false
      loadsegLoop pagetable va e offset sz fuel (i + PGSIZE)
    else
      pure true

/-- Load a program segment into a page table. -/
def loadseg (pagetable va : ℕ) (e : Fin NINODE) (offset sz : ℕ) : Prog Kernel Bool :=
  loadsegLoop pagetable va e (offset % 2 ^ 32) (sz % 2 ^ 32) (sz % 2 ^ 32 / PGSIZE + 1) 0

/-- Load the program into memory: the size reached, and whether all segments were loaded. -/
def loadSegments (pagetable : ℕ) (e : Fin NINODE) : ℕ → BitVec 32 → ℕ → Prog Kernel (ℕ × Bool)
  | 0, _, sz => pure (sz, true)
  | phnum + 1, off, sz => do
    match ← readStruct e off 56 with
    | none => return (sz, false)
    | some bytes =>
      let ph := ProgHdr.decode bytes
      if ph.type ≠ 1 then
        loadSegments pagetable e phnum (off + 56) sz
      else if ph.memsz < ph.filesz ∨ add64 ph.vaddr ph.memsz < ph.vaddr ∨ ph.vaddr % PGSIZE ≠ 0 then
        return (sz, false)
      else
        let sz1 ← onMem (uvmalloc pagetable sz (add64 ph.vaddr ph.memsz) (flags2perm ph.flags))
        if sz1 = 0 then
          return (sz, false)
        let ok ← loadseg pagetable ph.vaddr e ph.off ph.filesz
        if !ok then
          return (sz1, false)
        loadSegments pagetable e phnum (off + 56) sz1

/-- Copy to the user memory of a page table. -/
def copyOut (pagetable dstva : ℕ) (bytes : List Byte) : Prog Kernel Bool := do
  let (m, ok) := copyout (← Prog.get).mem pagetable dstva bytes
  Prog.modify fun s => { s with mem := m }
  return ok

/-- Push argument strings; the stack pointer and the addresses of the strings. -/
def pushStrings (pagetable stackbase : ℕ) :
    List (List Byte) → ℕ → List ℕ → Prog Kernel (Option (ℕ × List ℕ))
  | [], sp, ustack => pure (some (sp, ustack))
  | arg :: argv, sp, ustack => do
    if MAXARG ≤ ustack.length then
      return none
    let sp := sub64 sp (arg.length + 1)
    let sp := sp - sp % 16
    if sp < stackbase then
      return none
    let ok ← copyOut pagetable sp (arg ++ [0])
    if !ok then
      return none
    pushStrings pagetable stackbase argv sp (ustack ++ [sp])

/-- Push the arguments and the array of pointers to them; the stack pointer. -/
def pushArgs (pagetable stackbase sp : ℕ) (argv : List (List Byte)) : Prog Kernel (Option ℕ) := do
  match ← pushStrings pagetable stackbase argv sp [] with
  | none => return none
  | some (sp, ustack) =>
    let sp := sub64 sp ((ustack.length + 1) * 8)
    let sp := sp - sp % 16
    if sp < stackbase then
      return none
    let ok ← copyOut pagetable sp ((ustack ++ [0]).flatMap (leBytes 8))
    return if ok then some sp else none

/-- The error exit of `exec`. -/
def execBad (pagetable sz : ℕ) (ip : Option (Fin NINODE)) : Prog Kernel Bool := do
  if pagetable ≠ 0 then
    procFreepagetable pagetable sz
  match ip with
  | none => pure ()
  | some e => onFs (Fs.iput e)
  return false

/-- Put the stack above the program and commit to the new image. -/
def execCommit (p : Fin NPROC) (pagetable sz entry : ℕ) (argv : List (List Byte)) :
    Prog Kernel Bool := do
  let pr := (← Prog.get).proc p
  let sz := pgRoundUp sz
  let sz1 ← onMem (uvmalloc pagetable sz (add64 sz (2 * PGSIZE)) 4#32)
  if sz1 = 0 then
    execBad pagetable sz none
  else
    onMem (uvmclear pagetable (sub64 sz1 (2 * PGSIZE)))
    match ← pushArgs pagetable (sub64 sz1 PGSIZE) sz1 argv with
    | none => execBad pagetable sz1 none
    | some sp =>
      setReg pr.trapframe TFA1 sp
      Prog.modify fun s => s.updProc p fun pr => { pr with pagetable := pagetable, sz := sz1 }
      setReg pr.trapframe TFEPC entry
      setReg pr.trapframe TFSP sp
      procFreepagetable pr.pagetable pr.sz
      return true

/-- Replace the memory of a process by a program. False on failure. -/
def execProg (p : Fin NPROC) (path : Option ℕ) (argv : List (List Byte)) : Prog Kernel Bool := do
  match path with
  | none => return false
  | some inum =>
    let e ← onFs (Fs.iget inum)
    onFs (Fs.ilock e)
    match ← readStruct e 0 64 with
    | none => execBad 0 0 (some e)
    | some bytes =>
      let elf := ElfHdr.decode bytes
      if elf.magic ≠ 0x464C457F then
        execBad 0 0 (some e)
      else
        let pagetable ← onMem (procPagetable ((← Prog.get).proc p).trapframe)
        if pagetable = 0 then
          execBad 0 0 (some e)
        else
          let (sz, ok) ← loadSegments pagetable e elf.phnum (BitVec.ofNat 32 elf.phoff) 0
          if !ok then
            execBad pagetable sz (some e)
          else
            onFs (Fs.iput e)
            execCommit p pagetable sz elf.entry argv

/-- Fetch the arguments of `exec` from user memory, each into a page of its own: the pages taken, and
the strings if all could be fetched. -/
def fetchArgs (p : Fin NPROC) (uargv : ℕ) :
    ℕ → ℕ → List ℕ → List (List Byte) → Prog Kernel (List ℕ × Option (List (List Byte)))
  | 0, _, pages, _ => pure (pages, none)
  | fuel + 1, i, pages, argv => do
    let s ← Prog.get
    let pr := s.proc p
    let a := add64 uargv (8 * i)
    if pr.sz ≤ a ∨ pr.sz < add64 a 8 then
      return (pages, none)
    let (bytes, ok) := copyin s.mem pr.pagetable a 8
    if !ok then
      return (pages, none)
    if ofLE bytes = 0 then
      return (pages, some argv)
    let page ← onMem kalloc
    if page = 0 then
      return (pages, none)
    match copyinstr (← Prog.get).mem pr.pagetable (ofLE bytes) PGSIZE with
    | none => return (pages ++ [page], none)
    | some str => fetchArgs p uargv fuel (i + 1) (pages ++ [page]) (argv ++ [str])

/-- Free the pages of the arguments. -/
def freeArgs : List ℕ → Prog Kernel Unit
  | [] => pure ()
  | page :: pages => do
    onMem (kfree page)
    freeArgs pages

/-- The `exec` system call. -/
def sysExec (p : Fin NPROC) (path : Option ℕ) (uargv : ℕ) : Prog Kernel Unit := do
  let (pages, argv) ← fetchArgs p uargv MAXARG 0 [] []
  match argv with
  | none => freeArgs pages
  | some argv =>
    let _ ← execProg p path argv
    freeArgs pages

/-! ### Descriptors -/

/-- Allocate a file descriptor. -/
def fdalloc (p : Fin NPROC) (f : Fin NFILE) : Prog Kernel (Option (Fin NOFILE)) := do
  let s ← Prog.get
  match (List.finRange NOFILE).find? fun fd => (s.proc p).ofile fd = none with
  | none => return none
  | some fd =>
    Prog.set (s.setOfile p fd (some f))
    return some fd

/-- The `dup` system call. -/
def sysDup (p : Fin NPROC) (fd : Fin NOFILE) : Prog Kernel Unit := do
  match ((← Prog.get).proc p).ofile fd with
  | none => pure ()
  | some f =>
    match ← fdalloc p f with
    | none => pure ()
    | some _ => filedup f

/-- The `close` system call. -/
def sysClose (p : Fin NPROC) (fd : Fin NOFILE) : Prog Kernel Unit := do
  match ((← Prog.get).proc p).ofile fd with
  | none => pure ()
  | some f =>
    Prog.modify fun s => s.setOfile p fd none
    fileclose f

/-- The types of inodes. -/
abbrev TDIR : BitVec 16 := 1#16
abbrev TFILE : BitVec 16 := 2#16
abbrev TDEVICE : BitVec 16 := 3#16

/-- Fill in a new file structure and truncate the file if asked to, in `open`. -/
def openFile (f : Fin NFILE) (e : Fin NINODE) (ip : Inode) (omode : BitVec 32) : Prog Kernel Unit := do
  Prog.modify fun s => s.updFile f fun fl =>
    { fl with
      type := if ip.type = TDEVICE then .device else .inode
      major := if ip.type = TDEVICE then ip.major else fl.major
      off := if ip.type = TDEVICE then fl.off else 0
      ip := some e
      readable := omode &&& 1 = 0
      writable := omode &&& 1 ≠ 0 ∨ omode &&& 2 ≠ 0 }
  if omode &&& 0x400 ≠ 0 ∧ ip.type = TFILE then
    onFs (Fs.itrunc e)

/-- The `open` system call, for the inode that the path names, after it was created if asked to. -/
def sysOpen (p : Fin NPROC) (path : Option ℕ) (omode : BitVec 32) : Prog Kernel Unit := do
  match path with
  | none => pure ()
  | some inum =>
    let e ← onFs (Fs.iget inum)
    onFs (Fs.ilock e)
    let ip := (← Prog.get).fs.inode e
    if (ip.type = TDIR ∧ omode ≠ 0) ∨
        (ip.type = TDEVICE ∧ (ip.major.toInt < 0 ∨ NDEV ≤ ip.major.toInt)) then
      onFs (Fs.iput e)
    else
      match ← filealloc with
      | none => onFs (Fs.iput e)
      | some f =>
        match ← fdalloc p f with
        | none =>
          fileclose f
          onFs (Fs.iput e)
        | some _ => openFile f e ip omode

/-- Close the files a failed `pipealloc` has. -/
def pipeBad (f0 f1 : Option (Fin NFILE)) : Prog Kernel (Option (Fin NFILE × Fin NFILE)) := do
  match f0 with
  | none => pure ()
  | some f => fileclose f
  match f1 with
  | none => pure ()
  | some f => fileclose f
  return none

/-- Allocate a pipe and its two files. -/
def pipealloc : Prog Kernel (Option (Fin NFILE × Fin NFILE)) := do
  match ← filealloc with
  | none => pipeBad none none
  | some f0 =>
    match ← filealloc with
    | none => pipeBad (some f0) none
    | some f1 =>
      let pi ← onMem kalloc
      if pi = 0 then
        pipeBad (some f0) (some f1)
      else
        Prog.modify fun s => { s with pipe := Function.update s.pipe pi (some ⟨true, true⟩) }
        Prog.modify fun s => s.updFile f0 fun fl =>
          { fl with type := .pipe, readable := true, writable := false, pipe := pi }
        Prog.modify fun s => s.updFile f1 fun fl =>
          { fl with type := .pipe, readable := false, writable := true, pipe := pi }
        return some (f0, f1)

/-- The `pipe` system call. -/
def sysPipe (p : Fin NPROC) (fdarray : ℕ) : Prog Kernel Unit := do
  match ← pipealloc with
  | none => pure ()
  | some (rf, wf) =>
    match ← fdalloc p rf with
    | none =>
      fileclose rf
      fileclose wf
    | some fd0 =>
      match ← fdalloc p wf with
      | none =>
        Prog.modify fun s => s.setOfile p fd0 none
        fileclose rf
        fileclose wf
      | some fd1 =>
        let pagetable := ((← Prog.get).proc p).pagetable
        let ok0 ← copyOut pagetable fdarray (leBytes 4 fd0.val)
        let ok ← if ok0 then copyOut pagetable (add64 fdarray 4) (leBytes 4 fd1.val) else pure false
        if !ok then
          Prog.modify fun s => s.setOfile p fd0 none
          Prog.modify fun s => s.setOfile p fd1 none
          fileclose rf
          fileclose wf

/-! ### Mapped files -/

/-- The region an address belongs to. -/
def findVma (pr : Proc) (va : ℕ) : Option (Fin VMAMAX) :=
  (List.finRange VMAMAX).find? fun i =>
    (pr.vma i).addr ≤ va ∧ va < add64 (pr.vma i).addr (sext64 (pr.vma i).len) ∧ (pr.vma i).valid

/-- Fill an empty region and move the top of the mapped area, in `mmap`. -/
def fillVma (p : Fin NPROC) (idx : Fin VMAMAX) (f : Fin NFILE) (len prot flags off : BitVec 32) :
    Prog Kernel Unit := do
  Prog.modify fun s => s.updVma p idx fun v =>
    { v with valid := true, len := len, flags := flags, off := off, prot := prot, f := some f }
  filedup f
  let top := sub64 ((← Prog.get).proc p).vmaTop (sext64 len)
  Prog.modify fun s => s.updProc p fun pr => { pr with vmaTop := top }
  Prog.modify fun s => s.updVma p idx fun v => { v with addr := top }

/-- The `mmap` system call. A descriptor that is not open is a null pointer, followed when the file is
looked at. -/
def sysMmap (p : Fin NPROC) (len prot flags : BitVec 32) (fd : Fin NOFILE) (off : BitVec 32) :
    Prog Kernel Unit := do
  let s ← Prog.get
  let pr := s.proc p
  let empty := (List.finRange VMAMAX).find? fun i => (pr.vma i).valid = false
  match pr.ofile fd with
  | none =>
    if flags ≠ MAPSHARED ∧ empty = none then
      Prog.panic "All VMA struct is full!"
    else
      Prog.panic "kerneltrap"
  | some f =>
    if flags = MAPSHARED ∧ (s.file f).writable = false ∧ prot &&& PROTWRITE ≠ 0 then
      pure ()
    else
      match empty with
      | none => Prog.panic "All VMA struct is full!"
      | some idx => fillVma p idx f len prot flags off

/-- The `munmap` system call. -/
def sysMunmap (p : Fin NPROC) (addr : ℕ) (len : BitVec 32) : Prog Kernel Unit := do
  let s ← Prog.get
  let pr := s.proc p
  match findVma pr addr with
  | none => Prog.panic "Cannot find a vma struct representing this file!"
  | some i =>
    let v := pr.vma i
    if walkaddr s.mem pr.pagetable addr ≠ 0 then
      -- write back and unmap
      if v.flags = MAPSHARED then
        match v.f with
        | none => Prog.panic "kerneltrap"
        | some f => let _ ← filewrite p f addr len
      onMem (uvmunmap pr.pagetable addr (sext64 (BitVec.ofInt 32 (len.toInt.tdiv PGSIZE))) true)
    else
      let refcnt := sub64 v.refcnt 1
      Prog.modify fun s => s.updVma p i fun v => { v with refcnt := refcnt }
      if refcnt ≠ 0 then
        match v.f with
        | none => Prog.panic "kerneltrap"
        | some f =>
          fileclose f
          Prog.modify fun s => s.updVma p i fun v => { v with valid := false }

/-- The permissions `usertrap` gives a page of a region. -/
def vmaPerm (prot : BitVec 32) : BitVec 32 := 0x11#32 ||| prot <<< 1

/-- A load page fault in `usertrap`. -/
def loadFault (p : Fin NPROC) (va : ℕ) : Prog Kernel Unit := do
  let pr := (← Prog.get).proc p
  match findVma pr va with
  | none =>
    Prog.modify fun s => s.updProc p fun pr => { pr with killed := true }
    exit p (-1)
  | some i =>
    let v := pr.vma i
    let mem ← onMem kalloc
    onMem (memset mem 0)
    let ok ← onMem (mappages pr.pagetable va PGSIZE mem (vmaPerm v.prot))
    if !ok then
      Prog.panic "Cannot map a virtual page for the file!"
    Prog.modify fun s => s.updVma p i fun v => { v with refcnt := add64 v.refcnt 1 }
    match v.f with
    | none => Prog.panic "kerneltrap"
    | some f =>
      let e ← lockFile f
      let _ ← readPage e mem (BitVec.ofNat 32 (sub64 va v.addr)) (BitVec.ofNat 32 PGSIZE)

/-- Can the user access an address in some way? -/
def userMapped (m : Mem) (pagetable va : ℕ) (flag : BitVec 64) : Bool :=
  if MAXVA ≤ va then false
  else
    match lookup m pagetable va with
    | none => false
    | some pte => hasFlag pte PTEV && hasFlag pte PTEU && hasFlag pte flag

/-- A load by user code: it may fault. -/
def userLoad (p : Fin NPROC) (va : ℕ) : Prog Kernel Unit := do
  let s ← Prog.get
  if userMapped s.mem (s.proc p).pagetable va PTER then
    pure ()
  else
    loadFault p va

/-- A store of a byte by user code: the process is killed if it faults. -/
def userStore (p : Fin NPROC) (va : ℕ) (b : Byte) : Prog Kernel Unit := do
  let s ← Prog.get
  if userMapped s.mem (s.proc p).pagetable va PTEW then
    let pa := walkaddr s.mem (s.proc p).pagetable va
    Prog.modify fun s => { s with mem := s.mem.blit pa (va % PGSIZE) [b] }
  else
    Prog.modify fun s => s.updProc p fun pr => { pr with killed := true }
    exit p (-1)

end Kernel

/-! ### Events -/

/-- What a process does. -/
inductive Sys
  | open (path : Option ℕ) (omode : BitVec 32)
  | dup (fd : Fin NOFILE)
  | close (fd : Fin NOFILE)
  | pipe (fdarray : ℕ)
  | read (fd : Fin NOFILE) (addr : ℕ) (n : BitVec 32)
  | write (fd : Fin NOFILE) (addr : ℕ) (n : BitVec 32)
  | fork
  | exec (path : Option ℕ) (uargv : ℕ)
  | exit (status : BitVec 32)
  | wait (addr : ℕ)
  | sbrk (n : BitVec 32)
  | mmap (len prot flags : BitVec 32) (fd : Fin NOFILE) (off : BitVec 32)
  | munmap (addr : ℕ) (len : BitVec 32)
  | load (va : ℕ)
  | store (va : ℕ) (b : Byte)

namespace Kernel

/-- One call of a process. -/
def call (p : Fin NPROC) : Sys → Prog Kernel Unit
  | .open path omode => sysOpen p path omode
  | .dup fd => sysDup p fd
  | .close fd => sysClose p fd
  | .pipe fdarray => sysPipe p fdarray
  | .read fd addr n => do
    match ((← Prog.get).proc p).ofile fd with
    | none => pure ()
    | some f => fileread p f addr n
  | .write fd addr n => do
    match ((← Prog.get).proc p).ofile fd with
    | none => pure ()
    | some f => let _ ← filewrite p f addr n
  | .fork => do let _ ← fork p
  | .exec path uargv => sysExec p path uargv
  | .exit status => exit p status
  | .wait addr => do let _ ← wait p addr
  | .sbrk n => do let _ ← growproc p n
  | .mmap len prot flags fd off => sysMmap p len prot flags fd off
  | .munmap addr len => sysMunmap p addr len
  | .load va => userLoad p va
  | .store va b => userStore p va b

/-- A call of a process that exists and can run. -/
def exec (e : Fin NPROC × Sys) : Prog Kernel Unit := do
  if ((← Prog.get).proc e.1).state = .runnable then
    Prog.attempt (call e.1 e.2)
  else
    pure ()

/-- The kernel before the first process: no processes, no open files, and the free list `kinit` has
made. -/
def initial (mem : Mem) (fs : Fs) : Kernel where
  mem := mem
  fs := fs
  file := fun _ => ⟨.none, 0, false, false, 0, none, 0, 0⟩
  pipe := fun _ => none
  proc := fun _ =>
    { state := .unused, killed := false, xstate := 0, pid := 0, parent := none, sz := 0
      pagetable := 0, trapframe := 0, ofile := fun _ => none, cwd := none
      vma := fun _ => ⟨false, 0, 0, 0, 0, 0, none, 0⟩, vmaTop := 0 }
  nextpid := 1
  freed := []

/-- A run: the first process is set up, then the processes make their calls in some order. -/
def run (initcode : List Byte) (es : List (Fin NPROC × Sys)) : Prog Kernel Unit := do
  userinit initcode
  runs exec es

end Kernel

end Xv6
