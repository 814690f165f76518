import Xv6.Lib.Prog
import Xv6.Param

/-!
# Inodes and their blocks (`fs.c`)

The block allocator, the inode table and inode contents, over an array of blocks: the buffer cache
and the log show one array of blocks to their users, so here a block is read with `bread` and
written with `logWrite`.  What a process writes into a buffer and does not log stays visible in the
cache (`dirty`) until the buffer is recycled, or goes to the disk with a transaction that has logged
the block before.  `logged` lists the blocks passed to `log_write`, in order.

Each function runs to its end: the sleep lock of the inode and the spin lock of the table keep the
others out.  A failing copy from or to the user is a parameter (`Source`, `sink`).
-/

namespace Xv6

open Stateful

/-- `struct superblock`, without the magic number. -/
structure Superblock where
  size : ℕ
  nblocks : ℕ
  ninodes : ℕ
  nlog : ℕ
  logstart : ℕ
  inodestart : ℕ
  bmapstart : ℕ

/-- Block containing inode `i`. -/
def Superblock.iblock (sb : Superblock) (i : ℕ) : ℕ := i / IPB + sb.inodestart

/-- Block of the free map containing the bit for block `b`. -/
def Superblock.bblock (sb : Superblock) (b : ℕ) : ℕ := b / BPB + sb.bmapstart

/-- `struct dinode`. -/
@[ext] structure Dinode where
  type : BitVec 16
  major : BitVec 16
  minor : BitVec 16
  nlink : BitVec 16
  size : BitVec 32
  addrs : Fin (NDIRECT + 1) → BitVec 32

/-- A zeroed inode. -/
def Dinode.zero : Dinode := ⟨0, 0, 0, 0, 0, fun _ => 0⟩

/-- The inode in a slot of an inode block. -/
def decodeDinode (b : Block) (slot : ℕ) : Dinode where
  type := BitVec.ofNat 16 (b.getLE 2 (DINODESIZE * slot))
  major := BitVec.ofNat 16 (b.getLE 2 (DINODESIZE * slot + 2))
  minor := BitVec.ofNat 16 (b.getLE 2 (DINODESIZE * slot + 4))
  nlink := BitVec.ofNat 16 (b.getLE 2 (DINODESIZE * slot + 6))
  size := BitVec.ofNat 32 (b.getLE 4 (DINODESIZE * slot + 8))
  addrs := fun k => BitVec.ofNat 32 (b.getLE 4 (DINODESIZE * slot + 12 + 4 * k.val))

/-- An inode block with the inode in one slot overwritten. -/
def encodeDinode (b : Block) (slot : ℕ) (d : Dinode) : Block :=
  let b := b.putLE 2 (DINODESIZE * slot) d.type.toNat
  let b := b.putLE 2 (DINODESIZE * slot + 2) d.major.toNat
  let b := b.putLE 2 (DINODESIZE * slot + 4) d.minor.toNat
  let b := b.putLE 2 (DINODESIZE * slot + 6) d.nlink.toNat
  let b := b.putLE 4 (DINODESIZE * slot + 8) d.size.toNat
  b.putWords (DINODESIZE * slot + 12) ((List.ofFn d.addrs).map BitVec.toNat)

/-- `struct inode`: a table entry, with the copy of the disk inode. -/
structure Inode extends Dinode where
  dev : ℕ
  inum : ℕ
  ref : ℕ
  valid : Bool

/-- The file system: the blocks and the inode table. -/
structure Fs where
  sb : Superblock
  disk : ℕ → Block
  dirty : ℕ → Option Block
  logged : List ℕ
  inode : Fin NINODE → Inode

/-- Where `writei` gets its bytes: `copyin tot m` is what a copy of `m` bytes from `tot` bytes after
the start delivers, and whether it succeeded. -/
structure Source where
  copyin : ℕ → ℕ → List Byte × Bool
  length_le : ∀ tot m, (copyin tot m).1.length ≤ m
  length_eq : ∀ tot m, (copyin tot m).2 = true → (copyin tot m).1.length = m

namespace Fs

/-- What a `bread` of the block finds. -/
def view (s : Fs) (b : ℕ) : Block := (s.dirty b).getD (s.disk b)

/-- Change a table entry. -/
def upd (s : Fs) (e : Fin NINODE) (f : Inode → Inode) : Fs :=
  { s with inode := Function.update s.inode e (f (s.inode e)) }

/-- Read a block. -/
def bread (b : ℕ) : Prog Fs Block := fun s => .ok (s.view b) s

/-- The blocks after a buffer was overwritten and logged. -/
def write (s : Fs) (b : ℕ) (data : Block) : Fs :=
  { s with disk := Function.update s.disk b data, dirty := Function.update s.dirty b none
           logged := s.logged ++ [b] }

/-- Overwrite a buffer and log it.  What `log_write` does when the log is full is in `inLog`. -/
def logWrite (b : ℕ) (data : Block) : Prog Fs Unit := Prog.modify fun s => s.write b data

/-- `log_write` finds the header full: it lists each block that was logged once. -/
def LogFull (s : Fs) (blocks : List ℕ) : Prop :=
  LOGSIZE ≤ blocks.toFinset.card ∨ s.sb.nlog ≤ blocks.toFinset.card + 1

instance (s : Fs) (blocks : List ℕ) : Decidable (s.LogFull blocks) := inferInstanceAs (Decidable (_ ∨ _))

/-- One of the calls of `log_write` between two states finds the header full. -/
def Overflows (s t : Fs) : Prop :=
  ∃ k < t.logged.length, s.logged.length ≤ k ∧ s.LogFull (t.logged.take k)

instance (s t : Fs) : Decidable (s.Overflows t) :=
  inferInstanceAs (Decidable (∃ k < t.logged.length, s.logged.length ≤ k ∧ s.LogFull (t.logged.take k)))

/-- A part of a transaction, with the panic of `log_write`. -/
def inLog {α : Type} (x : Prog Fs α) : Prog Fs α := fun s =>
  if s.Overflows (x s).state then .stop (.panic "too big a transaction") (x s).state else x s

/-- Overwrite a buffer and release it without logging it. -/
def leave (b : ℕ) (data : Block) : Prog Fs Unit := Prog.modify fun s =>
  { s with dirty := Function.update s.dirty b (some data) }

/-- Zero a block. -/
def bzero (b : ℕ) : Prog Fs Unit := do
  let _ ← bread b
  logWrite b fun _ => 0

/-- The inner loop of `balloc`: the first clear bit, from `bi` on, of a block whose first bit is
that of block `b`. -/
def findBit (data : Block) (b size : ℕ) : ℕ → ℕ → Option ℕ
  | 0, _ => none
  | fuel + 1, bi =>
    if bi < BPB ∧ b + bi < size then
      if data.getBit bi then findBit data b size fuel (bi + 1) else some bi
    else none

/-- The outer loop of `balloc`. -/
def ballocLoop (sb : Superblock) : ℕ → ℕ → Prog Fs ℕ
  | 0, _ => pure 0
  | fuel + 1, b =>
    if b < sb.size then do
      let data ← bread (sb.bblock b)
      match findBit data b sb.size BPB 0 with
      | some bi =>
        logWrite (sb.bblock b) (data.setBit bi)
        bzero (b + bi)
        return b + bi
      | none => ballocLoop sb fuel (b + BPB)
    else
      pure 0

/-- Allocate a zeroed disk block. Returns 0 if out of disk space. -/
def balloc : Prog Fs ℕ := do
  let sb := (← Prog.get).sb
  ballocLoop sb (sb.size / BPB + 1) 0

/-- Free a disk block. -/
def bfree (b : ℕ) : Prog Fs Unit := do
  let sb := (← Prog.get).sb
  let data ← bread (sb.bblock b)
  let bi := b % BPB
  if !data.getBit bi then
    Prog.panic "freeing free block"
  else
    logWrite (sb.bblock b) (data.clearBit bi)

/-- Find the inode with a number and return the table entry, taking a free one if necessary. -/
def iget (inum : ℕ) : Prog Fs (Fin NINODE) := do
  let s ← Prog.get
  match (List.finRange NINODE).find? fun e =>
      0 < (s.inode e).ref ∧ (s.inode e).dev = ROOTDEV ∧ (s.inode e).inum = inum with
  | some e =>
    Prog.set (s.upd e fun ip => { ip with ref := ip.ref + 1 })
    return e
  | none =>
    match (List.finRange NINODE).find? fun e => (s.inode e).ref = 0 with
    | some e =>
      Prog.set (s.upd e fun ip => { ip with dev := ROOTDEV, inum := inum, ref := 1, valid := false })
      return e
    | none => Prog.panic "iget: no inodes"

/-- The loop of `ialloc`. -/
def iallocLoop (sb : Superblock) (type : BitVec 16) : ℕ → ℕ → Prog Fs (Option (Fin NINODE))
  | 0, _ => pure none
  | fuel + 1, inum =>
    if inum < sb.ninodes then do
      let data ← bread (sb.iblock inum)
      if (decodeDinode data (inum % IPB)).type = 0 then
        logWrite (sb.iblock inum) (encodeDinode data (inum % IPB) { Dinode.zero with type := type })
        let e ← iget inum
        return some e
      else
        iallocLoop sb type fuel (inum + 1)
    else
      pure none

/-- Allocate an inode by giving it a type. -/
def ialloc (type : BitVec 16) : Prog Fs (Option (Fin NINODE)) := do
  let sb := (← Prog.get).sb
  iallocLoop sb type sb.ninodes 1

/-- Copy a modified in-memory inode to disk. -/
def iupdate (e : Fin NINODE) : Prog Fs Unit := do
  let s ← Prog.get
  let ip := s.inode e
  let data ← bread (s.sb.iblock ip.inum)
  logWrite (s.sb.iblock ip.inum) (encodeDinode data (ip.inum % IPB) ip.toDinode)

/-- Increment the reference count. -/
def idup (e : Fin NINODE) : Prog Fs Unit :=
  Prog.modify fun s => s.upd e fun ip => { ip with ref := ip.ref + 1 }

/-- Lock the inode: read it from disk if necessary. -/
def ilock (e : Fin NINODE) : Prog Fs Unit := do
  let s ← Prog.get
  let ip := s.inode e
  if ip.ref < 1 then
    Prog.panic "ilock"
  else if !ip.valid then
    let data ← bread (s.sb.iblock ip.inum)
    let d := decodeDinode data (ip.inum % IPB)
    Prog.modify fun s => s.upd e fun ip => { ip with toDinode := d, valid := true }
    if d.type = 0 then
      Prog.panic "ilock: no type"

/-- Record a block address in the in-memory inode. -/
def setAddr (e : Fin NINODE) (k : Fin (NDIRECT + 1)) (addr : ℕ) : Prog Fs Unit :=
  Prog.modify fun s => s.upd e fun ip =>
    { ip with addrs := Function.update ip.addrs k (BitVec.ofNat 32 addr) }

/-- The address of the indirect block. -/
abbrev indirectSlot : Fin (NDIRECT + 1) := Fin.last NDIRECT

/-- The block address at `addrs[k]`, allocated if there is none. -/
def mapSlot (e : Fin NINODE) (k : Fin (NDIRECT + 1)) : Prog Fs ℕ := do
  let addr := (((← Prog.get).inode e).addrs k).toNat
  if addr = 0 then
    let addr ← balloc
    if addr = 0 then
      return 0
    setAddr e k addr
    return addr
  else
    return addr

/-- The disk block address of the nth block of an inode, allocated if there is none.
Returns 0 if out of disk space. -/
def bmap (e : Fin NINODE) (bn : ℕ) : Prog Fs ℕ :=
  if h : bn < NDIRECT then
    mapSlot e ⟨bn, Nat.lt_succ_of_lt h⟩
  else do
    let bn := bn - NDIRECT
    if bn < NINDIRECT then
      let ind ← mapSlot e indirectSlot
      if ind = 0 then
        return 0
      let data ← bread ind
      let addr := data.getLE 4 (4 * bn)
      if addr = 0 then
        let addr ← balloc
        if addr ≠ 0 then
          logWrite ind (data.putLE 4 (4 * bn) addr)
        return addr
      else
        return addr
    else
      Prog.panic "bmap: out of range"

/-- Free the block in a slot of the in-memory inode, if there is one. -/
def truncSlot (e : Fin NINODE) (k : Fin (NDIRECT + 1)) : Prog Fs Unit := do
  let addr := (((← Prog.get).inode e).addrs k).toNat
  if addr ≠ 0 then
    bfree addr
    setAddr e k 0

/-- Free the blocks an indirect block lists, from entry `j` on. -/
def truncEntries (data : Block) : ℕ → ℕ → Prog Fs Unit
  | 0, _ => pure ()
  | fuel + 1, j => do
    let addr := data.getLE 4 (4 * j)
    if addr ≠ 0 then
      bfree addr
    truncEntries data fuel (j + 1)

/-- Truncate inode (discard contents). -/
def itrunc (e : Fin NINODE) : Prog Fs Unit := do
  Prog.forRange 0 NDIRECT fun i => truncSlot e (Fin.ofNat (NDIRECT + 1) i)
  let addr := (((← Prog.get).inode e).addrs indirectSlot).toNat
  if addr ≠ 0 then
    let data ← bread addr
    truncEntries data NINDIRECT 0
    truncSlot e indirectSlot
  Prog.modify fun s => s.upd e fun ip => { ip with size := 0 }
  iupdate e

/-- Drop a reference to an in-memory inode; free the inode when that was the last reference and
there are no links to it. -/
def iput (e : Fin NINODE) : Prog Fs Unit := do
  let ip := (← Prog.get).inode e
  if ip.ref = 1 ∧ ip.valid ∧ ip.nlink = 0 then
    itrunc e
    Prog.modify fun s => s.upd e fun ip => { ip with type := 0 }
    iupdate e
    Prog.modify fun s => s.upd e fun ip => { ip with valid := false }
  Prog.modify fun s => s.upd e fun ip => { ip with ref := ip.ref - 1 }

/-- The loop of `readi`: `sink` takes the bytes of a block and says whether it could. -/
def readiLoop {τ : Type} (sink : τ → ℕ → List Byte → τ × Bool) (e : Fin NINODE) (n : ℕ) :
    ℕ → ℕ → ℕ → τ → Prog Fs (τ × BitVec 32)
  | 0, tot, _, t => pure (t, BitVec.ofNat 32 tot)
  | fuel + 1, tot, off, t =>
    if tot < n then do
      let addr ← bmap e (off / BSIZE)
      if addr = 0 then
        return (t, BitVec.ofNat 32 tot)
      let data ← bread addr
      let m := min (n - tot) (BSIZE - off % BSIZE)
      let (t', ok) := sink t tot (data.slice (off % BSIZE) m)
      if !ok then
        return (t', -1)
      readiLoop sink e n fuel (tot + m) (off + m) t'
    else
      pure (t, BitVec.ofNat 32 tot)

/-- Read data from inode. -/
def readi {τ : Type} (sink : τ → ℕ → List Byte → τ × Bool) (t : τ) (e : Fin NINODE)
    (off n : BitVec 32) : Prog Fs (τ × BitVec 32) := do
  let ip := (← Prog.get).inode e
  if off > ip.size ∨ off + n < off then
    return (t, 0)
  let n := if off + n > ip.size then ip.size - off else n
  readiLoop sink e n.toNat n.toNat 0 off.toNat t

/-- The loop of `writei`; returns `tot` and `off`. -/
def writeiLoop (src : Source) (e : Fin NINODE) (n : ℕ) : ℕ → ℕ → ℕ → Prog Fs (ℕ × ℕ)
  | 0, tot, off => pure (tot, off)
  | fuel + 1, tot, off =>
    if tot < n then do
      let addr ← bmap e (off / BSIZE)
      if addr = 0 then
        return (tot, off)
      let data ← bread addr
      let m := min (n - tot) (BSIZE - off % BSIZE)
      let (bytes, ok) := src.copyin tot m
      let data := data.blit (off % BSIZE) bytes
      if !ok then
        leave addr data
        return (tot, off)
      logWrite addr data
      writeiLoop src e n fuel (tot + m) (off + m)
    else
      pure (tot, off)

/-- Write data to inode. Returns the number of bytes written, or -1. -/
def writei (src : Source) (e : Fin NINODE) (off n : BitVec 32) : Prog Fs (BitVec 32) := do
  let ip := (← Prog.get).inode e
  if off > ip.size ∨ off + n < off then
    return -1
  if (off + n).toNat > MAXFILE * BSIZE then
    return -1
  let (tot, off) ← writeiLoop src e n.toNat n.toNat 0 off.toNat
  if off > ip.size.toNat then
    Prog.modify fun s => s.upd e fun ip => { ip with size := BitVec.ofNat 32 off }
  iupdate e
  return BitVec.ofNat 32 tot

end Fs

end Xv6
