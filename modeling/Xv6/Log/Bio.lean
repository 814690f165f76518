import Xv6.Lib.Prog
import Xv6.Param

/-!
# The buffer cache (`bio.c`)

`NBUF` buffers over one disk.  A buffer is named by its index in `bcache.buf`, as the source names
it by a pointer into that array; the doubly linked list through `head` is the list `lru` of the
indices, most recently used first.  Each function is one atomic step: what it does under
`bcache.lock` together with the acquisition of the buffer's sleep lock, which waits (`sleep`) while
another process holds the buffer.  `virtio_disk_rw` writes a block to the disk at once; `writes`
keeps the blocks written so far in order.

The device number is carried but `virtio_disk_rw` does not look at it: there is one disk.
-/

namespace Xv6

open Stateful

/-- `struct buf`. `locked` is the process that holds the sleep lock. -/
structure Buf where
  valid : Bool
  dev : ℕ
  blockno : ℕ
  locked : Option ℕ
  refcnt : ℕ
  data : Block

/-- The disk and the buffer cache in front of it. -/
structure Bio where
  disk : ℕ → Block
  writes : List (ℕ × Block)
  buf : Fin NBUF → Buf
  lru : List (Fin NBUF)

namespace Bio

/-- Change one buffer. -/
def upd (s : Bio) (i : Fin NBUF) (f : Buf → Buf) : Bio :=
  { s with buf := Function.update s.buf i (f (s.buf i)) }

/-- The buffer that caches a block, looked for from the most recently used end. -/
def cached (s : Bio) (dev blockno : ℕ) : Option (Fin NBUF) :=
  s.lru.find? fun i => (s.buf i).dev = dev ∧ (s.buf i).blockno = blockno

/-- The least recently used buffer that nobody refers to. -/
def unused (s : Bio) : Option (Fin NBUF) := s.lru.reverse.find? fun i => (s.buf i).refcnt = 0

end Bio

/-- The cache after `binit`, over a disk: every buffer zero, the last one at the head. -/
def binit (disk : ℕ → Block) : Bio where
  disk := disk
  writes := []
  buf := fun _ => ⟨false, 0, 0, none, 0, fun _ => 0⟩
  lru := (List.finRange NBUF).reverse

/-- Take the sleep lock of a buffer. -/
def acquiresleep (pid : ℕ) (i : Fin NBUF) : Prog Bio Unit := do
  let s ← Prog.get
  match (s.buf i).locked with
  | some _ => Prog.sleep
  | none => Prog.set (s.upd i fun b => { b with locked := some pid })

/-- Whether the process holds the sleep lock of a buffer. -/
def holdingsleep (s : Bio) (pid : ℕ) (i : Fin NBUF) : Bool := (s.buf i).locked = some pid

/-- Look through the cache for a block; if it is not there, recycle a buffer. Returns it locked. -/
def bget (pid dev blockno : ℕ) : Prog Bio (Fin NBUF) := do
  let s ← Prog.get
  match s.cached dev blockno with
  | some i =>
    Prog.set (s.upd i fun b => { b with refcnt := b.refcnt + 1 })
    acquiresleep pid i
    return i
  | none =>
    match s.unused with
    | some i =>
      Prog.set (s.upd i fun b =>
        { b with dev := dev, blockno := blockno, valid := false, refcnt := 1 })
      acquiresleep pid i
      return i
    | none => Prog.panic "bget: no buffers"

/-- Move a block between a buffer and the disk. -/
def virtioDiskRw (i : Fin NBUF) (write : Bool) : Prog Bio Unit := do
  let s ← Prog.get
  let b := s.buf i
  if write then
    Prog.set { s with disk := Function.update s.disk b.blockno b.data
                      writes := s.writes ++ [(b.blockno, b.data)] }
  else
    Prog.set (s.upd i fun b => { b with data := s.disk b.blockno })

/-- Return a locked buffer with the contents of the indicated block. -/
def bread (pid dev blockno : ℕ) : Prog Bio (Fin NBUF) := do
  let i ← bget pid dev blockno
  let s ← Prog.get
  if !(s.buf i).valid then
    virtioDiskRw i false
    Prog.modify fun s => s.upd i fun b => { b with valid := true }
  return i

/-- Write a buffer's contents to disk. Must be locked. -/
def bwrite (pid : ℕ) (i : Fin NBUF) : Prog Bio Unit := do
  let s ← Prog.get
  if !holdingsleep s pid i then
    Prog.panic "bwrite"
  else
    virtioDiskRw i true

/-- Release a locked buffer; move it to the head of the list when nobody refers to it. -/
def brelse (pid : ℕ) (i : Fin NBUF) : Prog Bio Unit := do
  let s ← Prog.get
  if !holdingsleep s pid i then
    Prog.panic "brelse"
  else
    let t := s.upd i fun b => { b with locked := none, refcnt := b.refcnt - 1 }
    if (t.buf i).refcnt = 0 then
      Prog.set { t with lru := i :: t.lru.erase i }
    else
      Prog.set t

/-- Keep a buffer in the cache. -/
def bpin (i : Fin NBUF) : Prog Bio Unit :=
  Prog.modify fun s => s.upd i fun b => { b with refcnt := b.refcnt + 1 }

/-- Undo one `bpin`. -/
def bunpin (i : Fin NBUF) : Prog Bio Unit :=
  Prog.modify fun s => s.upd i fun b => { b with refcnt := b.refcnt - 1 }

/-- Overwrite the data of a buffer, as its lock holder does through `b->data`. -/
def setData (i : Fin NBUF) (data : Block) : Prog Bio Unit :=
  Prog.modify fun s => s.upd i fun b => { b with data := data }

end Xv6
