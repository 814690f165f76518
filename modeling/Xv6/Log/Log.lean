import Xv6.Lib.RedoLog
import Xv6.Log.Cache

/-!
# The log (`log.c`)

The log functions over the buffer cache, each as the source writes it.  The in-memory header is
the list of its first `n` block numbers: the entries from `n` on are never read.  On the disk the
header is a block of little-endian words, and writing a header leaves the words from `n` on as
they were.

`beginOp` and the two halves of `endOp` are the sections under `log.lock`; a process that has to
wait in `begin_op` stops with `sleep`.
-/

namespace Xv6

open Stateful

/-- `struct log`; `lh` is the in-memory header. -/
structure Log where
  start : ℕ
  size : ℕ
  outstanding : ℤ
  committing : Bool
  dev : ℕ
  lh : List ℕ

/-- The log together with the cached disk it lives on. -/
structure LogSys where
  bio : Bio
  log : Log

/-- Run a function of the buffer cache. -/
def io {α : Type} (x : Prog Bio α) : Prog LogSys α :=
  Prog.zoom LogSys.bio (fun b s => { s with bio := b }) x

/-- The block numbers in a header block. A negative `n` lists nothing. -/
def decodeHead (b : Block) : List ℕ :=
  if b.getLE 4 0 < 2 ^ 31 then b.getWords 4 (b.getLE 4 0) else []

/-- A header block with `n` and the first `n` block numbers overwritten. -/
def encodeHead (b : Block) (l : List ℕ) : Block := (b.putLE 4 0 l.length).putWords 4 l

/-- Where the log lies on the disk. -/
def Log.area (l : Log) : Area Block := ⟨l.start, l.size, decodeHead⟩

@[simp] theorem Log.area_start (l : Log) : l.area.start = l.start := rfl
@[simp] theorem Log.area_size (l : Log) : l.area.size = l.size := rfl
@[simp] theorem Log.area_head (l : Log) : l.area.head = decodeHead := rfl

theorem Log.listed_eq (l : Log) (d : ℕ → Block) :
    l.area.listed d = decodeHead (d l.start) := by
  rw [Area.listed, Log.area_head, Log.area_start]

/-- Copy one committed block from the log to its home location. -/
def installOne (pid : ℕ) (recovering : Bool) (tail : ℕ) : Prog LogSys Unit := do
  let s ← Prog.get
  let lbuf ← io (bread pid s.log.dev (s.log.start + tail + 1))
  let dbuf ← io (bread pid s.log.dev (s.log.lh.getD tail 0))
  let t ← Prog.get
  io (setData dbuf (t.bio.buf lbuf).data)
  io (bwrite pid dbuf)
  if !recovering then
    io (bunpin dbuf)
  io (brelse pid lbuf)
  io (brelse pid dbuf)

/-- Copy committed blocks from the log to their home location. -/
def installTrans (pid : ℕ) (recovering : Bool) : Prog LogSys Unit := do
  let s ← Prog.get
  Prog.forRange 0 s.log.lh.length (installOne pid recovering)

/-- Read the log header from disk into the in-memory log header. -/
def readHead (pid : ℕ) : Prog LogSys Unit := do
  let s ← Prog.get
  let buf ← io (bread pid s.log.dev s.log.start)
  Prog.modify fun t => { t with log := { t.log with lh := decodeHead (t.bio.buf buf).data } }
  io (brelse pid buf)

/-- Write the in-memory log header to disk: the true point at which a transaction commits. -/
def writeHead (pid : ℕ) : Prog LogSys Unit := do
  let s ← Prog.get
  let buf ← io (bread pid s.log.dev s.log.start)
  let t ← Prog.get
  io (setData buf (encodeHead (t.bio.buf buf).data t.log.lh))
  io (bwrite pid buf)
  io (brelse pid buf)

/-- `log.lh.n = 0`. -/
def clearHead : Prog LogSys Unit :=
  Prog.modify fun s => { s with log := { s.log with lh := [] } }

/-- Bring a disk up after a crash. -/
def recoverFromLog (pid : ℕ) : Prog LogSys Unit := do
  readHead pid
  installTrans pid true
  clearHead
  writeHead pid

/-- The log when a machine starts on a disk: `binit`, then `initlog` up to the recovery. -/
def initlog (start size : ℕ) (disk : ℕ → Block) : LogSys where
  bio := binit disk
  log := ⟨start, size, 0, false, ROOTDEV, []⟩

/-- Called at the start of each file system call. -/
def beginOp : Prog LogSys Unit := do
  let s ← Prog.get
  if s.log.committing then
    Prog.sleep
  else if (s.log.lh.length : ℤ) + (s.log.outstanding + 1) * MAXOPBLOCKS > LOGSIZE then
    Prog.sleep
  else
    Prog.set { s with log := { s.log with outstanding := s.log.outstanding + 1 } }

/-- `end_op` up to the release of the lock; says whether to commit. -/
def endOp : Prog LogSys Bool := do
  let s ← Prog.get
  let out := s.log.outstanding - 1
  Prog.set { s with log := { s.log with outstanding := out } }
  if s.log.committing then
    Prog.panic "log.committing"
  else if out = 0 then
    Prog.modify fun s => { s with log := { s.log with committing := true } }
    return true
  else
    return false

/-- `end_op` after `commit`. -/
def endCommit : Prog LogSys Unit :=
  Prog.modify fun s => { s with log := { s.log with committing := false } }

/-- Copy one modified block from the cache to the log. -/
def writeOne (pid tail : ℕ) : Prog LogSys Unit := do
  let s ← Prog.get
  let tobuf ← io (bread pid s.log.dev (s.log.start + tail + 1))
  let frombuf ← io (bread pid s.log.dev (s.log.lh.getD tail 0))
  let t ← Prog.get
  io (setData tobuf (t.bio.buf frombuf).data)
  io (bwrite pid tobuf)
  io (brelse pid frombuf)
  io (brelse pid tobuf)

/-- Copy modified blocks from the cache to the log. -/
def writeLog (pid : ℕ) : Prog LogSys Unit := do
  let s ← Prog.get
  Prog.forRange 0 s.log.lh.length (writeOne pid)

/-- Commit the transaction in the cache. -/
def commit (pid : ℕ) : Prog LogSys Unit := do
  let s ← Prog.get
  if 0 < s.log.lh.length then
    writeLog pid
    writeHead pid
    installTrans pid false
    clearHead
    writeHead pid

/-- Record a modified block and keep it in the cache until it is committed. -/
def logWrite (i : Fin NBUF) : Prog LogSys Unit := do
  let s ← Prog.get
  if s.log.lh.length ≥ LOGSIZE ∨ (s.log.lh.length : ℤ) ≥ s.log.size - 1 then
    Prog.panic "too big a transaction"
  else if s.log.outstanding < 1 then
    Prog.panic "log_write outside of trans"
  else
    let blockno := (s.bio.buf i).blockno
    -- a block that is listed already is absorbed
    if blockno ∉ s.log.lh then
      io (bpin i)
      Prog.modify fun s => { s with log := { s.log with lh := s.log.lh ++ [blockno] } }

end Xv6
