import Xv6.Log.Phase

/-!
# Processes sharing the log

Any number of processes run file system operations: `begin_op`, then any `bread`, modification of a
locked buffer, `log_write` and `brelse`, then `end_op`; the process whose `end_op` is the last one
of the group runs `commit`, one block write at a time.  Each section under `log.lock`, each cache
function and each modification of a buffer is one step, and the steps of the processes interleave
in any way.  A step that has to wait is not taken.

The discipline the callers keep is part of the steps: a process modifies only a buffer it has
locked, inside an operation, and logs what it has modified before it releases the buffer or ends
the operation.

`History` records what the operations have logged.  No function of the source reads it.
-/

namespace Xv6

open Stateful Function

/-- One `log_write`: the operation that called it, the block, and its contents at that time. -/
structure LogRec where
  op : ℕ
  block : ℕ
  data : Block

/-- The log writes of some groups, in order, as writes to an array of blocks. -/
def groupWrites (gs : List (List LogRec)) : List (ℕ × Block) :=
  gs.flatten.map fun r => (r.block, r.data)

/-- What the operations have done. -/
structure History where
  /-- The number of the next operation. -/
  nextOp : ℕ
  /-- Where the numbers of the current group start. -/
  base : ℕ
  /-- The operations between `begin_op` and `end_op`. -/
  active : List ℕ
  /-- The operations whose `end_op` has been reached. -/
  ended : List ℕ
  /-- The log writes of the groups handed to `commit`. -/
  groups : List (List LogRec)
  /-- The log writes since then. -/
  cur : List LogRec

namespace History

/-- An operation begins. -/
def begin (h : History) : History :=
  { h with nextOp := h.nextOp + 1, active := h.active ++ [h.nextOp] }

/-- An operation logs a block. -/
def log (h : History) (r : LogRec) : History := { h with cur := h.cur ++ [r] }

/-- An operation ends. -/
def finish (h : History) (o : ℕ) : History :=
  { h with active := h.active.erase o, ended := h.ended ++ [o] }

/-- The group is handed to `commit`. -/
def close (h : History) : History :=
  { h with groups := h.groups ++ [h.cur], cur := [], base := h.nextOp }

/-- Everything logged so far, as writes to an array of blocks. -/
def trace (h : History) : List (ℕ × Block) := groupWrites (h.groups ++ [h.cur])

/-- What was logged last for a block, on a machine that started on the disk `d`. -/
def lastLogged (h : History) (d : ℕ → Block) (b : ℕ) : Block :=
  ((h.trace.reverse.find? fun w => w.1 = b).map Prod.snd).getD (d b)

end History

/-- The log and the processes that use it. -/
structure Machine where
  sys : LogSys
  /-- The operation a process is in. -/
  op : ℕ → Option ℕ
  /-- Where a process is in `commit`. -/
  pc : ℕ → Option CommitPc
  /-- The blocks modified and not logged since. -/
  dirty : ℕ → Bool
  hist : History

/-- The machine on a disk with an empty log. -/
def boot (start size : ℕ) (disk : ℕ → Block) : Machine where
  sys := initlog start size disk
  op := fun _ => none
  pc := fun _ => none
  dirty := fun _ => false
  hist := ⟨0, 0, [], [], [], []⟩

/-- The steps of a process `p`. -/
inductive Event
  | beginOp (p : ℕ)
  | bread (p b : ℕ)
  | modify (p b : ℕ) (data : Block)
  | logWrite (p b : ℕ)
  | brelse (p b : ℕ)
  | endOp (p : ℕ)
  | commitStep (p : ℕ)

namespace Machine

/-- Run a function of the log. -/
def call {α : Type} (x : Prog LogSys α) : Prog Machine α :=
  Prog.zoom Machine.sys (fun s m => { m with sys := s }) x

/-- The buffer through which a process holds a block. -/
def held (m : Machine) (p b : ℕ) : Option (Fin NBUF) :=
  (m.sys.bio.cached ROOTDEV b).filter fun i => holdingsleep m.sys.bio p i

/-- Whether a process holds a buffer it has modified and not logged. -/
def unlogged (m : Machine) (p : ℕ) : Bool :=
  (List.finRange NBUF).any fun i =>
    holdingsleep m.sys.bio p i && m.dirty (m.sys.bio.buf i).blockno

/-- Move a process to another point of `commit`, or out of it. -/
def goto (p : ℕ) (c : Option CommitPc) : Prog Machine Unit :=
  Prog.modify fun m => { m with pc := update m.pc p c }

/-- `commit`, up to its next block write. -/
def commitStep (p : ℕ) : CommitPc → Prog Machine Unit
  | .writing tail => do
    let n := (← Prog.get).sys.log.lh.length
    if n = 0 then
      goto p (some .done)
    else if tail < n then
      call (writeOne p tail)
      goto p (some (.writing (tail + 1)))
    else
      call (writeHead p)
      goto p (some (.installing 0))
  | .installing tail => do
    let n := (← Prog.get).sys.log.lh.length
    if tail < n then
      call (installOne p false tail)
      goto p (some (.installing (tail + 1)))
    else
      call clearHead
      call (writeHead p)
      goto p (some .done)
  | .done => do
    call endCommit
    goto p none

/-- One step. A process that is in `commit` takes no other step. -/
def step (m : Machine) : Event → Prog Machine Unit
  | .beginOp p =>
    if m.op p = none ∧ m.pc p = none then do
      call Xv6.beginOp
      Prog.modify fun m =>
        { m with op := update m.op p (some m.hist.nextOp), hist := m.hist.begin }
    else
      pure ()
  | .bread p b =>
    if m.pc p = none ∧ (b < m.sys.log.start ∨ m.sys.log.start + m.sys.log.size ≤ b) ∧ b < 2 ^ 32 then
      call (io (Xv6.bread p ROOTDEV b)) >>= fun _ => pure ()
    else
      pure ()
  | .modify p b data =>
    match m.op p, m.held p b with
    | some _, some i => do
      call (io (setData i data))
      Prog.modify fun m => { m with dirty := update m.dirty b true }
    | _, _ => pure ()
  | .logWrite p b =>
    match m.op p, m.held p b with
    | some o, some i => do
      call (Xv6.logWrite i)
      Prog.modify fun m =>
        { m with dirty := update m.dirty b false
                 hist := m.hist.log ⟨o, b, (m.sys.bio.buf i).data⟩ }
    | _, _ => pure ()
  | .brelse p b =>
    match m.held p b with
    | some i => if m.dirty b then pure () else call (io (Xv6.brelse p i))
    | none => pure ()
  | .endOp p =>
    match m.op p with
    | some o =>
      if m.unlogged p then
        pure ()
      else do
        let doCommit ← call Xv6.endOp
        Prog.modify fun m =>
          { m with op := update m.op p none
                   hist := if doCommit then (m.hist.finish o).close else m.hist.finish o }
        if doCommit then
          goto p (some (.writing 0))
    | none => pure ()
  | .commitStep p =>
    match m.pc p with
    | some c => commitStep p c
    | none => pure ()

/-- One step, if it does not have to wait. -/
def exec (e : Event) : Prog Machine Unit := Prog.attempt (Prog.get >>= fun m => m.step e)

end Machine

end Xv6
