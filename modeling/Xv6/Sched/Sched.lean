import Xv6.Param

/-!
# Processes, CPUs and their locks (`proc.c`)

The process table as several CPUs see it.  Every `p->lock` and `wait_lock` are explicit, a step goes
from one acquire or release to the next, and the steps of the CPUs interleave in any way.  The kernel
thread of a process has a position `Pc` in `fork`, `exit`, `wait`, `kill`, `sleep` or `setkilled`;
what the rest of the kernel does between these calls touches nothing here, except that it calls
`wakeup`, from interrupt handlers too, and that a timer interrupt calls `yield` where no lock is held.

* `Entry`, `Pc`, `Sys`: the fields under `p->lock`, the positions, the machine;
* `Move`, `Take`, `Body`, `Leave`: what a thread does without a lock, when it acquires `wait_lock`,
  in a section under one `p->lock`, and when it gives up the CPU;
* `Step s e t`: one step, with what an observer sees of it; `Run` for a whole run from `booted`.
-/

namespace Xv6

open Function (update)

namespace Sched

/-- The index of an entry of the process table. -/
abbrev Slot := Fin NPROC

/-- `enum procstate`. -/
inductive PState
  | UNUSED
  | USED
  | SLEEPING
  | RUNNABLE
  | RUNNING
  | ZOMBIE
  deriving DecidableEq

/-- What a process can sleep on: `wait` sleeps on the process itself. -/
inductive Chan
  | null
  | proc (p : Slot)
  | other (a : ℕ)
  deriving DecidableEq

/-- The fields of `struct proc` that `p->lock` protects. -/
structure Entry where
  state : PState
  pid : BitVec 32
  killed : Bool
  xstate : BitVec 32
  chan : Chan
  deriving DecidableEq

namespace Entry

/-- `freeproc`, but for the memory and for `p->parent`. -/
def free (_ : Entry) : Entry := ⟨.UNUSED, 0, false, 0, .null⟩

/-- `allocproc`: the other fields are left as they are. -/
def alloc (e : Entry) (pid : BitVec 32) : Entry := { e with state := .USED, pid := pid }

/-- What `wakeup(chan)` does to an entry. -/
def wakeup (ch : Chan) (e : Entry) : Entry :=
  if e.state = .SLEEPING ∧ e.chan = ch then { e with state := .RUNNABLE } else e

/-- What `kill` does to the entry it has found. -/
def kill (e : Entry) : Entry :=
  { e with killed := true, state := if e.state = .SLEEPING then .RUNNABLE else e.state }

end Entry

/-- Where the kernel thread of a process is.  A position that names a lock in its comment is the one
before that lock is acquired, and inside its section. -/
inductive Pc
  /-- Outside the calls of this file. -/
  | user
  /-- `fork`: `allocproc` looks at entry `i` (its lock). -/
  | alloc (i : ℕ)
  /-- `fork`: about to set `np->parent` (`wait_lock`). -/
  | forkParent (np : Slot)
  /-- `fork`: about to make the child runnable (`np->lock`). -/
  | forkRun (np : Slot)
  /-- `exit`: about to acquire `wait_lock`. -/
  | exit (status : BitVec 32)
  /-- `exit`: `reparent` looks at entry `i`. -/
  | reparent (status : BitVec 32) (i : ℕ)
  /-- `exit`: after `wakeup(p->parent)` (`p->lock`). -/
  | exitSelf (status : BitVec 32)
  /-- `exit`: in `sched`, never to return. -/
  | zombie
  /-- `wait`: about to acquire `wait_lock`. -/
  | wait
  /-- `wait`: the scan is at entry `i`. -/
  | waitScan (i : ℕ) (havekids : Bool)
  /-- `wait`: entry `i` is a child (its lock). -/
  | waitCheck (i : Slot)
  /-- `wait`: about to call `killed(p)` (`p->lock`). -/
  | waitKilled
  /-- `wait`: in `sleep(p, &wait_lock)` (`p->lock`). -/
  | waitSleep
  /-- `sleep` on another channel (`p->lock`). -/
  | sleep (a : ℕ)
  /-- `sleep`: `sched` has been called, from `wait` or from elsewhere. -/
  | slept (inWait : Bool)
  /-- `kill`: looks at entry `i` (its lock). -/
  | kill (pid : BitVec 32) (i : ℕ)
  /-- `setkilled(myproc())` (`p->lock`). -/
  | setkilled
  deriving DecidableEq

/-- How a kernel thread stands to the CPU. -/
inductive Switch
  /-- It runs its code. -/
  | going
  /-- It runs `yield`, and is about to acquire `p->lock`. -/
  | yielding
  /-- It is in `sched`, before `swtch`. -/
  | leaving
  /-- It is away, or has been switched to and has not released `p->lock` yet. -/
  | away
  deriving DecidableEq

/-- Where a CPU is. -/
inductive Where
  /-- `scheduler`: about to acquire the lock of entry `i`. -/
  | scan (i : Slot)
  /-- `scheduler`: holding the lock of entry `i`. -/
  | check (i : Slot)
  /-- On the kernel stack of `c->proc`. -/
  | running
  /-- `scheduler`: `swtch` has come back from process `i`. -/
  | back (i : Slot)
  deriving DecidableEq

/-- What an observer sees of a step. -/
inductive Ev
  | tau
  /-- `fork` by `p` has allocated entry `np`. -/
  | born (p np : Slot)
  /-- `p` has called `exit(status)`. -/
  | exitCall (p : Slot) (status : BitVec 32)
  /-- `p` has become a zombie. -/
  | exited (p : Slot)
  /-- `wait` by `p` has copied out the status of `z`, freed it and returned its pid. -/
  | collected (p z : Slot) (pid status : BitVec 32)
  /-- A call `kill(pid)` is made, or looks at an entry. -/
  | killing (pid : BitVec 32)
  /-- `setkilled` on `p`. -/
  | setkilled (p : Slot)
  deriving DecidableEq

/-- The process table, the locks, the kernel threads and the CPUs. -/
structure Sys where
  entry : Slot → Entry
  /-- `p->parent`, which `wait_lock` protects. -/
  parent : Slot → Option Slot
  nextpid : BitVec 32
  /-- The CPU that holds `p->lock`. -/
  lock : Slot → Option ℕ
  /-- The process that holds `wait_lock`. -/
  waitLock : Option Slot
  pc : Slot → Pc
  sw : Slot → Switch
  /-- `c->proc`. -/
  cur : ℕ → Option Slot
  loc : ℕ → Where
  /-- The CPU is in `wakeup(chan)`, at entry `i`. -/
  wake : ℕ → Option (Chan × ℕ)

namespace Sys

/-- Entry `i` becomes `e`. -/
def put (s : Sys) (i : Slot) (e : Entry) : Sys := { s with entry := update s.entry i e }

/-- `acquire(&p->lock)` on CPU `c`. -/
def acquire (s : Sys) (c : ℕ) (i : Slot) : Sys :=
  { s with lock := update s.lock i (some c) }

/-- `release(&p->lock)`. -/
def release (s : Sys) (i : Slot) : Sys := { s with lock := update s.lock i none }

/-- The kernel thread of `q` goes on at `k`. -/
def goto (s : Sys) (q : Slot) (k : Pc) : Sys := { s with pc := update s.pc q k }

/-- The kernel thread of `q` stands to its CPU as `x`. -/
def turn (s : Sys) (q : Slot) (x : Switch) : Sys := { s with sw := update s.sw q x }

/-- CPU `c` is at `w`. -/
def move (s : Sys) (c : ℕ) (w : Where) : Sys := { s with loc := update s.loc c w }

/-- `c->proc = p`. -/
def setCur (s : Sys) (c : ℕ) (p : Option Slot) : Sys := { s with cur := update s.cur c p }

/-- CPU `c` is at `w` in `wakeup`. -/
def setWake (s : Sys) (c : ℕ) (w : Option (Chan × ℕ)) : Sys :=
  { s with wake := update s.wake c w }

/-- `acquire(&wait_lock)` and `release(&wait_lock)`. -/
def setWait (s : Sys) (q : Option Slot) : Sys := { s with waitLock := q }

/-- `p->parent = q`. -/
def setParent (s : Sys) (p : Slot) (q : Option Slot) : Sys :=
  { s with parent := update s.parent p q }

/-- CPU `c` runs the code of process `q`, outside `wakeup`. -/
structure On (s : Sys) (c : ℕ) (q : Slot) : Prop where
  cur : s.cur c = some q
  running : s.loc c = .running
  wake : s.wake c = none
  going : s.sw q = .going

/-- CPU `c` holds no lock: interrupts are enabled. -/
def Unlocked (s : Sys) (c : ℕ) : Prop :=
  (∀ i, s.lock i ≠ some c) ∧ ∀ q, s.cur c = some q → s.waitLock ≠ some q

end Sys

/-- The first process: `userinit` finds the whole table unused. -/
def initproc : Slot := ⟨0, by decide⟩

/-- `wakeup(p->parent)`. -/
def parentChan : Option Slot → Chan
  | none => .null
  | some p => .proc p

/-- What a thread does without acquiring or releasing a lock. -/
inductive Move (s : Sys) (q : Slot) : Pc → Ev → Pc → Prop
  | fork : Move s q .user .tau (.alloc 0)
  | allocEnd : Move s q (.alloc NPROC) .tau .user
  /-- `exit` by `initproc` panics. -/
  | exit (st : BitVec 32) (h : q ≠ initproc) : Move s q .user (.exitCall q st) (.exit st)
  | reparentSkip (st : BitVec 32) (i : Slot) (h : s.parent i ≠ some q) :
      Move s q (.reparent st i.val) .tau (.reparent st (i.val + 1))
  | wait : Move s q .user .tau .wait
  | waitSkip (i : Slot) (kids : Bool) (h : s.parent i ≠ some q) :
      Move s q (.waitScan i.val kids) .tau (.waitScan (i.val + 1) kids)
  | waitFound (i : Slot) (kids : Bool) (h : s.parent i = some q) :
      Move s q (.waitScan i.val kids) .tau (.waitCheck i)
  | waitKids : Move s q (.waitScan NPROC true) .tau .waitKilled
  | sleep (a : ℕ) : Move s q .user .tau (.sleep a)
  | kill (pid : BitVec 32) : Move s q .user (.killing pid) (.kill pid 0)
  | killEnd (pid : BitVec 32) : Move s q (.kill pid NPROC) .tau .user
  | setkilled : Move s q .user .tau .setkilled

/-- Where acquiring `wait_lock` leads to. -/
inductive Take : Pc → Pc → Prop
  | exit (st : BitVec 32) : Take (.exit st) (.reparent st 0)
  | wait : Take .wait (.waitScan 0 false)

/-- The `p->lock` a thread of `q` acquires next. -/
inductive Wants (q : Slot) : Pc → Slot → Prop
  | alloc (i : Slot) : Wants q (.alloc i.val) i
  | forkRun (np : Slot) : Wants q (.forkRun np) np
  | exitSelf (st : BitVec 32) : Wants q (.exitSelf st) q
  | waitCheck (i : Slot) : Wants q (.waitCheck i) i
  | waitKilled : Wants q .waitKilled q
  | waitSleep : Wants q .waitSleep q
  | sleep (a : ℕ) : Wants q (.sleep a) q
  | kill (pid : BitVec 32) (i : Slot) : Wants q (.kill pid i.val) i
  | setkilled : Wants q .setkilled q

/-- A section of `q` under the lock of one entry: the entry before and after, and where it goes on. -/
inductive Body (q : Slot) : Pc → Slot → Entry → Ev → Entry → Pc → Prop
  | allocNext (i : Slot) (e : Entry) (h : e.state ≠ .UNUSED) :
      Body q (.alloc i.val) i e .tau e (.alloc (i.val + 1))
  | forkRun (np : Slot) (e : Entry) :
      Body q (.forkRun np) np e .tau { e with state := .RUNNABLE } .user
  | waitNext (i : Slot) (e : Entry) (h : e.state ≠ .ZOMBIE) :
      Body q (.waitCheck i) i e .tau e (.waitScan (i.val + 1) true)
  | waitGo (e : Entry) (h : e.killed = false) : Body q .waitKilled q e .tau e .waitSleep
  | killHit (pid : BitVec 32) (i : Slot) (e : Entry) (h : e.pid = pid) :
      Body q (.kill pid i.val) i e (.killing pid) e.kill .user
  | killNext (pid : BitVec 32) (i : Slot) (e : Entry) (h : e.pid ≠ pid) :
      Body q (.kill pid i.val) i e (.killing pid) e (.kill pid (i.val + 1))
  | setkilled (e : Entry) :
      Body q .setkilled q e (.setkilled q) { e with killed := true } .user

/-- A section of `wait` that returns -1: `copyout` fails, or the caller has been killed. -/
inductive Fails (q : Slot) : Pc → Slot → Entry → Prop
  | copyout (i : Slot) (e : Entry) (h : e.state = .ZOMBIE) : Fails q (.waitCheck i) i e
  | killed (e : Entry) (h : e.killed = true) : Fails q .waitKilled q e

/-- What `q` does to its own entry, under `p->lock`, before it calls `sched`; the flag says whether
it gives up `wait_lock`. -/
inductive Leave (q : Slot) : Pc → Entry → Ev → Bool → Entry → Pc → Prop
  | exit (st : BitVec 32) (e : Entry) :
      Leave q (.exitSelf st) e (.exited q) true { e with xstate := st, state := .ZOMBIE } .zombie
  | wait (e : Entry) :
      Leave q .waitSleep e .tau true { e with chan := .proc q, state := .SLEEPING } (.slept true)
  | sleep (a : ℕ) (e : Entry) :
      Leave q (.sleep a) e .tau false { e with chan := .other a, state := .SLEEPING } (.slept false)

/-- Where a thread goes on after `sched`, and what it does to its entry. -/
inductive Resume : Pc → Entry → Entry → Pc → Prop
  | slept (e : Entry) : Resume (.slept false) e { e with chan := .null } .user
  | sleptWait (e : Entry) : Resume (.slept true) e { e with chan := .null } .wait
  | yield (k : Pc) (e : Entry) (h : ∀ w, k ≠ .slept w) (hz : k ≠ .zombie) : Resume k e e k

/-- One step of one CPU. -/
inductive Step : Sys → Ev → Sys → Prop
  -- `scheduler`
  | schedLock (s : Sys) (c : ℕ) (i : Slot) (h : s.loc c = .scan i) (hw : s.wake c = none)
      (hl : s.lock i = none) : Step s .tau ((s.acquire c i).move c (.check i))
  | schedRun (s : Sys) (c : ℕ) (i : Slot) (h : s.loc c = .check i)
      (hr : (s.entry i).state = .RUNNABLE) :
      Step s .tau (((s.put i { s.entry i with state := .RUNNING }).setCur c (some i)).move c .running)
  | schedSkip (s : Sys) (c : ℕ) (i : Slot) (h : s.loc c = .check i)
      (hr : (s.entry i).state ≠ .RUNNABLE) :
      Step s .tau ((s.release i).move c (.scan (i + 1)))
  | schedBack (s : Sys) (c : ℕ) (i : Slot) (h : s.loc c = .back i) :
      Step s .tau (((s.setCur c none).release i).move c (.scan (i + 1)))
  -- the code of a process
  | move (s : Sys) (c : ℕ) (q : Slot) (e : Ev) (k : Pc) (on : s.On c q) (h : Move s q (s.pc q) e k) :
      Step s e (s.goto q k)
  | acquire (s : Sys) (c : ℕ) (q i : Slot) (on : s.On c q) (h : Wants q (s.pc q) i)
      (hl : s.lock i = none) : Step s .tau (s.acquire c i)
  | body (s : Sys) (c : ℕ) (q i : Slot) (e : Ev) (x : Entry) (k : Pc) (on : s.On c q)
      (hl : s.lock i = some c) (h : Body q (s.pc q) i (s.entry i) e x k) :
      Step s e (((s.put i x).release i).goto q k)
  /-- `allocproc` or `fork` runs out of memory: the entry is freed again. -/
  | allocFail (s : Sys) (c : ℕ) (q i : Slot) (on : s.On c q) (hl : s.lock i = some c)
      (hp : s.pc q = .alloc i.val) (h : (s.entry i).state = .UNUSED) :
      Step s .tau ({ (((s.put i (s.entry i).free).setParent i none).release i).goto q .user with
        nextpid := s.nextpid + 1 })
  | allocOk (s : Sys) (c : ℕ) (q i : Slot) (on : s.On c q) (hl : s.lock i = some c)
      (hp : s.pc q = .alloc i.val) (h : (s.entry i).state = .UNUSED) :
      Step s (.born q i) ({ (((((s.put i ((s.entry i).alloc s.nextpid)).release i).goto i .user).turn i
        .away).goto q (.forkParent i)) with nextpid := s.nextpid + 1 })
  | forkParent (s : Sys) (c : ℕ) (q np : Slot) (on : s.On c q) (hp : s.pc q = .forkParent np)
      (hl : s.waitLock = none) : Step s .tau ((s.setParent np (some q)).goto q (.forkRun np))
  | take (s : Sys) (c : ℕ) (q : Slot) (k : Pc) (on : s.On c q) (h : Take (s.pc q) k)
      (hl : s.waitLock = none) : Step s .tau ((s.setWait (some q)).goto q k)
  | reparentGive (s : Sys) (c : ℕ) (q i : Slot) (st : BitVec 32) (on : s.On c q)
      (hp : s.pc q = .reparent st i.val) (h : s.parent i = some q) :
      Step s .tau (((s.setParent i (some initproc)).setWake c (some (.proc initproc, 0))).goto q
        (.reparent st (i.val + 1)))
  | reparentEnd (s : Sys) (c : ℕ) (q : Slot) (st : BitVec 32) (on : s.On c q)
      (hp : s.pc q = .reparent st NPROC) :
      Step s .tau ((s.setWake c (some (parentChan (s.parent q), 0))).goto q (.exitSelf st))
  /-- `wait` finds no child. -/
  | waitNone (s : Sys) (c : ℕ) (q : Slot) (on : s.On c q) (hp : s.pc q = .waitScan NPROC false) :
      Step s .tau ((s.setWait none).goto q .user)
  | waitFail (s : Sys) (c : ℕ) (q i : Slot) (on : s.On c q) (hl : s.lock i = some c)
      (h : Fails q (s.pc q) i (s.entry i)) :
      Step s .tau (((s.release i).setWait none).goto q .user)
  | collect (s : Sys) (c : ℕ) (q i : Slot) (on : s.On c q) (hl : s.lock i = some c)
      (hp : s.pc q = .waitCheck i) (h : (s.entry i).state = .ZOMBIE) :
      Step s (.collected q i (s.entry i).pid (s.entry i).xstate)
        (((((s.put i (s.entry i).free).setParent i none).release i).setWait none).goto q .user)
  | leave (s : Sys) (c : ℕ) (q : Slot) (e : Ev) (drop : Bool) (x : Entry) (k : Pc) (on : s.On c q)
      (hl : s.lock q = some c) (h : Leave q (s.pc q) (s.entry q) e drop x k) :
      Step s e ((((s.put q x).setWait (if drop then none else s.waitLock)).goto q k).turn q .leaving)
  /-- A timer interrupt, where no lock is held. -/
  | yieldCall (s : Sys) (c : ℕ) (q : Slot) (on : s.On c q) (h : s.Unlocked c) :
      Step s .tau (s.turn q .yielding)
  | yield (s : Sys) (c : ℕ) (q : Slot) (hc : s.cur c = some q) (hr : s.loc c = .running)
      (hw : s.wake c = none) (hs : s.sw q = .yielding) (hl : s.lock q = none) :
      Step s .tau (((s.acquire c q).put q { s.entry q with state := .RUNNABLE }).turn q .leaving)
  | swtch (s : Sys) (c : ℕ) (q : Slot) (hc : s.cur c = some q) (hr : s.loc c = .running)
      (hs : s.sw q = .leaving) : Step s .tau ((s.turn q .away).move c (.back q))
  | resume (s : Sys) (c : ℕ) (q : Slot) (x : Entry) (k : Pc) (hc : s.cur c = some q)
      (hr : s.loc c = .running) (hs : s.sw q = .away) (h : Resume (s.pc q) (s.entry q) x k) :
      Step s .tau ((((s.put q x).release q).goto q k).turn q .going)
  -- `wakeup`
  /-- An interrupt handler, or a system call of `q`, calls `wakeup`. -/
  | wakeCall (s : Sys) (c : ℕ) (a : ℕ) (hw : s.wake c = none)
      (h : (∃ q, s.On c q) ∨ ∃ i, s.loc c = .scan i) (hu : s.Unlocked c) :
      Step s .tau (s.setWake c (some (.other a, 0)))
  /-- `wakeup` leaves out `myproc()`. -/
  | wakeSkip (s : Sys) (c : ℕ) (ch : Chan) (i : Slot) (h : s.wake c = some (ch, i.val))
      (hc : s.cur c = some i) : Step s .tau (s.setWake c (some (ch, i.val + 1)))
  | wakeLock (s : Sys) (c : ℕ) (ch : Chan) (i : Slot) (h : s.wake c = some (ch, i.val))
      (hc : s.cur c ≠ some i) (hl : s.lock i = none) : Step s .tau (s.acquire c i)
  | wakeBody (s : Sys) (c : ℕ) (ch : Chan) (i : Slot) (h : s.wake c = some (ch, i.val))
      (hc : s.cur c ≠ some i) (hl : s.lock i = some c) :
      Step s .tau (((s.put i ((s.entry i).wakeup ch)).release i).setWake c (some (ch, i.val + 1)))
  | wakeEnd (s : Sys) (c : ℕ) (ch : Chan) (h : s.wake c = some (ch, NPROC)) :
      Step s .tau (s.setWake c none)

/-- The machine after `userinit`: the first process is runnable, every CPU enters `scheduler`. -/
def booted : Sys where
  entry := update (fun _ => ⟨.UNUSED, 0, false, 0, .null⟩) initproc
    ⟨.RUNNABLE, 1, false, 0, .null⟩
  parent _ := none
  nextpid := 2
  lock _ := none
  waitLock := none
  pc _ := .user
  sw _ := .away
  cur _ := none
  loc _ := .scan initproc
  wake _ := none

/-- A run, with what an observer sees of it. -/
inductive Run : List Ev → Sys → Prop
  | boot : Run [] booted
  | step {es : List Ev} {s t : Sys} {e : Ev} (h : Run es s) (hs : Step s e t) : Run (es ++ [e]) t

end Sched

end Xv6
