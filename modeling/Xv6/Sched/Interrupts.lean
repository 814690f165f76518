import Mathlib.Tactic
import Mathlib.Logic.Relation

/-!
# Interrupts and the switch between threads (`spinlock.c`, `proc.c`)

`noff` and `intena` belong to a CPU, but say something about the thread that runs on it.  Any number of
CPUs run the threads of processes and their own scheduler thread.  A thread acquires and releases
spinlocks and calls `push_off` and `pop_off`, which covers the handlers that run on it; the thread of a
process also calls `yield` with no lock held, `sleep` with one, and `sched` at the end of `exit`.  With
nothing pushed, a thread turns interrupts on and off as it likes: traps do, and `intr_on` of the
scheduler does.

`was` records, for the reader, whether interrupts were on at the outermost `push_off` of a thread.

* `Intr.Cpu.pushOff`, `Intr.Cpu.popOff`, `Intr.Sys.schedPanic`: the functions, with their panics;
* `Intr.Inv.act`: what a step of the thread on a CPU has to keep;
* `Intr.reachable_interrupts`: the outermost `pop_off` of a process restores what its outermost
  `push_off` found, on whatever CPU it runs by then, interrupts are off while `noff` is positive, and
  nothing panics.
-/

namespace Xv6

open List

open Function (update update_eq_self update_of_ne update_self)

namespace Intr

/-- The spinlocks: one for each process, and others. -/
inductive Lock (P L : Type)
  | proc (p : P)
  | other (l : L)
  deriving DecidableEq

/-- The kernel threads: one for each process, and the scheduler of each CPU. -/
inductive Thread (P C : Type)
  | proc (p : P)
  | scheduler (c : C)
  deriving DecidableEq

/-- `enum procstate`. -/
inductive PState
  | unused
  | running
  | runnable
  | sleeping
  | zombie
  deriving DecidableEq

/-- What a process does after `sched`. -/
inductive Cont (P L : Type)
  | yield
  | sleep (lk : Lock P L)

/-- Where a thread is. -/
inductive Pc (P L : Type)
  /-- A process that has not run yet. -/
  | fresh
  /-- In `forkret`, about to release `p->lock`. -/
  | forkret
  /-- In kernel code, with calls of `push_off` and `acquire` outstanding. -/
  | code (held : List (Option (Lock P L)))
  /-- In `acquire`, after `push_off`. -/
  | spin (l : Lock P L) (held : List (Option (Lock P L)))
  /-- In `yield`, in `acquire(&p->lock)` after `push_off`. -/
  | yieldLock
  /-- In `sleep`, in `acquire(&p->lock)` after `push_off`. -/
  | sleepLock (lk : Lock P L)
  /-- In `sleep`, about to release `lk`. -/
  | dropping (lk : Lock P L)
  /-- About to call `sched`. -/
  | sched (k : Cont P L)
  /-- In `sched`, switched away, with `intena` saved. -/
  | away (intena : Bool) (k : Cont P L)
  /-- In `sched`, just switched to. -/
  | back (intena : Bool) (k : Cont P L)
  /-- After `sched`, about to release `p->lock`. -/
  | resumed (k : Cont P L)
  /-- At the end of `sleep`, about to acquire `lk`. -/
  | reacquire (lk : Lock P L)
  /-- `scheduler`: in `acquire(&p->lock)` after `push_off`. -/
  | pickLock (p : P)
  /-- `scheduler`: holding `p->lock`. -/
  | picked (p : P)
  /-- `scheduler`: switched to process `p`. -/
  | switched (p : P)
  /-- `scheduler`: process `p` has switched back. -/
  | returned (p : P)

/-! ### `push_off` and `pop_off` -/

/-- The fields of `struct cpu`, and whether interrupts are on. -/
structure Cpu where
  noff : ℤ
  intena : Bool
  intr : Bool

/-- `push_off`. -/
def Cpu.pushOff (c : Cpu) : Cpu where
  noff := c.noff + 1
  intena := if c.noff = 0 then c.intr else c.intena
  intr := false

/-- `pop_off`. -/
def Cpu.popOff (c : Cpu) : Except String Cpu :=
  if c.intr then .error "pop_off - interruptible"
  else if c.noff < 1 then .error "pop_off"
  else .ok { c with noff := c.noff - 1, intr := c.noff - 1 = 0 ∧ c.intena }

/-- The machine. -/
structure Sys (P C L : Type) where
  cpu : C → Cpu
  /-- The thread that runs on a CPU. -/
  cur : C → Thread P C
  pc : Thread P C → Pc P L
  /-- The CPU that holds a lock. -/
  lock : Lock P L → Option C
  state : P → PState
  /-- Whether interrupts were on at the outermost `push_off`. -/
  was : Thread P C → Option Bool
  panic : Option String

variable {P C L : Type} [DecidableEq P] [DecidableEq C] [DecidableEq L]

namespace Sys

/-- Thread `t` on CPU `c` calls `push_off` and goes on at `k`. -/
def push (s : Sys P C L) (c : C) (t : Thread P C) (k : Pc P L) : Sys P C L :=
  { s with
    cpu := update s.cpu c (s.cpu c).pushOff
    pc := update s.pc t k
    was := update s.was t (if (s.cpu c).noff = 0 then some (s.cpu c).intr else s.was t) }

/-- Thread `t` on CPU `c` calls `pop_off` and goes on at `k`. -/
def pop (s : Sys P C L) (c : C) (t : Thread P C) (k : Pc P L) : Sys P C L :=
  match (s.cpu c).popOff with
  | .ok x => { s with cpu := update s.cpu c x, pc := update s.pc t k }
  | .error m => { s with panic := some m }

/-- Thread `t` on CPU `c` releases `l` and goes on at `k`. -/
def release (s : Sys P C L) (c : C) (t : Thread P C) (l : Lock P L) (k : Pc P L) : Sys P C L :=
  { s with lock := update s.lock l none }.pop c t k

/-- Thread `t` on CPU `c` takes the lock `l` and goes on at `k`. -/
def take (s : Sys P C L) (c : C) (t : Thread P C) (l : Lock P L) (k : Pc P L) : Sys P C L :=
  { s with lock := update s.lock l (some c), pc := update s.pc t k }

/-- The checks of `sched`. -/
def schedPanic (s : Sys P C L) (c : C) (p : P) : Option String :=
  if s.lock (.proc p) ≠ some c then some "sched p->lock"
  else if (s.cpu c).noff ≠ 1 then some "sched locks"
  else if s.state p = .running then some "sched running"
  else if (s.cpu c).intr then some "sched interruptible"
  else none

/-- `sched` of process `p` on CPU `c`: it checks, saves `intena` and switches to the scheduler. -/
def sched (s : Sys P C L) (c : C) (p : P) (k : Cont P L) : Sys P C L :=
  match s.schedPanic c p with
  | some m => { s with panic := some m }
  | none =>
    { s with
      cur := update s.cur c (.scheduler c)
      pc := update (update s.pc (.proc p) (.away (s.cpu c).intena k)) (.scheduler c)
        (.returned p) }

/-- `scheduler` on CPU `c` switches to process `p`, which goes on at `k`. -/
def dispatch (s : Sys P C L) (c : C) (p : P) (k : Pc P L) : Sys P C L :=
  { s with
    cur := update s.cur c (.proc p)
    pc := update (update s.pc (.scheduler c) (.switched p)) (.proc p) k
    state := update s.state p .running }

end Sys

/-- What a step is, as far as `pop_off` goes. -/
inductive Act (P C : Type)
  | pop (c : C) (t : Thread P C)
  | other

/-- One step of the thread on one CPU. -/
inductive Step : Sys P C L → Act P C → Sys P C L → Prop
  /-- Interrupts are turned on or off, by a trap or otherwise. -/
  | toggle (s : Sys P C L) (c : C) (t : Thread P C) (b : Bool) (hc : s.cur c = t) (hp : s.pc t = .code []) :
      Step s .other { s with cpu := update s.cpu c { s.cpu c with intr := b } }
  | pushOff (s : Sys P C L) (c : C) (t : Thread P C) (held : List (Option (Lock P L))) (hc : s.cur c = t)
      (hp : s.pc t = .code held) : Step s .other (s.push c t (.code (none :: held)))
  | popOff (s : Sys P C L) (c : C) (t : Thread P C) (held : List (Option (Lock P L))) (hc : s.cur c = t)
      (hp : s.pc t = .code held) (hh : none ∈ held) :
      Step s (.pop c t) (s.pop c t (.code (held.erase none)))
  | acquire (s : Sys P C L) (c : C) (t : Thread P C) (held : List (Option (Lock P L))) (l : Lock P L)
      (hc : s.cur c = t) (hp : s.pc t = .code held) : Step s .other (s.push c t (.spin l held))
  | take (s : Sys P C L) (c : C) (t : Thread P C) (held : List (Option (Lock P L))) (l : Lock P L)
      (hc : s.cur c = t) (hp : s.pc t = .spin l held) (hl : s.lock l = none) :
      Step s .other (s.take c t l (.code (some l :: held)))
  | release (s : Sys P C L) (c : C) (t : Thread P C) (held : List (Option (Lock P L))) (l : Lock P L)
      (hc : s.cur c = t) (hp : s.pc t = .code held) (hh : some l ∈ held) :
      Step s (.pop c t) (s.release c t l (.code (held.erase (some l))))
  /-- `wakeup`, `kill` or `fork`, holding the lock of the process. -/
  | wake (s : Sys P C L) (c : C) (t : Thread P C) (held : List (Option (Lock P L))) (q : P)
      (hc : s.cur c = t) (hp : s.pc t = .code held) (hh : some (.proc q) ∈ held)
      (hq : s.state q = .sleeping ∨ s.state q = .unused) :
      Step s .other { s with state := update s.state q .runnable }
  -- `yield`
  | yield (s : Sys P C L) (c : C) (p : P) (hc : s.cur c = .proc p) (hp : s.pc (.proc p) = .code []) :
      Step s .other (s.push c (.proc p) .yieldLock)
  | yieldTake (s : Sys P C L) (c : C) (p : P) (hc : s.cur c = .proc p) (hp : s.pc (.proc p) = .yieldLock)
      (hl : s.lock (.proc p) = none) :
      Step s .other { s.take c (.proc p) (.proc p) (.sched .yield) with
        state := update s.state p .runnable }
  -- `sleep`
  | sleep (s : Sys P C L) (c : C) (p : P) (lk : Lock P L) (hc : s.cur c = .proc p)
      (hp : s.pc (.proc p) = .code [some lk]) : Step s .other (s.push c (.proc p) (.sleepLock lk))
  | sleepTake (s : Sys P C L) (c : C) (p : P) (lk : Lock P L) (hc : s.cur c = .proc p)
      (hp : s.pc (.proc p) = .sleepLock lk) (hl : s.lock (.proc p) = none) :
      Step s .other (s.take c (.proc p) (.proc p) (.dropping lk))
  | sleepDrop (s : Sys P C L) (c : C) (p : P) (lk : Lock P L) (hc : s.cur c = .proc p)
      (hp : s.pc (.proc p) = .dropping lk) :
      Step s (.pop c (.proc p)) ({ s with state := update s.state p .sleeping }.release c
        (.proc p) lk (.sched (.sleep lk)))
  /-- The end of `exit`, which holds `p->lock` only. -/
  | exit (s : Sys P C L) (c : C) (p : P) (hc : s.cur c = .proc p)
      (hp : s.pc (.proc p) = .code [some (.proc p)]) :
      Step s .other { s with
        state := update s.state p .zombie
        pc := update s.pc (.proc p) (.sched .yield) }
  -- `sched`
  | sched (s : Sys P C L) (c : C) (p : P) (k : Cont P L) (hc : s.cur c = .proc p)
      (hp : s.pc (.proc p) = .sched k) : Step s .other (s.sched c p k)
  | restore (s : Sys P C L) (c : C) (p : P) (b : Bool) (k : Cont P L) (hc : s.cur c = .proc p)
      (hp : s.pc (.proc p) = .back b k) :
      Step s .other { s with
        cpu := update s.cpu c { s.cpu c with intena := b }
        pc := update s.pc (.proc p) (.resumed k) }
  | yieldEnd (s : Sys P C L) (c : C) (p : P) (hc : s.cur c = .proc p)
      (hp : s.pc (.proc p) = .resumed .yield) :
      Step s (.pop c (.proc p)) (s.release c (.proc p) (.proc p) (.code []))
  | sleepEnd (s : Sys P C L) (c : C) (p : P) (lk : Lock P L) (hc : s.cur c = .proc p)
      (hp : s.pc (.proc p) = .resumed (.sleep lk)) :
      Step s (.pop c (.proc p)) (s.release c (.proc p) (.proc p) (.reacquire lk))
  | reacquire (s : Sys P C L) (c : C) (p : P) (lk : Lock P L) (hc : s.cur c = .proc p)
      (hp : s.pc (.proc p) = .reacquire lk) : Step s .other (s.push c (.proc p) (.spin lk []))
  | forkret (s : Sys P C L) (c : C) (p : P) (hc : s.cur c = .proc p) (hp : s.pc (.proc p) = .forkret) :
      Step s (.pop c (.proc p)) (s.release c (.proc p) (.proc p) (.code []))
  -- `scheduler`
  | pick (s : Sys P C L) (c : C) (p : P) (hc : s.cur c = .scheduler c)
      (hp : s.pc (.scheduler c) = .code []) : Step s .other (s.push c (.scheduler c) (.pickLock p))
  | pickTake (s : Sys P C L) (c : C) (p : P) (hc : s.cur c = .scheduler c)
      (hp : s.pc (.scheduler c) = .pickLock p) (hl : s.lock (.proc p) = none) :
      Step s .other (s.take c (.scheduler c) (.proc p) (.picked p))
  | start (s : Sys P C L) (c : C) (p : P) (hc : s.cur c = .scheduler c)
      (hp : s.pc (.scheduler c) = .picked p) (hr : s.state p = .runnable)
      (hq : s.pc (.proc p) = .fresh) : Step s .other (s.dispatch c p .forkret)
  | switch (s : Sys P C L) (c : C) (p : P) (b : Bool) (k : Cont P L) (hc : s.cur c = .scheduler c)
      (hp : s.pc (.scheduler c) = .picked p) (hr : s.state p = .runnable)
      (hq : s.pc (.proc p) = .away b k) : Step s .other (s.dispatch c p (.back b k))
  | pass (s : Sys P C L) (c : C) (p : P) (hc : s.cur c = .scheduler c)
      (hp : s.pc (.scheduler c) = .picked p) (hr : s.state p ≠ .runnable) :
      Step s (.pop c (.scheduler c)) (s.release c (.scheduler c) (.proc p) (.code []))
  | finish (s : Sys P C L) (c : C) (p : P) (hc : s.cur c = .scheduler c)
      (hp : s.pc (.scheduler c) = .returned p) :
      Step s (.pop c (.scheduler c)) (s.release c (.scheduler c) (.proc p) (.code []))

/-- Every CPU runs its scheduler, and no process has run. -/
def booted : Sys P C L where
  cpu _ := ⟨0, false, false⟩
  cur c := .scheduler c
  pc
    | .proc _ => .fresh
    | .scheduler _ => .code []
  lock _ := none
  state _ := .unused
  was _ := none
  panic := none

/-- The states of the runs; a panic ends the run. -/
inductive Reachable : Sys P C L → Prop
  | boot : Reachable booted
  | step {s t : Sys P C L} {a : Act P C} (h : Reachable s) (hs : s.panic = none) (hst : Step s a t) :
      Reachable t

/-! ### The invariant -/

/-- The calls of `push_off` that are outstanding. -/
def Pc.depth : Pc P L → ℕ
  | .code held => held.length
  | .spin _ held => held.length + 1
  | .sleepLock _ | .dropping _ => 2
  | .reacquire _ => 0
  | _ => 1

/-- The locks a thread holds; a process that is switched away has left `p->lock` to the scheduler. -/
def locks : Thread P C → Pc P L → List (Lock P L)
  | _, .code held | _, .spin _ held => held.filterMap id
  | _, .sleepLock lk => [lk]
  | .proc p, .dropping lk => [.proc p, lk]
  | .proc p, .sched _ | .proc p, .back _ _ | .proc p, .resumed _ | .proc p, .forkret => [.proc p]
  | _, .picked p | _, .returned p => [.proc p]
  | _, _ => []

/-- The process is not on a CPU. -/
def Pc.parked : Pc P L → Bool
  | .fresh | .away _ _ => true
  | _ => false

/-- The process is about to call `sched`. -/
def Pc.atSched : Pc P L → Bool
  | .sched _ => true
  | _ => false

/-- `intena` of the CPU is that of the thread. -/
def Pc.plain : Pc P L → Bool
  | .fresh | .forkret | .away _ _ | .back _ _ => false
  | _ => true

/-- `intena`, of the CPU or saved by `sched`, is what the outermost `push_off` found. -/
def Agrees (intena : Bool) (was : Option Bool) : Pc P L → Prop
  | .fresh | .forkret => True
  | .away b _ | .back b _ => was = some b
  | k => 0 < k.depth → was = some intena

omit [DecidableEq P] [DecidableEq L] in
theorem agrees_plain {i : Bool} {w : Option Bool} {k : Pc P L} (hk : k.plain = true) :
    Agrees i w k ↔ (0 < k.depth → w = some i) := by
  cases k <;> simp [Pc.plain] at hk <;> rfl

/-- The invariant. -/
structure Inv (s : Sys P C L) : Prop where
  panic : s.panic = none
  noff : ∀ c, (s.cpu c).noff = (s.pc (s.cur c)).depth
  off : ∀ c, 0 < (s.cpu c).noff → (s.cpu c).intr = false
  intena : ∀ c p, s.cur c = .proc p →
    Agrees (s.cpu c).intena (s.was (.proc p)) (s.pc (.proc p))
  away : ∀ p b k, s.pc (.proc p) = .away b k → s.was (.proc p) = some b
  home : ∀ c c', s.cur c = .scheduler c' → c' = c
  one : ∀ c c' p, s.cur c = .proc p → s.cur c' = .proc p → c = c'
  on : ∀ p, (∃ c, s.cur c = .proc p) ↔ (s.pc (.proc p)).parked = false
  locks : ∀ c, ∀ l ∈ locks (s.cur c) (s.pc (s.cur c)), s.lock l = some c
  nodup : ∀ c, (Intr.locks (s.cur c) (s.pc (s.cur c))).Nodup
  state : ∀ c p, s.cur c = .proc p →
    (s.state p = .running ↔ (s.pc (.proc p)).atSched = false)

omit [DecidableEq P] [DecidableEq C] [DecidableEq L] in
theorem inv_booted : Inv (booted : Sys P C L) where
  panic := rfl
  noff _ := rfl
  off c h := by simp [booted] at h
  intena c p h := by simp [booted] at h
  away p b k h := by simp [booted] at h
  home c c' h := by
    simp only [booted, Thread.scheduler.injEq] at h
    exact h.symm
  one c c' p h := by simp [booted] at h
  on p := by simp [booted, Pc.parked]
  locks c l h := by simp [booted, Intr.locks] at h
  nodup c := nodup_nil
  state c p h := by simp [booted] at h

variable {s : Sys P C L}

namespace Inv

omit [DecidableEq P] [DecidableEq C] [DecidableEq L] in
theorem cur_inj (h : Inv s) {c c' : C} (hc : s.cur c' = s.cur c) : c' = c := by
  cases ht : s.cur c with
  | proc p => exact h.one c' c p (hc.trans ht) ht
  | scheduler d => exact (h.home c' d (hc.trans ht)).symm.trans (h.home c d ht)

omit [DecidableEq L] in
/-- **A step of the thread on a CPU**: what the step has to show for the invariant to hold after it. -/
theorem act (h : Inv s) {c : C} {t : Thread P C} (hc : s.cur c = t) {k : Pc P L} {x : Cpu}
    {f : Lock P L → Option C} {g : P → PState} {w : Option Bool} (hnoff : x.noff = k.depth)
    (hoff : 0 < x.noff → x.intr = false) (hint : ∀ p, t = .proc p → Agrees x.intena w k)
    (hpark : k.parked = false) (hlocks : ∀ l ∈ Intr.locks t k, f l = some c)
    (hnodup : (Intr.locks t k).Nodup)
    (hothers : ∀ l c', c' ≠ c → s.lock l = some c' → f l = some c')
    (hstate : ∀ p, t = .proc p → (g p = .running ↔ k.atSched = false))
    (hstates : ∀ q, t ≠ .proc q → (g q = .running ↔ s.state q = .running)) :
    Inv { s with
      cpu := update s.cpu c x
      pc := update s.pc t k
      lock := f
      state := g
      was := update s.was t w } := by
  subst hc
  have hcur : ∀ {c'}, c' ≠ c → s.cur c' ≠ s.cur c := fun hne he => hne (h.cur_inj he)
  constructor
  case panic => exact h.panic
  case noff =>
    intro c'
    rcases eq_or_ne c' c with rfl | hne
    · simpa only [update_self] using hnoff
    · simpa only [update_of_ne hne, update_of_ne (hcur hne)] using h.noff c'
  case off =>
    intro c'
    rcases eq_or_ne c' c with rfl | hne
    · simpa only [update_self] using hoff
    · simpa only [update_of_ne hne] using h.off c'
  case intena =>
    intro c' p hp
    rcases eq_or_ne c' c with rfl | hne
    · have hp' : s.cur c' = .proc p := hp
      simpa only [← hp', update_self] using hint p hp'
    · have hp' : Thread.proc p ≠ s.cur c := fun he => hcur hne (Eq.trans hp he)
      simpa only [update_of_ne hne, update_of_ne hp'] using h.intena c' p hp
  case away =>
    intro p b k' hp
    rcases eq_or_ne (Thread.proc p) (s.cur c) with he | hne
    · have hk : k = .away b k' := by simpa only [he, update_self] using hp
      rw [hk] at hpark
      cases hpark
    · simp only [update_of_ne hne] at hp ⊢
      exact h.away p b k' hp
  case home => exact h.home
  case one => exact h.one
  case on =>
    intro p
    rcases eq_or_ne (Thread.proc p) (s.cur c) with he | hne
    · simp only [he, update_self]
      exact ⟨fun _ => hpark, fun _ => ⟨c, rfl⟩⟩
    · simp only [update_of_ne hne]
      exact h.on p
  case locks =>
    intro c'
    rcases eq_or_ne c' c with rfl | hne
    · simpa only [update_self] using hlocks
    · simp only [update_of_ne (hcur hne)]
      exact fun l hl => hothers l c' hne (h.locks c' l hl)
  case nodup =>
    intro c'
    rcases eq_or_ne c' c with rfl | hne
    · simpa only [update_self] using hnodup
    · simpa only [update_of_ne (hcur hne)] using h.nodup c'
  case state =>
    intro c' p hp
    rcases eq_or_ne c' c with rfl | hne
    · have hp' : s.cur c' = .proc p := hp
      simpa only [← hp', update_self] using hstate p hp'
    · have hp' : Thread.proc p ≠ s.cur c := fun he => hcur hne (Eq.trans hp he)
      simp only [update_of_ne hp']
      exact (hstates p fun he => hp' he.symm).trans (h.state c' p hp)

omit [DecidableEq L] in
/-- The thread on `c` calls `push_off`. -/
theorem push (h : Inv s) {c : C} {t : Thread P C} (hc : s.cur c = t) {k : Pc P L}
    (hd : k.depth = (s.pc t).depth + 1) (hl : Intr.locks t k = Intr.locks t (s.pc t))
    (hk : k.plain = true ∧ k.parked = false ∧ k.atSched = false)
    (hold : (s.pc t).plain = true ∧ (s.pc t).atSched = false) : Inv (s.push c t k) := by
  have hnoff := h.noff c
  rw [hc] at hnoff
  refine h.act hc (x := (s.cpu c).pushOff) (f := s.lock) (g := s.state) ?_ (fun _ => rfl)
    (fun p hp => ?_) hk.2.1 ?_ ?_ (fun _ _ _ hl => hl) (fun p hp => ?_) fun _ _ => Iff.rfl
  · rw [hd, Nat.cast_succ, ← hnoff]
    rfl
  · rw [agrees_plain hk.1]
    intro _
    show (if (s.cpu c).noff = 0 then some (s.cpu c).intr else s.was t) =
      some (if (s.cpu c).noff = 0 then (s.cpu c).intr else (s.cpu c).intena)
    split_ifs with h0
    · rfl
    · -- not the outermost one: `intena` stays
      have hagree := h.intena c p (hc.trans hp)
      rw [← hp, agrees_plain hold.1] at hagree
      exact hagree (by omega)
  · rw [hl, ← hc]
    exact h.locks c
  · rw [hl, ← hc]
    exact h.nodup c
  · have := h.state c p (hc.trans hp)
    rw [← hp, hold.2] at this
    exact this.trans (by rw [hk.2.2])

end Inv

/-- What `pop_off` does with interrupts off and `noff` positive. -/
theorem popOff_eq {x : Cpu} (hi : x.intr = false) (hn : 0 < x.noff) :
    x.popOff = .ok { x with noff := x.noff - 1, intr := x.noff - 1 = 0 ∧ x.intena } := by
  unfold Cpu.popOff
  rw [if_neg (by simp [hi]), if_neg (by omega)]

namespace Inv

omit [DecidableEq L] in
/-- `pop_off` on a CPU whose thread has pushed does not panic. -/
theorem pop_eq (h : Inv s) {c : C} {t : Thread P C} (hc : s.cur c = t) (hd : 0 < (s.pc t).depth)
    (lock : Lock P L → Option C) (state : P → PState) (k : Pc P L) :
    { s with lock := lock, state := state }.pop c t k =
      { s with
        cpu := update s.cpu c
          { s.cpu c with noff := (s.cpu c).noff - 1, intr := (s.cpu c).noff - 1 = 0 ∧ (s.cpu c).intena }
        pc := update s.pc t k
        lock := lock
        state := state } := by
  have hn : 0 < (s.cpu c).noff := by
    rw [h.noff c, hc]
    exact_mod_cast hd
  unfold Sys.pop
  rw [popOff_eq (h.off c hn) hn]

omit [DecidableEq L] in
/-- The thread on `c` calls `pop_off`, after it has changed locks and the state of its process. -/
theorem pop (h : Inv s) {c : C} {t : Thread P C} (hc : s.cur c = t) {k : Pc P L}
    {lock : Lock P L → Option C} {state : P → PState} (hd : (s.pc t).depth = k.depth + 1)
    (hk : k.plain = true ∧ k.parked = false) (hold : (s.pc t).plain = true ∨ k.depth = 0)
    (hlocks : ∀ l ∈ Intr.locks t k, lock l = some c) (hnodup : (Intr.locks t k).Nodup)
    (hothers : ∀ l c', c' ≠ c → s.lock l = some c' → lock l = some c')
    (hstate : ∀ p, t = .proc p → (state p = .running ↔ k.atSched = false))
    (hstates : ∀ q, t ≠ .proc q → (state q = .running ↔ s.state q = .running)) :
    Inv ({ s with lock := lock, state := state }.pop c t k) := by
  have hnoff := h.noff c
  rw [hc, hd] at hnoff
  have hoff := h.off c (by omega)
  rw [h.pop_eq hc (by omega)]
  have hact := h.act hc (k := k) (w := s.was t)
    (x := { s.cpu c with noff := (s.cpu c).noff - 1, intr := (s.cpu c).noff - 1 = 0 ∧ (s.cpu c).intena })
    (by show (s.cpu c).noff - 1 = _; omega) (fun hpos => ?_) (fun p hp => ?_) hk.2 hlocks hnodup
    hothers hstate hstates
  · rwa [update_eq_self] at hact
  · have hpos' : 0 < (s.cpu c).noff - 1 := hpos
    exact decide_eq_false fun he => by omega
  · rw [agrees_plain hk.1]
    intro hpos
    have hagree := h.intena c p (hc.trans hp)
    rcases hold with hold | hold
    · rw [← hp, agrees_plain hold] at hagree
      exact hagree (by omega)
    · omega

/-- The thread on `c` releases a lock that it holds. -/
theorem release (h : Inv s) {c : C} {t : Thread P C} (hc : s.cur c = t) {k : Pc P L} {l : Lock P L}
    {state : P → PState} (hd : (s.pc t).depth = k.depth + 1)
    (hk : k.plain = true ∧ k.parked = false) (hold : (s.pc t).plain = true ∨ k.depth = 0)
    (hl : (Intr.locks t (s.pc t)).Perm (l :: Intr.locks t k))
    (hstate : ∀ p, t = .proc p → (state p = .running ↔ k.atSched = false))
    (hstates : ∀ q, t ≠ .proc q → (state q = .running ↔ s.state q = .running)) :
    Inv ({ s with state := state }.release c t l k) := by
  have hmine := h.locks c
  have hnodup := h.nodup c
  rw [hc] at hmine hnodup
  have hcons := nodup_cons.1 (hl.nodup_iff.1 hnodup)
  refine h.pop hc hd hk hold (fun l' hl' => ?_) hcons.2 (fun l' c' hne hl' => ?_) hstate hstates
  · have hne : l' ≠ l := by
      rintro rfl
      exact hcons.1 hl'
    exact (update_of_ne hne _ _).trans (hmine l' (hl.mem_iff.2 (mem_cons_of_mem _ hl')))
  · have hne' : l' ≠ l := by
      rintro rfl
      have := (hmine l' (hl.mem_iff.2 mem_cons_self)).symm.trans hl'
      exact hne (Option.some.inj this).symm
    exact (update_of_ne hne' _ _).trans hl'

/-- The thread on `c` takes a free lock. -/
theorem take (h : Inv s) {c : C} {t : Thread P C} (hc : s.cur c = t) {k : Pc P L} {l : Lock P L}
    {state : P → PState} (hfree : s.lock l = none) (hd : k.depth = (s.pc t).depth)
    (hk : k.plain = true ∧ k.parked = false) (hold : (s.pc t).plain = true)
    (hl : Intr.locks t k = l :: Intr.locks t (s.pc t))
    (hstate : ∀ p, t = .proc p → (state p = .running ↔ k.atSched = false))
    (hstates : ∀ q, t ≠ .proc q → (state q = .running ↔ s.state q = .running)) :
    Inv { s.take c t l k with state := state } := by
  have hnoff := h.noff c
  have hmine := h.locks c
  have hnodup := h.nodup c
  rw [hc] at hnoff hmine hnodup
  have hne : ∀ l' c', s.lock l' = some c' → l' ≠ l := by
    rintro l' c' hl' rfl
    simp [hfree] at hl'
  have hact := h.act hc (k := k) (x := s.cpu c) (w := s.was t)
    (f := update s.lock l (some c)) (by rw [hd, hnoff]) (h.off c) (fun p hp => ?_) hk.2
    (fun l' hl' => ?_) ?_ (fun l' c' _ hl' => (update_of_ne (hne l' c' hl') _ _).trans hl')
    hstate hstates
  · rwa [update_eq_self, update_eq_self] at hact
  · have hagree := h.intena c p (hc.trans hp)
    rw [← hp, agrees_plain hold] at hagree
    rwa [agrees_plain hk.1, hd]
  · rw [hl] at hl'
    rcases mem_cons.1 hl' with rfl | hl'
    · exact update_self _ _ _
    · have := hmine l' hl'
      exact (update_of_ne (hne l' c this) _ _).trans this
  · rw [hl, nodup_cons]
    exact ⟨fun hmem => hne l c (hmine l hmem) rfl, hnodup⟩

omit [DecidableEq P] [DecidableEq L] in
/-- **A switch**: the thread on `c` hands the CPU, with `noff` and its locks, to a thread that is on no
CPU. -/
theorem handOver (h : Inv s) {c : C} {t t' : Thread P C} (hc : s.cur c = t) (ht' : ∀ c', s.cur c' ≠ t')
    {f : Thread P C → Pc P L} {g : P → PState} (hf : ∀ u, u ≠ t → u ≠ t' → f u = s.pc u)
    (hhome : ∀ c', t' = .scheduler c' → c' = c) (hd : (f t').depth = (s.pc t).depth)
    (hl : Intr.locks t' (f t') = Intr.locks t (s.pc t))
    (hpark : ∀ p, t = .proc p → (f t).parked = true) (hon : ∀ p, t' = .proc p → (f t').parked = false)
    (haway : ∀ p b k, t = .proc p → f t = .away b k → s.was t = some b)
    (hint : ∀ p, t' = .proc p → Agrees (s.cpu c).intena (s.was t') (f t'))
    (hstate : ∀ p, t' = .proc p → (g p = .running ↔ (f t').atSched = false))
    (hstates : ∀ q, t' ≠ .proc q → g q = s.state q) :
    Inv { s with cur := update s.cur c t', pc := f, state := g } := by
  subst hc
  have hcur : ∀ {c'}, c' ≠ c → f (s.cur c') = s.pc (s.cur c') := fun hne =>
    hf _ (fun he => hne (h.cur_inj he)) (ht' _)
  have hself : update s.cur c t' c = t' := update_self _ _ _
  have hnew : ∀ {c'}, c' ≠ c → update s.cur c t' c' = s.cur c' := fun hne =>
    update_of_ne hne _ _
  constructor
  case panic => exact h.panic
  case noff =>
    intro c'
    rcases eq_or_ne c' c with rfl | hne
    · simp only [update_self, hd]
      exact h.noff c'
    · simp only [hnew hne, hcur hne]
      exact h.noff c'
  case off => exact h.off
  case intena =>
    intro c' p hp
    rcases eq_or_ne c' c with rfl | hne
    · obtain rfl : t' = .proc p := hself.symm.trans hp
      exact hint p rfl
    · have hp' : s.cur c' = .proc p := (hnew hne).symm.trans hp
      have hpc := hcur hne
      rw [hp'] at hpc
      show Agrees _ _ (f (.proc p))
      rw [hpc]
      exact h.intena c' p hp'
  case away =>
    intro p b k hp
    have hp' : f (.proc p) = .away b k := hp
    rcases eq_or_ne (Thread.proc p) (s.cur c) with he | hne
    · rw [he] at hp' ⊢
      exact haway p b k he.symm hp'
    rcases eq_or_ne (Thread.proc p) t' with he | hne'
    · have := hon p he.symm
      rw [← he, hp'] at this
      cases this
    · exact h.away p b k ((hf _ hne hne').symm.trans hp')
  case home =>
    intro c' d hp
    rcases eq_or_ne c' c with rfl | hne
    · exact hhome d (hself.symm.trans hp)
    · exact h.home c' d ((hnew hne).symm.trans hp)
  case one =>
    intro c₁ c₂ p hp₁ hp₂
    rcases eq_or_ne c₁ c with rfl | hne₁ <;> rcases eq_or_ne c₂ c₁ with rfl | hne₂
    · rfl
    · have he : t' = .proc p := hself.symm.trans hp₁
      exact absurd (((hnew hne₂).symm.trans hp₂).trans he.symm) (ht' c₂)
    · rfl
    · rcases eq_or_ne c₂ c with rfl | hne₃
      · have he : t' = .proc p := hself.symm.trans hp₂
        exact absurd (((hnew hne₁).symm.trans hp₁).trans he.symm) (ht' c₁)
      · exact h.one c₁ c₂ p ((hnew hne₁).symm.trans hp₁) ((hnew hne₃).symm.trans hp₂)
  case on =>
    intro p
    show (∃ c', update s.cur c t' c' = .proc p) ↔ (f (.proc p)).parked = false
    rcases eq_or_ne (Thread.proc p) t' with rfl | hne'
    · exact ⟨fun _ => hon p rfl, fun _ => ⟨c, update_self _ _ _⟩⟩
    have hiff : (∃ c', update s.cur c t' c' = .proc p) ↔ ∃ c', c' ≠ c ∧ s.cur c' = .proc p := by
      constructor
      · rintro ⟨c', hc'⟩
        have hne : c' ≠ c := by
          rintro rfl
          exact hne' (hself.symm.trans hc').symm
        exact ⟨c', hne, (hnew hne).symm.trans hc'⟩
      · rintro ⟨c', hne, hc'⟩
        exact ⟨c', (hnew hne).trans hc'⟩
    rw [hiff]
    rcases eq_or_ne (Thread.proc p) (s.cur c) with he | hne
    · have hfalse : (f (.proc p)).parked = true := by
        rw [he]
        exact hpark p he.symm
      refine ⟨?_, fun hp => by rw [hfalse] at hp; cases hp⟩
      rintro ⟨c', hne, hc'⟩
      exact absurd (h.cur_inj (hc'.trans he)) hne
    · rw [hf _ hne hne', ← h.on p]
      refine exists_congr fun c' => ⟨fun hc' => hc'.2, fun hc' => ⟨?_, hc'⟩⟩
      rintro rfl
      exact hne hc'.symm
  case locks =>
    intro c'
    rcases eq_or_ne c' c with rfl | hne
    · simp only [update_self, hl]
      exact h.locks c'
    · simp only [hnew hne, hcur hne]
      exact h.locks c'
  case nodup =>
    intro c'
    rcases eq_or_ne c' c with rfl | hne
    · simp only [update_self, hl]
      exact h.nodup c'
    · simp only [hnew hne, hcur hne]
      exact h.nodup c'
  case state =>
    intro c' p hp
    rcases eq_or_ne c' c with rfl | hne
    · obtain rfl : t' = .proc p := hself.symm.trans hp
      exact hstate p rfl
    · have hp' : s.cur c' = .proc p := (hnew hne).symm.trans hp
      have hpc := hcur hne
      rw [hp'] at hpc
      show g p = .running ↔ (f (.proc p)).atSched = false
      rw [hpc, hstates p fun he => ht' c' (hp'.trans he.symm)]
      exact h.state c' p hp'

omit [DecidableEq P] [DecidableEq L] in
/-- None of the checks of `sched` fails. -/
theorem schedPanic_eq (h : Inv s) {c : C} {p : P} {k : Cont P L} (hc : s.cur c = .proc p)
    (hp : s.pc (.proc p) = .sched k) : s.schedPanic c p = none := by
  have hnoff := h.noff c
  have hmine := h.locks c
  have hstate := h.state c p hc
  rw [hc, hp] at hnoff hmine
  rw [hp] at hstate
  have hn : (s.cpu c).noff = 1 := hnoff
  unfold Sys.schedPanic
  rw [if_neg (not_not.2 (hmine _ mem_cons_self)), if_neg (not_not.2 hn),
    if_neg fun he => by simpa [Pc.atSched] using hstate.1 he, if_neg (by simp [h.off c (by omega)])]

omit [DecidableEq L] in
/-- The process on `c` switches to the scheduler of `c`, which takes over `p->lock`. -/
theorem sched (h : Inv s) {c : C} {p : P} {k : Cont P L} (hc : s.cur c = .proc p)
    (hp : s.pc (.proc p) = .sched k) : Inv (s.sched c p k) := by
  have hagree := h.intena c p hc
  rw [hp] at hagree
  unfold Sys.sched
  rw [h.schedPanic_eq hc hp]
  have hsched : ∀ c', s.cur c' ≠ .scheduler c := by
    intro c' hc'
    obtain rfl := h.home c' c hc'
    simp [hc] at hc'
  have hpc : ∀ {x y : Pc P L}, update (update s.pc (.proc p) x) (.scheduler c) y
      (.proc p) = x := fun {x y} => by
    rw [update_of_ne (by simp), update_self]
  refine h.handOver hc hsched (fun u hu hu' => ?_) (fun c' he => by cases he; rfl)
    (by rw [update_self, hp]; rfl) (by rw [update_self, hp]; rfl)
    (fun q _ => by rw [hpc]; rfl) (fun q he => by cases he) (fun q b k' _ hb => ?_)
    (fun q he => by cases he) (fun q he => by cases he) fun _ _ => rfl
  · rw [update_of_ne hu', update_of_ne hu]
  · rw [hpc] at hb
    cases hb
    exact hagree Nat.one_pos

omit [DecidableEq L] in
/-- The scheduler of `c` switches to a process that is not on a CPU and takes over `p->lock`. -/
theorem dispatch (h : Inv s) {c : C} {p : P} {k : Pc P L} (hc : s.cur c = .scheduler c)
    (hp : s.pc (.scheduler c) = .picked p) (hparked : (s.pc (.proc p)).parked = true)
    (hd : k.depth = 1) (hl : Intr.locks (.proc p : Thread P C) k = [.proc p]) (hk : k.parked = false)
    (hs : k.atSched = false) (hagree : ∀ i, Agrees i (s.was (.proc p)) k) :
    Inv (s.dispatch c p k) := by
  have hcur : ∀ c', s.cur c' ≠ .proc p := by
    intro c' hc'
    have := (h.on p).1 ⟨c', hc'⟩
    simp [hparked] at this
  refine h.handOver hc hcur (fun u hu hu' => ?_) (fun c' he => by cases he)
    (by rw [update_self, hp, hd]; rfl) (by rw [update_self, hp, hl]; rfl)
    (fun q he => by cases he) (fun q _ => by rwa [update_self])
    (fun q b k' he => by cases he) (fun q _ => ?_) (fun q he => ?_) fun q hq => ?_
  · rw [update_of_ne hu', update_of_ne hu]
  · rw [update_self]
    exact hagree _
  · cases he
    rw [update_self, update_self]
    simp [hs]
  · exact update_of_ne (fun he => hq (by rw [he])) _ _

end Inv

theorem length_erase_succ {α : Type} [BEq α] [LawfulBEq α] {held : List α} {o : α} (h : o ∈ held) :
    held.length = (held.erase o).length + 1 := by
  have := length_pos_of_mem h
  rw [length_erase_of_mem h]
  omega

theorem filterMap_erase_some {held : List (Option (Lock P L))} {l : Lock P L} (h : some l ∈ held) :
    (held.filterMap id).Perm (l :: (held.erase (some l)).filterMap id) :=
  (perm_cons_erase h).filterMap id

theorem filterMap_erase_none {held : List (Option (Lock P L))} (h : none ∈ held) :
    (held.filterMap id).Perm ((held.erase none).filterMap id) :=
  (perm_cons_erase h).filterMap id

/-- **One step** keeps the invariant. -/
theorem Step.inv {a : Act P C} {u : Sys P C L} (h : Inv s) (hst : Step s a u) : Inv u := by
  -- the state of the process that runs, and of the others when only it changes
  have hstay : ∀ {c t} {k : Pc P L}, s.cur c = t → (s.pc t).atSched = false → k.atSched = false →
      ∀ p, t = .proc p → (s.state p = .running ↔ k.atSched = false) := by
    rintro c t k hc hp hk p rfl
    exact iff_of_true ((h.state c p hc).2 hp) hk
  have hothers : ∀ {p q : P} {x : PState}, Thread.proc p ≠ (.proc q : Thread P C) →
      (update s.state p x q = .running ↔ s.state q = .running) := by
    intro p q x hne
    rw [update_of_ne fun he => hne (by rw [he])]
  cases hst with
  | toggle c t b hc hp =>
    have hnoff := h.noff c
    rw [hc, hp] at hnoff
    have hact := h.act hc (k := .code []) (x := { s.cpu c with intr := b }) (w := s.was t) (f := s.lock)
      (g := s.state) hnoff (fun hpos => ?_) (fun p _ => ?_) rfl (by simp [locks]) (by simp [locks])
      (fun _ _ _ hl => hl) (fun p hp' => ?_) fun _ _ => Iff.rfl
    · rwa [← hp, update_eq_self, update_eq_self] at hact
    · rw [show ({ s.cpu c with intr := b } : Cpu).noff = 0 from hnoff] at hpos
      omega
    · exact fun hpos => absurd hpos (by simp [Pc.depth])
    · exact hstay hc (by rw [hp]; rfl) rfl p hp'
  | pushOff c t held hc hp =>
    exact h.push hc (by simp [hp, Pc.depth]) (by simp [hp, locks]) ⟨rfl, rfl, rfl⟩ (by simp [hp, Pc.plain,
      Pc.atSched])
  | popOff c t held hc hp hh =>
    have hmine := h.locks c
    have hnodup := h.nodup c
    rw [hc, hp] at hmine hnodup
    have hperm := filterMap_erase_none hh
    exact h.pop hc (by rw [hp]; exact length_erase_succ hh) ⟨rfl, rfl⟩ (.inl (by rw [hp]; rfl))
      (fun l hl => hmine l (hperm.mem_iff.2 hl)) (hperm.nodup_iff.1 hnodup) (fun _ _ _ hl => hl)
      (hstay hc (by rw [hp]; rfl) rfl) fun _ _ => Iff.rfl
  | acquire c t held l hc hp =>
    exact h.push hc (by simp [hp, Pc.depth]) (by simp [hp, locks]) ⟨rfl, rfl, rfl⟩ (by simp [hp, Pc.plain,
      Pc.atSched])
  | take c t held l hc hp hl =>
    exact h.take hc hl (by simp [hp, Pc.depth]) ⟨rfl, rfl⟩ (by rw [hp]; rfl) (by simp [hp, locks])
      (hstay hc (by rw [hp]; rfl) rfl) fun _ _ => Iff.rfl
  | release c t held l hc hp hh =>
    exact h.release hc (by rw [hp]; exact length_erase_succ hh) ⟨rfl, rfl⟩ (.inl (by rw [hp]; rfl))
      (by rw [hp]; exact filterMap_erase_some hh)
      (hstay hc (by rw [hp]; rfl) rfl) fun _ _ => Iff.rfl
  | wake c t held q hc hp hh hq =>
    refine ⟨h.panic, h.noff, h.off, h.intena, h.away, h.home, h.one, h.on, h.locks, h.nodup,
      fun c' p hp' => ?_⟩
    rw [← h.state c' p hp']
    rcases eq_or_ne p q with rfl | hne
    · rcases hq with hq | hq <;> simp [hq]
    · rw [show ({ s with state := update s.state q .runnable } : Sys P C L).state p = s.state p
        from update_of_ne hne _ _]
  | yield c p hc hp =>
    exact h.push hc (by simp [hp, Pc.depth]) (by simp [hp, locks]) ⟨rfl, rfl, rfl⟩ (by simp [hp, Pc.plain,
      Pc.atSched])
  | yieldTake c p hc hp hl =>
    refine h.take hc hl (by rw [hp]; rfl) ⟨rfl, rfl⟩ (by rw [hp]; rfl) (by rw [hp]; rfl) ?_
      fun q hne => hothers hne
    rintro q hq
    obtain rfl : p = q := by simpa using hq
    simp [Pc.atSched]
  | sleep c p lk hc hp =>
    exact h.push hc (by simp [hp, Pc.depth]) (by simp [hp, locks]) ⟨rfl, rfl, rfl⟩ (by simp [hp, Pc.plain,
      Pc.atSched])
  | sleepTake c p lk hc hp hl =>
    exact h.take hc hl (by rw [hp]; rfl) ⟨rfl, rfl⟩ (by rw [hp]; rfl) (by rw [hp]; rfl)
      (hstay hc (by rw [hp]; rfl) rfl) fun _ _ => Iff.rfl
  | sleepDrop c p lk hc hp =>
    refine h.release hc (by rw [hp]; rfl) ⟨rfl, rfl⟩ (.inl (by rw [hp]; rfl))
      (by rw [hp]; exact List.Perm.swap _ _ _) ?_ fun q hne => hothers hne
    rintro q hq
    obtain rfl : p = q := by simpa using hq
    simp [Pc.atSched]
  | exit c p hc hp =>
    have hnoff := h.noff c
    have hmine := h.locks c
    have hagree := h.intena c p hc
    rw [hc, hp] at hnoff hmine
    rw [hp] at hagree
    have hact := h.act hc (k := .sched .yield) (x := s.cpu c) (w := s.was (.proc p)) (f := s.lock)
      (g := update s.state p .zombie) hnoff (h.off c) (fun q _ => hagree) rfl hmine
      (nodup_singleton _) (fun _ _ _ hl => hl) ?_ fun q hne => hothers hne
    · rwa [update_eq_self, update_eq_self] at hact
    · rintro q hq
      obtain rfl : p = q := by simpa using hq
      simp [Pc.atSched]
  | sched c p k hc hp => exact h.sched hc hp
  | restore c p b k hc hp =>
    have hnoff := h.noff c
    have hmine := h.locks c
    have hagree := h.intena c p hc
    rw [hc, hp] at hnoff hmine
    rw [hp] at hagree
    have hact := h.act hc (k := .resumed k) (x := { s.cpu c with intena := b }) (w := s.was (.proc p))
      (f := s.lock) (g := s.state) hnoff (h.off c) (fun q _ _ => hagree) rfl hmine
      (nodup_singleton _) (fun _ _ _ hl => hl)
      (hstay hc (by rw [hp]; rfl) rfl) fun _ _ => Iff.rfl
    rwa [update_eq_self] at hact
  | yieldEnd c p hc hp =>
    exact h.release hc (by rw [hp]; rfl) ⟨rfl, rfl⟩ (.inl (by rw [hp]; rfl))
      (by rw [hp]; exact List.Perm.refl _)
      (hstay hc (by rw [hp]; rfl) rfl) fun _ _ => Iff.rfl
  | sleepEnd c p lk hc hp =>
    exact h.release hc (by rw [hp]; rfl) ⟨rfl, rfl⟩ (.inl (by rw [hp]; rfl))
      (by rw [hp]; exact List.Perm.refl _)
      (hstay hc (by rw [hp]; rfl) rfl) fun _ _ => Iff.rfl
  | reacquire c p lk hc hp =>
    exact h.push hc (by simp [hp, Pc.depth]) (by simp [hp, locks]) ⟨rfl, rfl, rfl⟩ (by simp [hp, Pc.plain,
      Pc.atSched])
  | forkret c p hc hp =>
    exact h.release hc (by rw [hp]; rfl) ⟨rfl, rfl⟩ (.inr rfl) (by rw [hp]; exact List.Perm.refl _)
      (hstay hc (by rw [hp]; rfl) rfl) fun _ _ => Iff.rfl
  | pick c p hc hp =>
    exact h.push hc (by simp [hp, Pc.depth]) (by simp [hp, locks]) ⟨rfl, rfl, rfl⟩ (by simp [hp, Pc.plain,
      Pc.atSched])
  | pickTake c p hc hp hl =>
    exact h.take hc hl (by rw [hp]; rfl) ⟨rfl, rfl⟩ (by rw [hp]; rfl) (by rw [hp]; rfl)
      (fun q hq => by cases hq) fun _ _ => Iff.rfl
  | start c p hc hp hr hq =>
    exact h.dispatch hc hp (by rw [hq]; rfl) rfl rfl rfl rfl (fun _ => trivial)
  | switch c p b k hc hp hr hq =>
    exact h.dispatch hc hp (by rw [hq]; rfl) rfl rfl rfl rfl (fun i => h.away p b k hq)
  | pass c p hc hp hr =>
    exact h.release hc (by rw [hp]; rfl) ⟨rfl, rfl⟩ (.inl (by rw [hp]; rfl))
      (by rw [hp]; exact List.Perm.refl _) (fun q hq => by cases hq) fun _ _ => Iff.rfl
  | finish c p hc hp =>
    exact h.release hc (by rw [hp]; rfl) ⟨rfl, rfl⟩ (.inl (by rw [hp]; rfl))
      (by rw [hp]; exact List.Perm.refl _) (fun q hq => by cases hq) fun _ _ => Iff.rfl

theorem Reachable.inv (h : Reachable s) : Inv s := by
  induction h with
  | boot => exact inv_booted
  | step _ _ hst ih => exact hst.inv ih

omit [DecidableEq P] [DecidableEq C] [DecidableEq L] in
/-- A runnable process whose lock the scheduler holds is on no CPU, so it can be switched to. -/
theorem Inv.parked_of_picked (h : Inv s) {c : C} {p : P} (hc : s.cur c = .scheduler c)
    (hp : s.pc (.scheduler c) = .picked p) (hr : s.state p = .runnable) :
    (s.pc (.proc p)).parked = true := by
  by_contra hpark
  obtain ⟨c', hc'⟩ := (h.on p).2 (by simpa using hpark)
  have hsched : (s.pc (.proc p)).atSched = true := by
    by_contra hns
    have := (h.state c' p hc').2 (by simpa using hns)
    simp [hr] at this
  have hmine := h.locks c
  have hmine' := h.locks c'
  rw [hc, hp] at hmine
  rw [hc'] at hmine'
  cases hk : s.pc (.proc p) with
  | sched k =>
    rw [hk] at hmine'
    have heq := (hmine (.proc p) mem_cons_self).symm.trans (hmine' (.proc p) mem_cons_self)
    obtain rfl := Option.some.inj heq
    simp [hc] at hc'
  | _ => simp [hk, Pc.atSched] at hsched

/-- **The scheduler can switch to every process it finds runnable**: on any number of CPUs, a
runnable process whose lock it holds is on no CPU, its context is saved (or it is new, and starts in
`forkret`), and the scheduler's next step can put it on its CPU. -/
theorem reachable_dispatch (h : Reachable s) {c : C} {p : P} (hc : s.cur c = .scheduler c)
    (hp : s.pc (.scheduler c) = .picked p) (hr : s.state p = .runnable) :
    (∀ c', s.cur c' ≠ .proc p) ∧
    (s.pc (.proc p) = .fresh ∨ ∃ b k, s.pc (.proc p) = .away b k) ∧
    ∃ u, Step s .other u ∧ u.cur c = .proc p := by
  have hpark := h.inv.parked_of_picked hc hp hr
  refine ⟨fun c' hc' => ?_, ?_⟩
  · have hon := (h.inv.on p).1 ⟨c', hc'⟩
    simp [hpark] at hon
  · cases hq : s.pc (.proc p) with
    | fresh => exact ⟨.inl rfl, _, .start s c p hc hp hr hq, update_self _ _ _⟩
    | away b k => exact ⟨.inr ⟨b, k, rfl⟩, _, .switch s c p b k hc hp hr hq, update_self _ _ _⟩
    | _ => simp [hq, Pc.parked] at hpark

/-- The steps that call `pop_off`. -/
theorem Step.pop_form {c : C} {t : Thread P C} {u : Sys P C L} (hst : Step s (.pop c t) u) :
    s.cur c = t ∧ ((s.pc t).plain = true ∨ s.pc t = .forkret) ∧
      ∃ lock state k, u = { s with lock := lock, state := state }.pop c t k := by
  cases hst with
  | popOff _ _ held hc hp hh => exact ⟨hc, .inl (by rw [hp]; rfl), s.lock, s.state, _, rfl⟩
  | release _ _ held l hc hp hh => exact ⟨hc, .inl (by rw [hp]; rfl), _, s.state, _, rfl⟩
  | sleepDrop _ p lk hc hp => exact ⟨hc, .inl (by rw [hp]; rfl), _, _, _, rfl⟩
  | yieldEnd _ p hc hp => exact ⟨hc, .inl (by rw [hp]; rfl), _, s.state, _, rfl⟩
  | sleepEnd _ p lk hc hp => exact ⟨hc, .inl (by rw [hp]; rfl), _, s.state, _, rfl⟩
  | forkret _ p hc hp => exact ⟨hc, .inr hp, _, s.state, _, rfl⟩
  | pass _ p hc hp hr => exact ⟨hc, .inl (by rw [hp]; rfl), _, s.state, _, rfl⟩
  | finish _ p hc hp => exact ⟨hc, .inl (by rw [hp]; rfl), _, s.state, _, rfl⟩

/-- **The interrupt state belongs to the thread**: on any number of CPUs, nothing panics, interrupts are
off while `noff` is positive, and the `pop_off` of a process that matches its outermost `push_off`
leaves interrupts on exactly if that `push_off` found them on, whatever CPUs it ran on in between.
(A new process comes into `forkret` with the `push_off` of the scheduler.) -/
theorem reachable_interrupts (h : Reachable s) :
    s.panic = none ∧ (∀ c, 0 < (s.cpu c).noff → (s.cpu c).intr = false) ∧
      ∀ c p u, Step s (.pop c (.proc p)) u → (s.pc (.proc p)).depth = 1 → s.pc (.proc p) ≠ .forkret →
        s.was (.proc p) = some (u.cpu c).intr := by
  have hs := h.inv
  refine ⟨hs.panic, hs.off, fun c p u hst hd hfork => ?_⟩
  obtain ⟨hc, hplain, lock, state, k, rfl⟩ := hst.pop_form
  have hplain := hplain.resolve_right hfork
  have hnoff := hs.noff c
  rw [hc, hd] at hnoff
  have hagree := hs.intena c p hc
  rw [agrees_plain hplain] at hagree
  rw [hs.pop_eq hc (by omega), hagree (by omega)]
  -- the last `pop_off` restores `intena`
  simp [hnoff]

/-- A process with interrupts on yields on CPU 0 and goes on, with interrupts on, on CPU 1. -/
theorem reachable_interrupts_two : ∃ s u : Sys (Fin 1) (Fin 2) Unit,
    Reachable s ∧ Step s (.pop 1 (.proc 0)) u ∧ some true = some (u.cpu 1).intr := by
  have h : Reachable (_ : Sys (Fin 1) (Fin 2) Unit) :=
    Reachable.boot
      |>.step rfl (.toggle _ 0 (.scheduler 0) true rfl rfl)
      |>.step rfl (.acquire _ 0 (.scheduler 0) [] (.proc 0) rfl rfl)
      |>.step rfl (.take _ 0 (.scheduler 0) [] (.proc 0) rfl rfl rfl)
      |>.step rfl (.wake _ 0 (.scheduler 0) [some (.proc 0)] 0 rfl rfl (by simp) (.inr rfl))
      |>.step rfl (.release _ 0 (.scheduler 0) [some (.proc 0)] (.proc 0) rfl rfl (by simp))
      |>.step rfl (.pick _ 0 0 rfl rfl)
      |>.step rfl (.pickTake _ 0 0 rfl rfl rfl)
      |>.step rfl (.start _ 0 0 rfl rfl rfl rfl)
      |>.step rfl (.forkret _ 0 0 rfl rfl)
      |>.step rfl (.yield _ 0 0 rfl rfl)
      |>.step rfl (.yieldTake _ 0 0 rfl rfl rfl)
      |>.step rfl (.sched _ 0 0 .yield rfl rfl)
      |>.step rfl (.finish _ 0 0 rfl rfl)
      |>.step rfl (.pick _ 1 0 rfl rfl)
      |>.step rfl (.pickTake _ 1 0 rfl rfl rfl)
      |>.step rfl (.switch _ 1 0 true .yield rfl rfl rfl rfl)
      |>.step rfl (.restore _ 1 0 true .yield rfl rfl)
  exact ⟨_, _, h, .yieldEnd _ 1 0 rfl rfl,
    (reachable_interrupts h).2.2 1 0 _ (.yieldEnd _ 1 0 rfl rfl) rfl (by simp)⟩

/-- The first process is woken, and CPU 0 picks it. -/
theorem reachable_dispatch_first : ∃ s u : Sys (Fin 1) (Fin 2) Unit,
    Reachable s ∧ (∀ c, s.cur c ≠ .proc 0) ∧ Step s .other u ∧ u.cur 0 = .proc 0 := by
  have h : Reachable (_ : Sys (Fin 1) (Fin 2) Unit) :=
    Reachable.boot
      |>.step rfl (.acquire _ 0 (.scheduler 0) [] (.proc 0) rfl rfl)
      |>.step rfl (.take _ 0 (.scheduler 0) [] (.proc 0) rfl rfl rfl)
      |>.step rfl (.wake _ 0 (.scheduler 0) [some (.proc 0)] 0 rfl rfl (by simp) (.inr rfl))
      |>.step rfl (.release _ 0 (.scheduler 0) [some (.proc 0)] (.proc 0) rfl rfl (by simp))
      |>.step rfl (.pick _ 0 0 rfl rfl)
      |>.step rfl (.pickTake _ 0 0 rfl rfl rfl)
  obtain ⟨hoff, -, u, hu⟩ := reachable_dispatch (c := 0) (p := 0) h rfl rfl rfl
  exact ⟨_, u, h, hoff, hu⟩

end Intr

end Xv6
