import Xv6.Lib.Ring

/-!
# Pipes (`pipe.c`)

One pipe and any number of processes that read, write and close it.  `pi->lock` is explicit: the
process that holds it takes the steps of its loop, one iteration a step, until it returns or goes to
sleep, and in between the other processes call, are woken, are killed and wait for the lock.

* `Pipes.Sys`, `Pipes.Step`: the pipe, where each process is in `pipewrite` or `piperead`, and the
  steps, those that a bad user address leads to included;
* `Pipes.reachable_queue`: with valid user buffers the pipe is a queue of at most `PIPESIZE` bytes,
  in every state of every run;
* `Pipes.reachable_no_lost_wakeup`: nobody sleeps on a pipe that has what it waits for, unless a writer
  was killed in the middle of its loop (`Pipes.exists_lost_wakeup`).
-/

namespace Xv6

open Function

namespace Pipes

/-- The number of bytes a pipe holds. -/
def PIPESIZE : ℕ := 512

instance : NeZero PIPESIZE := ⟨by decide⟩

/-- The arguments of a call: `n`, and what copying the byte at `addr + i` in or out would do. -/
structure Call where
  n : ℤ
  copyin : ℕ → Option UInt8
  copyout : ℕ → Bool

/-- Every byte of the user's buffer can be read and written. -/
def Call.Valid (u : Call) : Prop := ∀ i : ℕ, (i : ℤ) < u.n → (u.copyin i).isSome ∧ u.copyout i = true

/-- The channels of a pipe. -/
inductive Chan
  | nread
  | nwrite
  deriving DecidableEq

/-- Where a process is. -/
inductive Pc
  /-- Outside, after a call that returned `r`. -/
  | done (r : ℤ)
  /-- In `pipewrite`, about to acquire the lock. -/
  | writeLock (u : Call) (i : ℕ)
  /-- At the head of the loop of `pipewrite`. -/
  | write (u : Call) (i : ℕ)
  /-- In `piperead`, about to acquire the lock. -/
  | readLock (u : Call)
  /-- At the head of the first loop of `piperead`. -/
  | readWait (u : Call)
  /-- At the head of the second loop of `piperead`. -/
  | read (u : Call) (i : ℕ)

/-- A pipe and the processes that use it. -/
structure Sys where
  ring : RingBuffer UInt8 32 PIPESIZE
  readopen : Bool
  writeopen : Bool
  /-- Both ends are closed and the page has been given back. -/
  freed : Bool
  /-- The process that holds `pi->lock`. -/
  lock : Option ℕ
  pc : ℕ → Pc
  /-- The channel a process sleeps on. -/
  chan : ℕ → Option Chan
  killed : ℕ → Bool
  /-- The bytes stored by `pipewrite`, in order of storing. -/
  stored : List UInt8
  /-- The bytes `piperead` has copied out, in order of removal. -/
  returned : List UInt8

namespace Sys

/-- Process `p` goes on at `k`. -/
def goto (s : Sys) (p : ℕ) (k : Pc) : Sys := { s with pc := update s.pc p k }

/-- Wake every process that sleeps on `ch`. -/
def wakeup (s : Sys) (ch : Chan) : Sys :=
  { s with chan := fun p => if s.chan p = some ch then none else s.chan p }

/-- Process `p` gives up the lock and sleeps on `ch`; it will acquire the lock again at `k`. -/
def sleep (s : Sys) (p : ℕ) (ch : Chan) (k : Pc) : Sys :=
  { s.goto p k with lock := none, chan := update s.chan p (some ch) }

/-- Process `p` gives up the lock and returns `r`. -/
def ret (s : Sys) (p : ℕ) (r : ℤ) : Sys := { s.goto p (.done r) with lock := none }

/-- `pi->data[pi->nwrite++ % PIPESIZE] = ch`. -/
def store (s : Sys) (ch : UInt8) : Sys :=
  { s with ring := s.ring.push ch, stored := s.stored ++ [ch] }

/-- `ch = pi->data[pi->nread++ % PIPESIZE]`. -/
def remove (s : Sys) : Sys := { s with ring := s.ring.pop }

/-- The byte just removed has been copied out. -/
def give (s : Sys) (ch : UInt8) : Sys := { s with returned := s.returned ++ [ch] }

/-- `pipeclose`, which is one section under the lock. -/
def pipeclose (s : Sys) (writable : Bool) : Sys :=
  let t := if writable then { s with writeopen := false }.wakeup .nread
    else { s with readopen := false }.wakeup .nwrite
  { t with freed := !t.readopen && !t.writeopen }

end Sys

/-- One step of one process, where the calls satisfy `P`. -/
inductive Step (P : Call → Prop) : Sys → Sys → Prop
  | callWrite (s : Sys) (p : ℕ) (r : ℤ) (u : Call) (hp : s.pc p = .done r) (hf : s.freed = false)
      (hu : P u) : Step P s (s.goto p (.writeLock u 0))
  | callRead (s : Sys) (p : ℕ) (r : ℤ) (u : Call) (hp : s.pc p = .done r) (hf : s.freed = false)
      (hu : P u) : Step P s (s.goto p (.readLock u))
  | close (s : Sys) (writable : Bool) (hl : s.lock = none) (hf : s.freed = false) :
      Step P s (s.pipeclose writable)
  /-- `kill` sets the flag and wakes the victim. -/
  | kill (s : Sys) (p : ℕ) :
      Step P s { s with killed := update s.killed p true,
                        chan := update s.chan p none }
  | acquireWrite (s : Sys) (p : ℕ) (u : Call) (i : ℕ) (hp : s.pc p = .writeLock u i)
      (hc : s.chan p = none) (hl : s.lock = none) :
      Step P s { s.goto p (.write u i) with lock := some p }
  | acquireRead (s : Sys) (p : ℕ) (u : Call) (hp : s.pc p = .readLock u) (hc : s.chan p = none)
      (hl : s.lock = none) : Step P s { s.goto p (.readWait u) with lock := some p }
  -- `while(i < n)` of `pipewrite`
  | writeStop (s : Sys) (p : ℕ) (u : Call) (i : ℕ) (hp : s.pc p = .write u i) (hi : (i : ℤ) < u.n)
      (h : s.readopen = false ∨ s.killed p = true) : Step P s (s.ret p (-1))
  | writeFull (s : Sys) (p : ℕ) (u : Call) (i : ℕ) (hp : s.pc p = .write u i) (hi : (i : ℤ) < u.n)
      (h : s.readopen = true ∧ s.killed p = false) (hf : s.ring.full = true) :
      Step P s ((s.wakeup .nread).sleep p .nwrite (.writeLock u i))
  | writeFault (s : Sys) (p : ℕ) (u : Call) (i : ℕ) (hp : s.pc p = .write u i) (hi : (i : ℤ) < u.n)
      (h : s.readopen = true ∧ s.killed p = false) (hf : s.ring.full = false)
      (hu : u.copyin i = none) : Step P s ((s.wakeup .nread).ret p i)
  | writeByte (s : Sys) (p : ℕ) (u : Call) (i : ℕ) (ch : UInt8) (hp : s.pc p = .write u i)
      (hi : (i : ℤ) < u.n) (h : s.readopen = true ∧ s.killed p = false) (hf : s.ring.full = false)
      (hu : u.copyin i = some ch) : Step P s ((s.store ch).goto p (.write u (i + 1)))
  | writeEnd (s : Sys) (p : ℕ) (u : Call) (i : ℕ) (hp : s.pc p = .write u i)
      (hi : ¬ (i : ℤ) < u.n) : Step P s ((s.wakeup .nread).ret p i)
  -- `while(pi->nread == pi->nwrite && pi->writeopen)` of `piperead`
  | readStop (s : Sys) (p : ℕ) (u : Call) (hp : s.pc p = .readWait u)
      (he : s.ring.empty = true ∧ s.writeopen = true) (hk : s.killed p = true) :
      Step P s (s.ret p (-1))
  | readSleep (s : Sys) (p : ℕ) (u : Call) (hp : s.pc p = .readWait u)
      (he : s.ring.empty = true ∧ s.writeopen = true) (hk : s.killed p = false) :
      Step P s (s.sleep p .nread (.readLock u))
  | readGo (s : Sys) (p : ℕ) (u : Call) (hp : s.pc p = .readWait u)
      (he : ¬ (s.ring.empty = true ∧ s.writeopen = true)) : Step P s (s.goto p (.read u 0))
  -- `for(i = 0; i < n; i++)` of `piperead`
  | readByte (s : Sys) (p : ℕ) (u : Call) (i : ℕ) (hp : s.pc p = .read u i) (hi : (i : ℤ) < u.n)
      (he : s.ring.empty = false) (hu : u.copyout i = true) :
      Step P s ((s.remove.give s.ring.front).goto p (.read u (i + 1)))
  | readFault (s : Sys) (p : ℕ) (u : Call) (i : ℕ) (hp : s.pc p = .read u i) (hi : (i : ℤ) < u.n)
      (he : s.ring.empty = false) (hu : u.copyout i = false) :
      Step P s ((s.remove.wakeup .nwrite).ret p i)
  | readEnd (s : Sys) (p : ℕ) (u : Call) (i : ℕ) (hp : s.pc p = .read u i)
      (hi : ¬ (i : ℤ) < u.n ∨ s.ring.empty = true) : Step P s ((s.wakeup .nwrite).ret p i)

/-- A pipe as `pipealloc` leaves it: the page may hold anything. -/
def opened (data : Fin PIPESIZE → UInt8) : Sys where
  ring := ⟨data, 0, 0⟩
  readopen := true
  writeopen := true
  freed := false
  lock := none
  pc _ := .done 0
  chan _ := none
  killed _ := false
  stored := []
  returned := []

/-- The states of the runs on a new pipe in which every call satisfies `P`. -/
def Reachable (P : Call → Prop) (s : Sys) : Prop :=
  ∃ data, Relation.ReflTransGen (Step P) (opened data) s

/-! ### The queue -/

/-- The call a process is in. -/
def Pc.call? : Pc → Option Call
  | .done _ => none
  | .writeLock u _ | .write u _ | .readLock u | .readWait u | .read u _ => some u

/-- What holds along the runs with calls in `P`: who is in a call, and what the buffer holds. -/
structure Inv (P : Call → Prop) (s : Sys) : Prop where
  call : ∀ p u, (s.pc p).call? = some u → P u
  queue : s.ring.Holds s.returned s.stored

theorem inv_opened (P : Call → Prop) (data : Fin PIPESIZE → UInt8) : Inv P (opened data) where
  call p u h := by simp [opened, Pc.call?] at h
  queue := RingBuffer.Holds.init data

theorem pipesize_dvd : PIPESIZE ∣ 2 ^ 32 := by decide

variable {P : Call → Prop} {s : Sys}

namespace Inv

/-- Moving one process inside its call, or out of it, keeps who is in which call. -/
theorem goto (h : Inv P s) {p : ℕ} {k : Pc} (hk : ∀ u, k.call? = some u → P u) :
    ∀ q u, ((s.goto p k).pc q).call? = some u → P u := by
  intro q u hu
  rcases eq_or_ne q p with rfl | hq
  · exact hk u (by simpa [Sys.goto] using hu)
  · exact h.call q u (by simpa [Sys.goto, update_of_ne hq] using hu)

theorem stay (h : Inv P s) {p : ℕ} {k k' : Pc} (hp : s.pc p = k) (hk : k'.call? = k.call?) :
    ∀ u, k'.call? = some u → P u := by
  intro u hu
  exact h.call p u (by rw [hp, ← hk, hu])

end Inv

/-- **One step** keeps the bytes returned and stored matched with the buffer, if the calls of the
processes are valid. -/
theorem Step.inv {t : Sys} (hP : ∀ u, P u → u.Valid) (h : Inv P s) (hst : Step P s t) : Inv P t := by
  have out : ∀ (r : ℤ) u, (Pc.done r).call? = some u → P u := fun r u hu => by simp [Pc.call?] at hu
  cases hst with
  | callWrite p r u hp hf hu =>
    exact ⟨h.goto fun v hv => by simp only [Pc.call?, Option.some.injEq] at hv; exact hv ▸ hu, h.queue⟩
  | callRead p r u hp hf hu =>
    exact ⟨h.goto fun v hv => by simp only [Pc.call?, Option.some.injEq] at hv; exact hv ▸ hu, h.queue⟩
  | close writable hl hf =>
    cases writable with
    | false => exact ⟨h.call, h.queue⟩
    | true => exact ⟨h.call, h.queue⟩
  | kill p => exact ⟨h.call, h.queue⟩
  | acquireWrite p u i hp hc hl => exact ⟨h.goto (h.stay hp rfl), h.queue⟩
  | acquireRead p u hp hc hl => exact ⟨h.goto (h.stay hp rfl), h.queue⟩
  | writeStop p u i hp hi hr => exact ⟨h.goto (out _), h.queue⟩
  | writeFull p u i hp hi hr hf => exact ⟨h.goto (h.stay hp rfl), h.queue⟩
  | writeFault p u i hp hi hr hf hu => exact ⟨h.goto (out _), h.queue⟩
  | writeByte p u i ch hp hi hr hf hu =>
    exact ⟨h.goto (h.stay hp rfl), h.queue.push pipesize_dvd hf ch⟩
  | writeEnd p u i hp hi => exact ⟨h.goto (out _), h.queue⟩
  | readStop p u hp he hk => exact ⟨h.goto (out _), h.queue⟩
  | readSleep p u hp he hk => exact ⟨h.goto (h.stay hp rfl), h.queue⟩
  | readGo p u hp he => exact ⟨h.goto (h.stay hp rfl), h.queue⟩
  | readByte p u i hp hi he hu =>
    exact ⟨h.goto (h.stay hp rfl), h.queue.pop pipesize_dvd he⟩
  | readFault p u i hp hi he hu =>
    -- a valid buffer takes the byte
    have hv : u.copyout i = true := (hP u (h.call p u (by rw [hp]; rfl)) i hi).2
    simp [hu] at hv
  | readEnd p u i hp hi => exact ⟨h.goto (out _), h.queue⟩

/-- Every state reached with valid buffers satisfies the invariant. -/
theorem Reachable.inv (h : Reachable Call.Valid s) : Inv Call.Valid s := by
  obtain ⟨data, h⟩ := h
  induction h with
  | refl => exact inv_opened _ data
  | tail _ hst ih => exact hst.inv (fun _ hu => hu) ih

/-- **A pipe is a byte queue**: in every state of every run of any number of readers and writers with
valid buffers, the bytes returned so far are a prefix of the bytes stored so far, at most `PIPESIZE`
bytes are in between, and the counters are the two lengths modulo `2 ^ 32`. -/
theorem reachable_queue (h : Reachable Call.Valid s) :
    s.returned <+: s.stored ∧ s.stored.length - s.returned.length ≤ PIPESIZE ∧
      s.ring.nread = BitVec.ofNat 32 s.returned.length ∧
      s.ring.nwrite = BitVec.ofNat 32 s.stored.length := by
  have hq := h.inv.queue
  have hroom := hq.room
  exact ⟨hq.order, by omega, hq.nread, hq.nwrite⟩

/-- A call that moves the one byte 7. -/
def oneByte : Call := ⟨1, fun _ => some 7, fun _ => true⟩

theorem oneByte_valid : oneByte.Valid := fun _ _ => ⟨rfl, rfl⟩

/-- One process writes a byte, another reads it. -/
theorem reachable_queue_oneByte : ∃ s, Reachable Call.Valid s ∧ s.stored = [7] ∧ s.returned = [7] ∧
    s.returned <+: s.stored := by
  have h : Relation.ReflTransGen (Step Call.Valid) (opened fun _ => 0) _ :=
    Relation.ReflTransGen.refl
      |>.tail (.callWrite _ 0 0 oneByte rfl rfl oneByte_valid)
      |>.tail (.acquireWrite _ 0 oneByte 0 rfl rfl rfl)
      |>.tail (.writeByte _ 0 oneByte 0 7 rfl (by decide) ⟨rfl, rfl⟩ rfl rfl)
      |>.tail (.writeEnd _ 0 oneByte 1 rfl (by decide))
      |>.tail (.callRead _ 1 0 oneByte rfl rfl oneByte_valid)
      |>.tail (.acquireRead _ 1 oneByte rfl rfl rfl)
      |>.tail (.readGo _ 1 oneByte rfl (by decide))
      |>.tail (.readByte _ 1 oneByte 0 rfl (by decide) rfl rfl)
  exact ⟨_, ⟨_, h⟩, rfl, rfl, (reachable_queue ⟨_, h⟩).1⟩

/-! ### Sleeping processes -/

/-- Process `p` sleeps although what it waits for has come about. -/
def Lost (s : Sys) (p : ℕ) : Prop :=
  s.chan p = some .nread ∧ (s.ring.nread ≠ s.ring.nwrite ∨ s.writeopen = false) ∨
    s.chan p = some .nwrite ∧ (s.readopen = true ∧ (s.ring.nwrite - s.ring.nread).toNat < PIPESIZE ∨
      s.readopen = false)

/-- The step kills a process that is in the loop of `pipewrite` and holds the lock. -/
def KillsWriter (s t : Sys) : Prop :=
  ∃ p u i, s.pc p = .write u i ∧ s.killed p = false ∧ t.killed p = true

/-- Does a process at this point hold the lock? -/
def Pc.inside : Pc → Bool
  | .write _ _ | .readWait _ | .read _ _ => true
  | .done _ | .writeLock _ _ | .readLock _ => false

/-- Who holds the lock, and what a process that sleeps can rely on: the buffer is as it was when it
went to sleep, or the process that changed it still holds the lock and will call `wakeup`. -/
structure Awaited (s : Sys) : Prop where
  held : ∀ p, (s.pc p).inside = true → s.lock = some p
  nwrite : ∀ p, s.chan p = some .nwrite → s.readopen = true ∧
    (s.ring.full = true ∨ ∃ q u i, s.lock = some q ∧ s.pc q = .read u i)
  nread : ∀ p, s.chan p = some .nread → s.writeopen = true ∧
    (s.ring.empty = true ∨
      ∃ q u i, s.lock = some q ∧ s.pc q = .write u i ∧ s.readopen = true ∧ s.killed q = false)

namespace Awaited

/-- Only `p` holds the lock, so after it gives it up nobody does. -/
theorem leave (h : Awaited s) {p : ℕ} {k : Pc} (hp : (s.pc p).inside = true) (hk : k.inside = false)
    (q : ℕ) : (update s.pc p k q).inside = false := by
  rcases eq_or_ne q p with rfl | hq
  · rw [update_self, hk]
  · rw [update_of_ne hq]
    by_contra hin
    have := (h.held p hp).symm.trans (h.held q (by simpa using hin))
    exact hq (Option.some.inj this).symm

theorem move (h : Awaited s) {p : ℕ} {k : Pc} (hp : (s.pc p).inside = true) (q : ℕ)
    (hq : (update s.pc p k q).inside = true) : s.lock = some q := by
  rcases eq_or_ne q p with rfl | hne
  · exact h.held q hp
  · rw [update_of_ne hne] at hq
    exact h.held q hq

/-- While `p` holds the lock outside the second loop of `piperead`, a sleeping writer waits for room. -/
theorem full_of_held (h : Awaited s) {p : ℕ} (hp : (s.pc p).inside = true)
    (hr : ∀ u i, s.pc p ≠ .read u i) {q : ℕ} (hq : s.chan q = some .nwrite) :
    s.readopen = true ∧ s.ring.full = true := by
  obtain ⟨hopen, hfull | ⟨r, u, i, hl, hpc⟩⟩ := h.nwrite q hq
  · exact ⟨hopen, hfull⟩
  · obtain rfl : p = r := Option.some.inj ((h.held p hp).symm.trans hl)
    exact absurd hpc (hr u i)

/-- While `p` holds the lock outside the loop of `pipewrite`, a sleeping reader waits for bytes. -/
theorem empty_of_held (h : Awaited s) {p : ℕ} (hp : (s.pc p).inside = true)
    (hw : ∀ u i, s.pc p ≠ .write u i) {q : ℕ} (hq : s.chan q = some .nread) :
    s.writeopen = true ∧ s.ring.empty = true := by
  obtain ⟨hopen, hempty | ⟨r, u, i, hl, hpc, -⟩⟩ := h.nread q hq
  · exact ⟨hopen, hempty⟩
  · obtain rfl : p = r := Option.some.inj ((h.held p hp).symm.trans hl)
    exact absurd hpc (hw u i)

/-- With the lock free, every sleeper waits for what has not come about. -/
theorem of_free (h : Awaited s) (hl : s.lock = none) :
    (∀ p, s.chan p = some .nwrite → s.readopen = true ∧ s.ring.full = true) ∧
      ∀ p, s.chan p = some .nread → s.writeopen = true ∧ s.ring.empty = true := by
  refine ⟨fun p hp => ?_, fun p hp => ?_⟩
  · obtain ⟨hopen, hfull | ⟨q, u, i, hq, -⟩⟩ := h.nwrite p hp
    · exact ⟨hopen, hfull⟩
    · simp [hl] at hq
  · obtain ⟨hopen, hempty | ⟨q, u, i, hq, -⟩⟩ := h.nread p hp
    · exact ⟨hopen, hempty⟩
    · simp [hl] at hq

end Awaited

/-- A process that is still asleep after `wakeup` slept on the other channel. -/
theorem chan_wakeup {ch ch' : Chan} {q : ℕ} (h : (s.wakeup ch).chan q = some ch') :
    s.chan q = some ch' ∧ ch' ≠ ch := by
  simp only [Sys.wakeup] at h
  split at h
  · cases h
  · next hne => exact ⟨h, fun he => hne (he ▸ h)⟩

/-- A process asleep on the other channel than the one `p` goes to sleep on slept there before. -/
theorem chan_sleep {ch ch' : Chan} {p q : ℕ} {k : Pc} (h : (s.sleep p ch k).chan q = some ch')
    (hne : ch' ≠ ch) : s.chan q = some ch' := by
  rcases eq_or_ne q p with rfl | hq
  · rw [show (s.sleep q ch k).chan q = some ch from update_self _ _ _] at h
    exact absurd (Option.some.inj h).symm hne
  · rwa [show (s.sleep p ch k).chan q = s.chan q from update_of_ne hq _ _] at h

namespace Awaited

/-- A process that does not hold the lock moves on outside. -/
theorem call (h : Awaited s) (p : ℕ) {k : Pc} (hp : (s.pc p).inside = false) (hk : k.inside = false) :
    Awaited (s.goto p k) := by
  have hpc : ∀ {q}, (s.pc q).inside = true → update s.pc p k q = s.pc q := by
    intro q hq
    refine update_of_ne ?_ _ _
    rintro rfl
    simp [hp] at hq
  refine ⟨fun q hq => ?_, fun q hq => ?_, fun q hq => ?_⟩
  · rcases eq_or_ne q p with rfl | hne
    · simp [show (s.goto q k).pc q = k from update_self _ _ _, hk] at hq
    · rw [show (s.goto p k).pc q = s.pc q from update_of_ne hne _ _] at hq
      exact h.held q hq
  · obtain ⟨hopen, hfull | ⟨r, u, i, hl, hr⟩⟩ := h.nwrite q hq
    · exact ⟨hopen, .inl hfull⟩
    · exact ⟨hopen, .inr ⟨r, u, i, hl, (hpc (by rw [hr]; rfl)).trans hr⟩⟩
  · obtain ⟨hopen, hempty | ⟨r, u, i, hl, hr, hrest⟩⟩ := h.nread q hq
    · exact ⟨hopen, .inl hempty⟩
    · exact ⟨hopen, .inr ⟨r, u, i, hl, (hpc (by rw [hr]; rfl)).trans hr, hrest⟩⟩

/-- A process that acquires the free lock is the one that holds it. -/
theorem enter (h : Awaited s) (hl : s.lock = none) (p : ℕ) (k : Pc) (q : ℕ)
    (hq : (update s.pc p k q).inside = true) : some p = some q := by
  rcases eq_or_ne q p with rfl | hne
  · rfl
  · rw [update_of_ne hne] at hq
    have := h.held q hq
    simp [hl] at this

theorem free (h : Awaited s) {p : ℕ} {k : Pc} {l : Option ℕ} (hp : (s.pc p).inside = true)
    (hk : k.inside = false) (q : ℕ) (hq : (update s.pc p k q).inside = true) : l = some q := by
  simp [h.leave hp hk] at hq

/-- The holder of the lock wakes the readers and returns. -/
theorem wakeReaders (h : Awaited s) {p : ℕ} {r : ℤ} (hp : (s.pc p).inside = true)
    (hr : ∀ u i, s.pc p ≠ .read u i) : Awaited ((s.wakeup .nread).ret p r) := by
  refine ⟨h.free hp rfl, fun q hq => ?_, fun q hq => absurd rfl (chan_wakeup hq).2⟩
  obtain ⟨hopen, hfull⟩ := h.full_of_held hp hr (chan_wakeup hq).1
  exact ⟨hopen, .inl hfull⟩

/-- The holder of the lock has taken bytes out, wakes the writers and returns. -/
theorem wakeWriters (h : Awaited s) (ring : RingBuffer UInt8 32 PIPESIZE) {p : ℕ} {r : ℤ}
    (hp : (s.pc p).inside = true)
    (hr : ∀ q, s.chan q = some .nread → s.writeopen = true ∧ ring.empty = true) :
    Awaited (({ s with ring := ring }.wakeup .nwrite).ret p r) := by
  refine ⟨h.free hp rfl, fun q hq => absurd rfl (chan_wakeup hq).2, fun q hq => ?_⟩
  obtain ⟨hopen, hempty⟩ := hr q (chan_wakeup hq).1
  exact ⟨hopen, .inl hempty⟩

end Awaited

/-- **One step** that kills no process in the loop of `pipewrite` keeps what the sleepers rely on. -/
theorem Step.awaited {t : Sys} (h : Awaited s) (hst : Step P s t) (hk : ¬ KillsWriter s t) :
    Awaited t := by
  cases hst with
  | callWrite p r u hp hf hu =>
    exact h.call p (by rw [hp]; rfl) rfl
  | callRead p r u hp hf hu =>
    exact h.call p (by rw [hp]; rfl) rfl
  | close writable hl hf =>
    obtain ⟨hw, hr⟩ := h.of_free hl
    have hheld : ∀ q, (s.pc q).inside = true → s.lock = some q := h.held
    cases writable with
    | false =>
      refine ⟨hheld, fun q hq => absurd rfl (chan_wakeup hq).2, fun q hq => ?_⟩
      obtain ⟨hopen, hempty⟩ := hr q (chan_wakeup hq).1
      exact ⟨hopen, .inl hempty⟩
    | true =>
      refine ⟨hheld, fun q hq => ?_, fun q hq => absurd rfl (chan_wakeup hq).2⟩
      obtain ⟨hopen, hfull⟩ := hw q (chan_wakeup hq).1
      exact ⟨hopen, .inl hfull⟩
  | kill p =>
    have hchan : ∀ {q ch}, update s.chan p none q = some ch → s.chan q = some ch := by
      intro q ch hq
      rcases eq_or_ne q p with rfl | hne
      · simp [update_self] at hq
      · rwa [update_of_ne hne] at hq
    refine ⟨h.held, fun q hq => h.nwrite q (hchan hq), fun q hq => ?_⟩
    obtain ⟨hopen, hempty | ⟨r, u, i, hl, hpc, hro, hkr⟩⟩ := h.nread q (hchan hq)
    · exact ⟨hopen, .inl hempty⟩
    · -- the writer that holds the lock is not the victim
      have hne : r ≠ p := by
        rintro rfl
        exact hk ⟨r, u, i, hpc, hkr, update_self _ _ _⟩
      exact ⟨hopen, .inr ⟨r, u, i, hl, hpc, hro, (update_of_ne hne _ _).trans hkr⟩⟩
  | acquireWrite p u i hp hc hl =>
    obtain ⟨hw, hr⟩ := h.of_free hl
    refine ⟨fun q hq => h.enter hl p _ q hq, fun q hq => ?_, fun q hq => ?_⟩
    · exact ⟨(hw q hq).1, .inl (hw q hq).2⟩
    · exact ⟨(hr q hq).1, .inl (hr q hq).2⟩
  | acquireRead p u hp hc hl =>
    obtain ⟨hw, hr⟩ := h.of_free hl
    refine ⟨fun q hq => h.enter hl p _ q hq, fun q hq => ?_, fun q hq => ?_⟩
    · exact ⟨(hw q hq).1, .inl (hw q hq).2⟩
    · exact ⟨(hr q hq).1, .inl (hr q hq).2⟩
  | writeStop p u i hp hi hstop =>
    have hin : (s.pc p).inside = true := by rw [hp]; rfl
    refine ⟨h.free hin rfl, fun q hq => ?_, fun q hq => ?_⟩
    · obtain ⟨hopen, hfull⟩ := h.full_of_held hin (fun _ _ he => by rw [hp] at he; cases he) hq
      exact ⟨hopen, .inl hfull⟩
    · -- a writer that stops has stored nothing since it acquired the lock
      obtain ⟨hopen, hempty | ⟨r, v, j, hl, hpc, hro, hkr⟩⟩ := h.nread q hq
      · exact ⟨hopen, .inl hempty⟩
      · obtain rfl : p = r := Option.some.inj ((h.held p hin).symm.trans hl)
        rcases hstop with hstop | hstop
        · simp [hro] at hstop
        · simp [hkr] at hstop
  | writeFull p u i hp hi hgo hf =>
    have hin : (s.pc p).inside = true := by rw [hp]; rfl
    refine ⟨h.free hin rfl, fun q hq => ⟨hgo.1, .inl hf⟩, fun q hq => ?_⟩
    have hq' := chan_sleep hq (by simp)
    exact absurd rfl (chan_wakeup hq').2
  | writeFault p u i hp hi hgo hf hu =>
    exact h.wakeReaders (by rw [hp]; rfl) (fun _ _ he => by rw [hp] at he; cases he)
  | writeByte p u i ch hp hi hgo hf hu =>
    have hin : (s.pc p).inside = true := by rw [hp]; rfl
    refine ⟨fun q hq => h.move hin q hq, fun q hq => ?_, fun q hq => ?_⟩
    · -- there was room, so no writer sleeps
      have := (h.full_of_held hin (fun _ _ he => by rw [hp] at he; cases he) hq).2
      simp [hf] at this
    · exact ⟨(h.nread q hq).1, .inr ⟨p, u, i + 1, h.held p hin, update_self _ _ _, hgo.1,
        hgo.2⟩⟩
  | writeEnd p u i hp hi =>
    exact h.wakeReaders (by rw [hp]; rfl) (fun _ _ he => by rw [hp] at he; cases he)
  | readStop p u hp he hkp =>
    have hin : (s.pc p).inside = true := by rw [hp]; rfl
    refine ⟨h.free hin rfl, fun q hq => ?_, fun q hq => ?_⟩
    · obtain ⟨hopen, hfull⟩ := h.full_of_held hin (fun _ _ he => by rw [hp] at he; cases he) hq
      exact ⟨hopen, .inl hfull⟩
    · exact ⟨he.2, .inl he.1⟩
  | readSleep p u hp he hkp =>
    have hin : (s.pc p).inside = true := by rw [hp]; rfl
    refine ⟨h.free hin rfl, fun q hq => ?_, fun q hq => ⟨he.2, .inl he.1⟩⟩
    obtain ⟨hopen, hfull⟩ := h.full_of_held hin (fun _ _ he => by rw [hp] at he; cases he)
      (chan_sleep hq (by simp))
    exact ⟨hopen, .inl hfull⟩
  | readGo p u hp he =>
    have hin : (s.pc p).inside = true := by rw [hp]; rfl
    refine ⟨fun q hq => h.move hin q hq, fun q hq => ?_, fun q hq => ?_⟩
    · obtain ⟨hopen, hfull⟩ := h.full_of_held hin (fun _ _ he => by rw [hp] at he; cases he) hq
      exact ⟨hopen, .inl hfull⟩
    · obtain ⟨hopen, hempty⟩ := h.empty_of_held hin (fun _ _ he => by rw [hp] at he; cases he) hq
      exact ⟨hopen, .inl hempty⟩
  | readByte p u i hp hi he hu =>
    have hin : (s.pc p).inside = true := by rw [hp]; rfl
    refine ⟨fun q hq => h.move hin q hq, fun q hq => ?_, fun q hq => ?_⟩
    · exact ⟨(h.nwrite q hq).1, .inr ⟨p, u, i + 1, h.held p hin, update_self _ _ _⟩⟩
    · -- there was a byte, so no reader sleeps
      have := (h.empty_of_held hin (fun _ _ he => by rw [hp] at he; cases he) hq).2
      simp [he] at this
  | readFault p u i hp hi he hu =>
    refine h.wakeWriters s.ring.pop (by rw [hp]; rfl) (fun q hq => ?_)
    have := (h.empty_of_held (by rw [hp]; rfl) (fun _ _ he => by rw [hp] at he; cases he) hq).2
    simp [he] at this
  | readEnd p u i hp hi =>
    exact h.wakeWriters s.ring (by rw [hp]; rfl) fun q hq =>
      h.empty_of_held (by rw [hp]; rfl) (fun _ _ he => by rw [hp] at he; cases he) hq

theorem awaited_opened (data : Fin PIPESIZE → UInt8) : Awaited (opened data) where
  held p h := by simp [opened, Pc.inside] at h
  nwrite p h := by simp [opened] at h
  nread p h := by simp [opened] at h

/-- A full buffer holds `PIPESIZE` bytes. -/
theorem not_lt_of_full (h : s.ring.full = true) :
    ¬ (s.ring.nwrite - s.ring.nread).toNat < PIPESIZE := by
  have hn : s.ring.nwrite = s.ring.nread + BitVec.ofNat 32 PIPESIZE := by
    simpa [RingBuffer.full] using h
  rw [hn, show s.ring.nread + BitVec.ofNat 32 PIPESIZE - s.ring.nread = BitVec.ofNat 32 PIPESIZE by
    bv_omega]
  decide

/-- **No wakeup is lost in a pipe**: for any readers, writers and closers, with any buffers, in every
state with the lock free nobody sleeps on a pipe that has what it waits for, if no process was killed
in the middle of the loop of `pipewrite`. -/
theorem reachable_no_lost_wakeup {data : Fin PIPESIZE → UInt8}
    (h : Relation.ReflTransGen (fun s t => Step P s t ∧ ¬ KillsWriter s t) (opened data) s)
    (hl : s.lock = none) (p : ℕ) : ¬ Lost s p := by
  have hs : Awaited s := by
    clear hl
    induction h with
    | refl => exact awaited_opened data
    | tail _ hst ih => exact hst.1.awaited ih hst.2
  obtain ⟨hw, hr⟩ := hs.of_free hl
  rintro (⟨hp, hlost⟩ | ⟨hp, hlost⟩)
  · obtain ⟨hopen, hempty⟩ := hr p hp
    rcases hlost with hne | hclosed
    · exact hne (by simpa [RingBuffer.empty] using hempty)
    · simp [hopen] at hclosed
  · obtain ⟨hopen, hfull⟩ := hw p hp
    rcases hlost with ⟨-, hroom⟩ | hclosed
    · exact not_lt_of_full hfull hroom
    · simp [hopen] at hclosed

/-- A reader sleeps on the empty pipe; a writer stores its byte, is not killed, and wakes the reader. -/
theorem reachable_no_lost_wakeup_oneByte : ∃ s : Sys, s.stored = [7] ∧ s.lock = none ∧ ¬ Lost s 1 := by
  have h : Relation.ReflTransGen (fun s t => Step Call.Valid s t ∧ ¬ KillsWriter s t)
      (opened fun _ => 0) _ :=
    Relation.ReflTransGen.refl
      |>.tail ⟨.callRead _ 1 0 oneByte rfl rfl oneByte_valid, by rintro ⟨p, u, i, -, hk, hk'⟩; cases hk'⟩
      |>.tail ⟨.acquireRead _ 1 oneByte rfl rfl rfl, by rintro ⟨p, u, i, -, hk, hk'⟩; cases hk'⟩
      |>.tail ⟨.readSleep _ 1 oneByte rfl ⟨rfl, rfl⟩ rfl, by rintro ⟨p, u, i, -, hk, hk'⟩; cases hk'⟩
      |>.tail ⟨.callWrite _ 0 0 oneByte rfl rfl oneByte_valid, by rintro ⟨p, u, i, -, hk, hk'⟩; cases hk'⟩
      |>.tail ⟨.acquireWrite _ 0 oneByte 0 rfl rfl rfl, by rintro ⟨p, u, i, -, hk, hk'⟩; cases hk'⟩
      |>.tail ⟨.writeByte _ 0 oneByte 0 7 rfl (by decide) ⟨rfl, rfl⟩ rfl rfl,
        by rintro ⟨p, u, i, -, hk, hk'⟩; cases hk'⟩
      |>.tail ⟨.writeEnd _ 0 oneByte 1 rfl (by decide), by rintro ⟨p, u, i, -, hk, hk'⟩; cases hk'⟩
  exact ⟨_, rfl, rfl, reachable_no_lost_wakeup h rfl 1⟩

/-- A call that moves the two bytes 7 and 7. -/
def twoBytes : Call := ⟨2, fun _ => some 7, fun _ => true⟩

/-- **A killed writer wakes nobody**: it has stored a byte for a sleeping reader when it is killed, sees
that at the next turn of its loop, and returns without a `wakeup`. -/
theorem exists_lost_wakeup : ∃ s : Sys, Reachable Call.Valid s ∧ s.lock = none ∧ s.freed = false ∧
    Lost s 1 := by
  have hv : twoBytes.Valid := fun _ _ => ⟨rfl, rfl⟩
  have h : Relation.ReflTransGen (Step Call.Valid) (opened fun _ => 0) _ :=
    Relation.ReflTransGen.refl
      |>.tail (.callRead _ 1 0 oneByte rfl rfl oneByte_valid)
      |>.tail (.acquireRead _ 1 oneByte rfl rfl rfl)
      |>.tail (.readSleep _ 1 oneByte rfl ⟨rfl, rfl⟩ rfl)
      |>.tail (.callWrite _ 0 0 twoBytes rfl rfl hv)
      |>.tail (.acquireWrite _ 0 twoBytes 0 rfl rfl rfl)
      |>.tail (.writeByte _ 0 twoBytes 0 7 rfl (by decide) ⟨rfl, rfl⟩ rfl rfl)
      |>.tail (.kill _ 0)
      |>.tail (.writeStop _ 0 twoBytes 1 rfl (by decide) (.inr rfl))
  exact ⟨_, ⟨_, h⟩, rfl, rfl, .inl ⟨rfl, .inl (by decide)⟩⟩

end Pipes

end Xv6
