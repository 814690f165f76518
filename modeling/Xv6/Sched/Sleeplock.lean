import Mathlib.Tactic
import Mathlib.Logic.Relation

/-!
# Sleep locks (`sleeplock.c`, with `sleep`, `wakeup` and `kill` of `proc.c`)

One sleep lock and any number of processes that acquire and release it and are killed.  A step is what
happens from one acquisition of a spinlock to the next: `lk->lk` is explicit, since it is held while
`sleep` and `wakeup` acquire the locks of processes; a section under the lock of a process is one step.

* `SleepLock.Sys`, `SleepLock.Step`: the lock, where each process is, and the steps;
* `SleepLock.reachable_exclusion`: at most one process holds the lock, `lk->pid` is its pid, and nobody
  sleeps on a free lock.
-/

namespace Xv6

open Function

namespace SleepLock

/-- Where a process is. -/
inductive Pc
  /-- Outside, without the sleep lock. -/
  | out
  /-- In `acquiresleep`, about to acquire `lk->lk`. -/
  | acquire
  /-- At `while (lk->locked)`, holding `lk->lk`. -/
  | test
  /-- In `sleep`, holding `lk->lk` and about to acquire `p->lock`. -/
  | sleep
  /-- In `sched`, called by `sleep`. -/
  | sched
  /-- Outside, with the sleep lock. -/
  | held
  /-- In `releasesleep`, about to acquire `lk->lk`. -/
  | release
  /-- In `wakeup`, holding `lk->lk` and about to acquire the lock of process `i`. -/
  | wakeup (i : ℕ)
  deriving DecidableEq

/-- A sleep lock and `n` processes. -/
structure Sys (n : ℕ) where
  /-- The holder of `lk->lk`. -/
  lk : Option (Fin n)
  locked : Bool
  pid : ℤ
  pc : Fin n → Pc
  /-- The process is `SLEEPING` with `chan` the sleep lock. -/
  sleeping : Fin n → Bool

variable {n : ℕ}

/-- Process `p` goes on at `k`. -/
def Sys.goto (s : Sys n) (p : Fin n) (k : Pc) : Sys n := { s with pc := update s.pc p k }

/-- The state of process `p` becomes `RUNNABLE` if it was `SLEEPING`. -/
def Sys.wake (s : Sys n) (p : Fin n) : Sys n := { s with sleeping := update s.sleeping p false }

/-- One step; `pid p` is the pid of process `p`. -/
inductive Step (pid : Fin n → ℤ) : Sys n → Sys n → Prop
  | acquiresleep (s : Sys n) (p : Fin n) (hp : s.pc p = .out) : Step pid s (s.goto p .acquire)
  | enter (s : Sys n) (p : Fin n) (hp : s.pc p = .acquire) (hl : s.lk = none) :
      Step pid s { s.goto p .test with lk := some p }
  | take (s : Sys n) (p : Fin n) (hp : s.pc p = .test) (hl : s.locked = false) :
      Step pid s { s.goto p .held with lk := none, locked := true, pid := pid p }
  | wait (s : Sys n) (p : Fin n) (hp : s.pc p = .test) (hl : s.locked = true) :
      Step pid s (s.goto p .sleep)
  /-- `sleep` acquires `p->lock`, releases `lk->lk` and calls `sched`. -/
  | doze (s : Sys n) (p : Fin n) (hp : s.pc p = .sleep) :
      Step pid s { s.goto p .sched with lk := none, sleeping := update s.sleeping p true }
  /-- The scheduler resumes a process that is not asleep. -/
  | resume (s : Sys n) (p : Fin n) (hp : s.pc p = .sched) (hs : s.sleeping p = false) :
      Step pid s (s.goto p .acquire)
  | releasesleep (s : Sys n) (p : Fin n) (hp : s.pc p = .held) : Step pid s (s.goto p .release)
  | unlock (s : Sys n) (p : Fin n) (hp : s.pc p = .release) (hl : s.lk = none) :
      Step pid s { s.goto p (.wakeup 0) with lk := some p, locked := false, pid := 0 }
  /-- `wakeup` passes over the process that calls it. -/
  | skip (s : Sys n) (p : Fin n) (hp : s.pc p = .wakeup p) : Step pid s (s.goto p (.wakeup (p + 1)))
  | scan (s : Sys n) (p q : Fin n) (hp : s.pc p = .wakeup q) (hq : q ≠ p) :
      Step pid s ((s.wake q).goto p (.wakeup (q + 1)))
  | done (s : Sys n) (p : Fin n) (hp : s.pc p = .wakeup n) :
      Step pid s { s.goto p .out with lk := none }
  | kill (s : Sys n) (p : Fin n) : Step pid s (s.wake p)

/-- `initsleeplock`. -/
def initsleeplock : Sys n where
  lk := none
  locked := false
  pid := 0
  pc _ := .out
  sleeping _ := false

/-- The states of the runs. -/
def Reachable (pid : Fin n → ℤ) (s : Sys n) : Prop :=
  Relation.ReflTransGen (Step pid) initsleeplock s

/-- The process is between its `acquiresleep` and its `releasesleep`. -/
def Sys.Holds (s : Sys n) (p : Fin n) : Prop := s.pc p = .held ∨ s.pc p = .release

/-- Does a process at this point hold `lk->lk`? -/
def Pc.inside : Pc → Bool
  | .test | .sleep | .wakeup _ => true
  | .out | .acquire | .sched | .held | .release => false

/-- A `wakeup` under way has not come to process `p` yet. -/
def Sys.Due (s : Sys n) (p : Fin n) : Prop := ∃ q i, s.pc q = .wakeup i ∧ i ≤ p

/-- The invariant. -/
structure Inv (pid : Fin n → ℤ) (s : Sys n) : Prop where
  inside : ∀ p, (s.pc p).inside = true → s.lk = some p
  holds : ∀ p, s.Holds p → s.locked = true ∧ s.pid = pid p
  unique : ∀ p q, s.Holds p → s.Holds q → p = q
  sleep : ∀ p, s.pc p = .sleep → s.locked = true
  /-- A sleeper waits for a holder, or for the `wakeup` that has not come to it yet. -/
  sleeping : ∀ p, s.sleeping p = true → s.pc p = .sched ∧ (s.locked = true ∨ s.Due p)

theorem inv_initsleeplock (pid : Fin n → ℤ) : Inv pid (initsleeplock : Sys n) where
  inside p h := by simp [initsleeplock, Pc.inside] at h
  holds p h := by simp [initsleeplock, Sys.Holds] at h
  unique p q h := by simp [initsleeplock, Sys.Holds] at h
  sleep p h := by simp [initsleeplock] at h
  sleeping p h := by simp [initsleeplock] at h

variable {pid : Fin n → ℤ} {s t : Sys n}

namespace Inv

theorem eq_of_inside (h : Inv pid s) {p q : Fin n} (hp : (s.pc p).inside = true)
    (hq : (s.pc q).inside = true) : p = q :=
  Option.some.inj ((h.inside p hp).symm.trans (h.inside q hq))

/-- With `lk->lk` free, a sleeper waits for a holder. -/
theorem locked_of_free (h : Inv pid s) (hl : s.lk = none) {p : Fin n} (hp : s.sleeping p = true) :
    s.locked = true := by
  obtain ⟨-, hlocked | ⟨q, i, hq, -⟩⟩ := h.sleeping p hp
  · exact hlocked
  · have := h.inside q (by rw [hq]; rfl)
    simp [hl] at this

/-- With a process inside and not in `wakeup`, a sleeper waits for a holder. -/
theorem locked_of_inside (h : Inv pid s) {r : Fin n} (hr : (s.pc r).inside = true)
    (hw : ∀ i, s.pc r ≠ .wakeup i) {p : Fin n} (hp : s.sleeping p = true) : s.locked = true := by
  obtain ⟨-, hlocked | ⟨q, i, hq, -⟩⟩ := h.sleeping p hp
  · exact hlocked
  · obtain rfl := h.eq_of_inside hr (by rw [hq]; rfl)
    exact absurd hq (hw i)

end Inv

/-- A process that is not in `sched` is not asleep. -/
theorem Inv.awake (h : Inv pid s) {p : Fin n} (hp : s.pc p ≠ .sched) : s.sleeping p = false := by
  by_contra hs
  exact hp (h.sleeping p (by simpa using hs)).1

/-! ### Moving one process -/

@[simp] theorem goto_pc_self (s : Sys n) (p : Fin n) (k : Pc) : (s.goto p k).pc p = k :=
  update_self _ _ _

theorem goto_pc_of_ne {p q : Fin n} {k : Pc} (hq : q ≠ p) : (s.goto p k).pc q = s.pc q :=
  update_of_ne hq _ _

/-- Who is at a point that `p` was not at and does not come to. -/
theorem goto_pc_eq {p q : Fin n} {k k' : Pc} (hk : k ≠ k') (h : (s.goto p k).pc q = k') :
    q ≠ p ∧ s.pc q = k' := by
  rcases eq_or_ne q p with rfl | hq
  · rw [goto_pc_self] at h
    exact absurd h hk
  · exact ⟨hq, by rwa [goto_pc_of_ne hq] at h⟩

/-- A move that neither takes nor gives the sleep lock leaves its holders. -/
theorem goto_holds {p q : Fin n} {k : Pc} (hk : (k = .held ∨ k = .release) ↔ s.Holds p) :
    (s.goto p k).Holds q ↔ s.Holds q := by
  rcases eq_or_ne q p with rfl | hq
  · rw [← hk]
    simp [Sys.Holds]
  · simp [Sys.Holds, goto_pc_of_ne hq]

/-- A move of a process that is not in `wakeup` leaves what is due. -/
theorem Sys.Due.goto {p q : Fin n} {k : Pc} (h : s.Due q) (hp : ∀ i, s.pc p ≠ .wakeup i) :
    (s.goto p k).Due q := by
  obtain ⟨r, i, hr, hi⟩ := h
  have hne : r ≠ p := by
    rintro rfl
    exact hp i hr
  exact ⟨r, i, (goto_pc_of_ne hne).trans hr, hi⟩

namespace Inv

/-- The holder of `lk->lk` gives it up. -/
theorem leave (h : Inv pid s) {p : Fin n} {k : Pc} (hp : (s.pc p).inside = true)
    (hk : k.inside = false) (q : Fin n) : ((s.goto p k).pc q).inside = false := by
  rcases eq_or_ne q p with rfl | hq
  · rw [goto_pc_self, hk]
  · rw [goto_pc_of_ne hq]
    by_contra hin
    exact hq (h.eq_of_inside (by simpa using hin) hp)

/-- A process acquires the free `lk->lk`. -/
theorem come (h : Inv pid s) (hl : s.lk = none) {p q : Fin n} {k : Pc}
    (hq : ((s.goto p k).pc q).inside = true) : some p = some q := by
  rcases eq_or_ne q p with rfl | hne
  · rfl
  · rw [goto_pc_of_ne hne] at hq
    have := h.inside q hq
    simp [hl] at this

theorem goto (h : Inv pid s) {p : Fin n} {k : Pc} (hin : k.inside = (s.pc p).inside)
    (hholds : (k = .held ∨ k = .release) ↔ s.Holds p) (hsleep : k = .sleep → s.locked = true)
    (hw : ∀ i, s.pc p ≠ .wakeup i) (hawake : s.sleeping p = false) : Inv pid (s.goto p k) where
  inside q hq := by
    rcases eq_or_ne q p with rfl | hne
    · exact h.inside q (by rwa [goto_pc_self, hin] at hq)
    · exact h.inside q (by rwa [goto_pc_of_ne hne] at hq)
  holds q hq := h.holds q ((goto_holds hholds).1 hq)
  unique q r hq hr := h.unique q r ((goto_holds hholds).1 hq) ((goto_holds hholds).1 hr)
  sleep q hq := by
    rcases eq_or_ne q p with rfl | hne
    · exact hsleep (by rwa [goto_pc_self] at hq)
    · exact h.sleep q (by rwa [goto_pc_of_ne hne] at hq)
  sleeping q hq := by
    have hne : q ≠ p := by
      rintro rfl
      exact absurd (hawake.symm.trans hq) (by simp)
    obtain ⟨hpc, hwait⟩ := h.sleeping q hq
    exact ⟨(goto_pc_of_ne hne).trans hpc, hwait.imp id fun hd => hd.goto hw⟩

theorem wake (h : Inv pid s) (p : Fin n) : Inv pid (s.wake p) := by
  refine ⟨h.inside, h.holds, h.unique, h.sleep, fun q hq => h.sleeping q ?_⟩
  have hne : q ≠ p := by
    rintro rfl
    simp [show (s.wake q).sleeping q = false from update_self _ _ _] at hq
  exact (update_of_ne hne _ _).symm.trans hq

/-- `wakeup` goes from process `q` to the next, with `q` awake. -/
theorem next (h : Inv pid s) {p q : Fin n} (hp : s.pc p = .wakeup q) (hq : s.sleeping q = false) :
    Inv pid (s.goto p (.wakeup (q + 1))) := by
  have hholds : (Pc.wakeup (q + 1) = .held ∨ Pc.wakeup (q + 1) = .release) ↔ s.Holds p := by
    simp [Sys.Holds, hp]
  refine ⟨fun r hr => ?_, fun r hr => h.holds r ((goto_holds hholds).1 hr), fun r r' hr hr' =>
    h.unique r r' ((goto_holds hholds).1 hr) ((goto_holds hholds).1 hr'), fun r hr => ?_, fun r hr => ?_⟩
  · rcases eq_or_ne r p with rfl | hne
    · exact h.inside r (by rw [hp]; rfl)
    · exact h.inside r (by rwa [goto_pc_of_ne hne] at hr)
  · exact h.sleep r (goto_pc_eq (by simp) hr).2
  · obtain ⟨hpc, hwait⟩ := h.sleeping r hr
    have hrp : r ≠ p := by
      rintro rfl
      simp [hp] at hpc
    refine ⟨(goto_pc_of_ne hrp).trans hpc, hwait.imp id ?_⟩
    rintro ⟨p', i, hp', hi⟩
    -- only `p` is in `wakeup`, and it had come to `q`, which is awake
    obtain rfl : p' = p := h.eq_of_inside (by rw [hp']; rfl) (by rw [hp]; rfl)
    obtain rfl : i = q := by simpa [hp] using hp'.symm
    have hrq : (r : ℕ) ≠ q := fun he => by
      have hr' : s.sleeping r = true := hr
      simp [Fin.ext he, hq] at hr'
    exact ⟨p', _, goto_pc_self _ _ _, by omega⟩

end Inv

/-- **One step** keeps the invariant. -/
theorem Step.inv (h : Inv pid s) (hst : Step pid s t) : Inv pid t := by
  cases hst with
  | acquiresleep p hp =>
    exact h.goto (by rw [hp]; rfl) (by simp [Sys.Holds, hp]) (by simp) (by simp [hp])
      (h.awake (by simp [hp]))
  | enter p hp hl =>
    have hholds : (Pc.test = .held ∨ Pc.test = .release) ↔ s.Holds p := by simp [Sys.Holds, hp]
    refine ⟨fun q hq => h.come hl hq, fun q hq => h.holds q ((goto_holds hholds).1 hq), fun q r hq hr =>
      h.unique q r ((goto_holds hholds).1 hq) ((goto_holds hholds).1 hr), fun q hq =>
      h.sleep q (goto_pc_eq (by simp) hq).2, fun q hq => ?_⟩
    have hne : q ≠ p := by
      rintro rfl
      exact absurd ((h.awake (by simp [hp])).symm.trans hq) (by simp)
    exact ⟨(goto_pc_of_ne hne).trans (h.sleeping q hq).1, .inl (h.locked_of_free hl hq)⟩
  | take p hp hl =>
    -- nobody held the lock, so nobody else does now
    have hfree : ∀ q, ¬ s.Holds q := fun q hq => by simp [(h.holds q hq).1] at hl
    have heq : ∀ q, (s.goto p .held).Holds q → q = p := by
      intro q hq
      by_contra hne
      exact hfree q (by simpa [Sys.Holds, goto_pc_of_ne hne] using hq)
    refine ⟨fun q hq => ?_, fun q hq => ⟨rfl, by rw [heq q hq]⟩, fun q r hq hr =>
      (heq q hq).trans (heq r hr).symm, fun q hq => rfl, fun q hq => ?_⟩
    · exact absurd hq (by simp [h.leave (k := .held) (by rw [hp]; rfl) rfl q])
    · have hlock := h.locked_of_inside (r := p) (by rw [hp]; rfl) (by simp [hp]) hq
      simp [hl] at hlock
  | wait p hp hl =>
    exact h.goto (by rw [hp]; rfl) (by simp [Sys.Holds, hp]) (fun _ => hl) (by simp [hp])
      (h.awake (by simp [hp]))
  | doze p hp =>
    have hlocked := h.sleep p hp
    have hholds : (Pc.sched = .held ∨ Pc.sched = .release) ↔ s.Holds p := by simp [Sys.Holds, hp]
    refine ⟨fun q hq => ?_, fun q hq => h.holds q ((goto_holds hholds).1 hq), fun q r hq hr =>
      h.unique q r ((goto_holds hholds).1 hq) ((goto_holds hholds).1 hr), fun q hq =>
      h.sleep q (goto_pc_eq (by simp) hq).2, fun q hq => ⟨?_, .inl hlocked⟩⟩
    · exact absurd hq (by simp [h.leave (k := .sched) (by rw [hp]; rfl) rfl q])
    · rcases eq_or_ne q p with rfl | hne
      · exact goto_pc_self _ _ _
      · have hold : s.sleeping q = true := (update_of_ne hne _ _).symm.trans hq
        exact (goto_pc_of_ne hne).trans (h.sleeping q hold).1
  | resume p hp hs =>
    exact h.goto (by rw [hp]; rfl) (by simp [Sys.Holds, hp]) (by simp) (by simp [hp]) hs
  | releasesleep p hp =>
    exact h.goto (by rw [hp]; rfl) (by simp [Sys.Holds, hp]) (by simp) (by simp [hp])
      (h.awake (by simp [hp]))
  | unlock p hp hl =>
    -- `p` was the only holder
    have hnone : ∀ q, ¬ (s.goto p (.wakeup 0)).Holds q := by
      intro q hq
      rcases eq_or_ne q p with rfl | hne
      · simp [Sys.Holds] at hq
      · have hq' : s.Holds q := by simpa [Sys.Holds, goto_pc_of_ne hne] using hq
        exact hne (h.unique q p hq' (.inr hp))
    refine ⟨fun q hq => h.come hl hq, fun q hq => absurd hq (hnone q), fun q r hq => absurd hq (hnone q),
      fun q hq => ?_, fun q hq => ?_⟩
    · have hin := h.inside q (by rw [(goto_pc_eq (by simp) hq).2]; rfl)
      simp [hl] at hin
    · have hne : q ≠ p := by
        rintro rfl
        exact absurd ((h.awake (by simp [hp])).symm.trans hq) (by simp)
      exact ⟨(goto_pc_of_ne hne).trans (h.sleeping q hq).1,
        .inr ⟨p, 0, goto_pc_self _ _ _, Nat.zero_le _⟩⟩
  | skip p hp => exact h.next hp (h.awake (by simp [hp]))
  | scan p q hp hq =>
    exact (h.wake q).next hp (update_self _ _ _)
  | done p hp =>
    have hholds : (Pc.out = .held ∨ Pc.out = .release) ↔ s.Holds p := by simp [Sys.Holds, hp]
    refine ⟨fun q hq => ?_, fun q hq => h.holds q ((goto_holds hholds).1 hq), fun q r hq hr =>
      h.unique q r ((goto_holds hholds).1 hq) ((goto_holds hholds).1 hr), fun q hq =>
      h.sleep q (goto_pc_eq (by simp) hq).2, fun q hq => ?_⟩
    · exact absurd hq (by simp [h.leave (k := .out) (by rw [hp]; rfl) rfl q])
    · have hne : q ≠ p := by
        rintro rfl
        exact absurd ((h.awake (by simp [hp])).symm.trans hq) (by simp)
      obtain ⟨hpc, hwait⟩ := h.sleeping q hq
      refine ⟨(goto_pc_of_ne hne).trans hpc, hwait.imp id ?_⟩
      rintro ⟨r, i, hr, hi⟩
      -- the scan has passed every process
      obtain rfl : r = p := h.eq_of_inside (by rw [hr]; rfl) (by rw [hp]; rfl)
      obtain rfl : i = n := by simpa [hp] using hr.symm
      exact absurd q.isLt (by omega)
  | kill p => exact h.wake p

theorem Reachable.inv (h : Reachable pid s) : Inv pid s := by
  induction h with
  | refl => exact inv_initsleeplock pid
  | tail _ hst ih => exact hst.inv ih

/-- **A sleep lock excludes**: for any number of processes that acquire and release it and are killed,
at most one is between its `acquiresleep` and its `releasesleep`, `lk->pid` is the pid of that one, and
nobody sleeps on the lock when it is free. -/
theorem reachable_exclusion (h : Reachable pid s) :
    (∀ p q, s.Holds p → s.Holds q → p = q) ∧ (∀ p, s.Holds p → s.pid = pid p) ∧
      (s.lk = none → s.locked = false → ∀ p, s.sleeping p = false) := by
  have hs := h.inv
  refine ⟨hs.unique, fun p hp => (hs.holds p hp).2, fun hl hfree p => ?_⟩
  by_contra hp
  have hlocked := hs.locked_of_free hl (p := p) (by simpa using hp)
  simp [hfree] at hlocked

/-- One process holds the lock while another sleeps on it, and is killed. -/
theorem reachable_exclusion_two : ∃ s : Sys 2, Reachable (fun p => p + 1) s ∧ s.Holds 0 ∧
    s.pc 1 = .acquire ∧ s.pid = 1 := by
  have h : Reachable (fun p : Fin 2 => (p : ℤ) + 1) _ :=
    Relation.ReflTransGen.refl
      |>.tail (.acquiresleep _ 0 rfl)
      |>.tail (.enter _ 0 rfl rfl)
      |>.tail (.take _ 0 rfl rfl)
      |>.tail (.acquiresleep _ 1 rfl)
      |>.tail (.enter _ 1 rfl rfl)
      |>.tail (.wait _ 1 rfl rfl)
      |>.tail (.doze _ 1 rfl)
      |>.tail (.kill _ 1)
      |>.tail (.resume _ 1 rfl rfl)
  exact ⟨_, h, .inl rfl, rfl, (reachable_exclusion h).2.1 0 (.inl rfl)⟩

end SleepLock

end Xv6
