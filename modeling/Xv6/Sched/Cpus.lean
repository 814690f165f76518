import Xv6.Sched.Sched

/-!
# One CPU per process

`p->lock` is acquired by one thread and released by another across `swtch`, in both directions.
`Owns s c i` says at which positions CPU `c` holds the lock of entry `i` for such a hand-over, and the
invariant `Cpus` ties it to the locks and to the states of the processes.  Each elementary change of
the machine keeps it under its own condition, and a step is a few such changes.

* `Step.cpus`, `Run.cpus`: the invariant holds in every state of every run;
* `run_one_cpu`: no process is current on two CPUs; while `p->lock` is free, `p` is RUNNING exactly
  when it is current on one CPU; and `wait` frees an entry only when no CPU is on its stack.
-/

namespace Xv6


open Function (update_eq_self update_of_ne update_self)

namespace Sched

/-- CPU `c` holds the lock of entry `i` across a `swtch`. -/
def Owns (s : Sys) (c : ℕ) (i : Slot) : Prop :=
  s.loc c = .check i ∨ s.loc c = .back i ∨
    (s.cur c = some i ∧ s.loc c = .running ∧ (s.sw i = .leaving ∨ s.sw i = .away))

/-- A `fork` under way has allocated entry `np`. -/
def Pc.Child (k : Pc) (np : Slot) : Prop := k = .forkParent np ∨ k = .forkRun np

/-- What each CPU is at, what it holds, and what the state of each process says. -/
structure Cpus (s : Sys) : Prop where
  idle : ∀ c i, s.loc c = .scan i ∨ s.loc c = .check i → s.cur c = none
  back : ∀ c i, s.loc c = .back i → s.cur c = some i
  owns : ∀ c i, Owns s c i → s.lock i = some c ∧ s.wake c = none
  one : ∀ c c' p, s.cur c = some p → s.cur c' = some p → c = c'
  run : ∀ q, (s.entry q).state = .RUNNING ↔
    ∃ c, s.cur c = some q ∧ s.loc c = .running ∧ s.sw q ≠ .leaving
  /-- A thread that is not away is on a CPU. -/
  off : ∀ q, s.sw q ≠ .away → ∃ c, s.cur c = some q ∧ s.loc c = .running
  /-- The child of a `fork` under way is not runnable yet. -/
  child : ∀ q np, (s.pc q).Child np → (s.entry np).state = .USED
  childOne : ∀ q q' np, (s.pc q).Child np → (s.pc q').Child np → q = q'

theorem cpus_booted : Cpus booted where
  idle c i _ := rfl
  back c i h := by simp [booted] at h
  owns c i h := by simp [booted, Owns] at h
  one c c' p h := by simp [booted] at h
  run q := by
    have hidle : (booted.entry q).state ≠ .RUNNING := by revert q; decide
    simpa [booted] using hidle
  off q h := by simp [booted] at h
  child q np h := by simp [booted, Pc.Child] at h
  childOne q q' np h := by simp [booted, Pc.Child] at h

variable {s t : Sys} {c : ℕ} {q i : Slot} {e : Ev}

/-- A CPU that runs its process's code holds no lock across a `swtch`. -/
theorem Sys.On.not_owns (on : s.On c q) (i : Slot) : ¬ Owns s c i := by
  rintro (h | h | ⟨h, -, h'⟩)
  · simp [on.running] at h
  · simp [on.running] at h
  · rw [on.cur, Option.some.injEq] at h
    subst h
    simp [on.going] at h'

/-! ### Elementary changes -/

namespace Cpus

section

variable (h : Cpus s)
include h

/-- A CPU in `wakeup` holds no lock across a `swtch`. -/
theorem not_owns_of_wake {w : Chan × ℕ} (hw : s.wake c = some w) (i : Slot) :
    ¬ Owns s c i := by
  intro ho
  have := (h.owns c i ho).2
  simp [hw] at this

theorem on_running (on : s.On c q) : (s.entry q).state = .RUNNING :=
  (h.run q).2 ⟨c, on.cur, on.running, by rw [on.going]; simp⟩

theorem setWait (w : Option Slot) : Cpus (s.setWait w) := { h with }

theorem setParent (p : Slot) (w : Option Slot) : Cpus (s.setParent p w) := { h with }

theorem acquire (hl : s.lock i = none) : Cpus (s.acquire c i) where
  idle := h.idle
  back := h.back
  owns c' j ho := by
    have hj := h.owns c' j ho
    rcases eq_or_ne j i with rfl | hne
    · rw [hl] at hj
      exact absurd hj.1 (by simp)
    · exact ⟨(update_of_ne hne _ _).trans hj.1, hj.2⟩
  one := h.one
  run := h.run
  off := h.off
  child := h.child
  childOne := h.childOne

/-- A lock can be released by a CPU that does not hold it across a `swtch`. -/
theorem release (hl : s.lock i = some c) (ho : ¬ Owns s c i) : Cpus (s.release i) where
  idle := h.idle
  back := h.back
  owns c' j hj := by
    have hc' := h.owns c' j hj
    rcases eq_or_ne j i with rfl | hne
    · rw [hl, Option.some.injEq] at hc'
      exact absurd hj (hc'.1 ▸ ho)
    · exact ⟨(update_of_ne hne _ _).trans hc'.1, hc'.2⟩
  one := h.one
  run := h.run
  off := h.off
  child := h.child
  childOne := h.childOne

/-- An entry can change if it stays RUNNING or not, and stays USED while a `fork` is about to make it
runnable. -/
theorem put {x : Entry} (hr : x.state = .RUNNING ↔ (s.entry i).state = .RUNNING)
    (hu : ∀ p, (s.pc p).Child i → x.state = .USED) : Cpus (s.put i x) where
  idle := h.idle
  back := h.back
  owns := h.owns
  one := h.one
  run p := by
    refine Iff.trans ?_ (h.run p)
    rcases eq_or_ne p i with rfl | hne
    · simpa [Sys.put] using hr
    · simp [Sys.put, update_of_ne hne]
  off := h.off
  child p np hp := by
    rcases eq_or_ne np i with rfl | hne
    · simpa [Sys.put] using hu p hp
    · simpa [Sys.put, update_of_ne hne] using h.child p np hp
  childOne := h.childOne

/-- A thread can go on at a position that is about no new child. -/
theorem goto {k : Pc} (hk : ∀ np, k.Child np → (s.pc q).Child np) :
    Cpus (s.goto q k) := by
  have hpc : ∀ p np, (((s.goto q k).pc p).Child np) → (s.pc p).Child np := by
    intro p np hp
    rcases eq_or_ne p q with rfl | hne
    · exact hk np (by simpa [Sys.goto] using hp)
    · simpa [Sys.goto, update_of_ne hne] using hp
  exact { h with
    child := fun p np hp => h.child p np (hpc p np hp)
    childOne := fun p p' np hp hp' => h.childOne p p' np (hpc p np hp) (hpc p' np hp') }

theorem goto_plain {k : Pc} (hk : ∀ np, ¬ k.Child np) : Cpus (s.goto q k) :=
  h.goto fun np hp => absurd hp (hk np)

/-- A CPU that holds no lock across a `swtch` can go on in `wakeup`. -/
theorem setWake {w : Option (Chan × ℕ)} (ho : ∀ i, ¬ Owns s c i) :
    Cpus (s.setWake c w) :=
  { h with
    owns := fun c' i hi => by
      have hne : c' ≠ c := fun hc => ho i (hc ▸ hi)
      exact ⟨(h.owns c' i hi).1, (update_of_ne hne _ _).trans (h.owns c' i hi).2⟩ }

/-- No other CPU is on the stack of a process that is not RUNNING and whose lock this CPU holds. -/
theorem not_cur (hl : s.lock i = some c) (hr : (s.entry i).state ≠ .RUNNING) {c' : ℕ}
    (hne : c' ≠ c) : s.cur c' ≠ some i := by
  intro hc'
  have howns : ¬ Owns s c' i := by
    intro hi
    have := (h.owns c' i hi).1
    rw [hl, Option.some.injEq] at this
    exact hne this.symm
  cases hloc : s.loc c' with
  | scan j =>
    simp [h.idle c' j (.inl hloc)] at hc'
  | check j =>
    simp [h.idle c' j (.inr hloc)] at hc'
  | back j =>
    have hj := h.back c' j hloc
    rw [hc', Option.some.injEq] at hj
    exact howns (.inr (.inl (hj ▸ hloc)))
  | running =>
    refine hr ((h.run i).2 ⟨c', hc', hloc, fun hs => ?_⟩)
    exact howns (.inr (.inr ⟨hc', hloc, .inl hs⟩))

/-- In a section of another process, no CPU at all is. -/
theorem not_cur_section (on : s.On c q) (hl : s.lock i = some c)
    (hr : (s.entry i).state ≠ .RUNNING) (c' : ℕ) : s.cur c' ≠ some i := by
  rcases eq_or_ne c' c with rfl | hne
  · rw [on.cur]
    intro hq
    rw [Option.some.injEq] at hq
    exact hr (hq ▸ h.on_running on)
  · exact h.not_cur hl hr hne

/-- A thread can take up a child nobody else is about to make runnable. -/
theorem adopt (hu : (s.entry i).state = .USED) (hno : ∀ p, ¬ (s.pc p).Child i) :
    Cpus (s.goto q (.forkParent i)) := by
  have hnp : ∀ np, Pc.Child (.forkParent i) np → np = i := by
    rintro np (hk | hk)
    · exact (Pc.forkParent.inj hk).symm
    · exact absurd hk (by simp)
  have hpc : ∀ p np, ((s.goto q (.forkParent i)).pc p).Child np →
      (p = q ∧ np = i) ∨ (p ≠ q ∧ (s.pc p).Child np) := by
    intro p np hp
    rcases eq_or_ne p q with rfl | hne
    · exact .inl ⟨rfl, hnp np (by simpa [Sys.goto] using hp)⟩
    · exact .inr ⟨hne, by simpa [Sys.goto, update_of_ne hne] using hp⟩
  refine { h with child := fun p np hp => ?_, childOne := fun p p' np hp hp' => ?_ }
  · rcases hpc p np hp with ⟨-, rfl⟩ | ⟨-, hp⟩
    · exact hu
    · exact h.child p np hp
  · rcases hpc p np hp with ⟨h1, h2⟩ | ⟨-, h1⟩ <;> rcases hpc p' np hp' with ⟨h3, h4⟩ | ⟨-, h3⟩
    · exact h1.trans h3.symm
    · exact absurd (h2 ▸ h3) (hno p')
    · exact absurd (h4 ▸ h1) (hno p)
    · exact h.childOne p p' np h1 h3

end

/-! ### Changes of who runs where -/

/-- The scheduler of an idle CPU goes on to another entry, with its lock or without. -/
theorem moveIdle (h : Cpus s) {w : Where} (hc : s.cur c = none) (hr : s.loc c ≠ .running)
    (hw : (∃ i, w = .scan i) ∨ ∃ i, w = .check i ∧ s.lock i = some c ∧ s.wake c = none) :
    Cpus (s.move c w) := by
  have hw' : w ≠ .running ∧ ∀ i, w ≠ .back i := by
    rcases hw with ⟨i, rfl⟩ | ⟨i, rfl, -⟩ <;> simp
  have hloc : ∀ c', (s.move c w).loc c' = .running ↔ s.loc c' = .running := by
    intro c'
    rcases eq_or_ne c' c with rfl | hne
    · simp [Sys.move, hw'.1, hr]
    · simp [Sys.move, update_of_ne hne]
  refine { h with idle := ?_, back := ?_, owns := ?_, run := ?_, off := ?_ }
  · intro c' j hj
    rcases eq_or_ne c' c with rfl | hne
    · exact hc
    · exact h.idle c' j (by simpa [Sys.move, update_of_ne hne] using hj)
  · intro c' j hj
    rcases eq_or_ne c' c with rfl | hne
    · simp only [Sys.move, update_self] at hj
      exact absurd hj (hw'.2 j)
    · exact h.back c' j (by simpa [Sys.move, update_of_ne hne] using hj)
  · intro c' j hj
    rcases eq_or_ne c' c with rfl | hne
    · simp only [Owns, Sys.move, update_self] at hj
      rcases hj with hj | hj | ⟨-, hj, -⟩
      · rcases hw with ⟨i, rfl⟩ | ⟨i, rfl, hl, hwk⟩
        · exact absurd hj (by simp)
        · exact ⟨Where.check.inj hj ▸ hl, hwk⟩
      · exact absurd hj (hw'.2 j)
      · exact absurd hj hw'.1
    · refine h.owns c' j ?_
      simpa [Owns, Sys.move, update_of_ne hne] using hj
  · intro p
    simp only [hloc]
    exact h.run p
  · intro p hp
    simp only [hloc]
    exact h.off p hp

/-- `swtch` has come back from process `i`, and the scheduler goes on without it. -/
theorem moveBack (h : Cpus s) (hb : s.loc c = .back i) {j : Slot} :
    Cpus ((s.setCur c none).move c (.scan j)) := by
  have hloc : ∀ c' p, ((s.setCur c none).move c (.scan j)).cur c' = some p ∧
      ((s.setCur c none).move c (.scan j)).loc c' = .running ↔
      s.cur c' = some p ∧ s.loc c' = .running := by
    intro c' p
    rcases eq_or_ne c' c with rfl | hne
    · simp [Sys.move, Sys.setCur, hb]
    · simp [Sys.move, Sys.setCur, update_of_ne hne]
  refine { h with idle := ?_, back := ?_, owns := ?_, one := ?_, run := ?_, off := ?_ }
  · intro c' k hk
    rcases eq_or_ne c' c with rfl | hne
    · simp [Sys.move, Sys.setCur]
    · simpa [Sys.move, Sys.setCur, update_of_ne hne] using
        h.idle c' k (by simpa [Sys.move, Sys.setCur, update_of_ne hne] using hk)
  · intro c' k hk
    rcases eq_or_ne c' c with rfl | hne
    · simp [Sys.move] at hk
    · simpa [Sys.move, Sys.setCur, update_of_ne hne] using
        h.back c' k (by simpa [Sys.move, Sys.setCur, update_of_ne hne] using hk)
  · intro c' k hk
    rcases eq_or_ne c' c with rfl | hne
    · simp [Owns, Sys.move] at hk
    · exact h.owns c' k (by simpa [Owns, Sys.move, Sys.setCur, update_of_ne hne] using hk)
  · intro c1 c2 p h1 h2
    rcases eq_or_ne c1 c with rfl | hn1
    · simp [Sys.move, Sys.setCur] at h1
    rcases eq_or_ne c2 c with rfl | hn2
    · simp [Sys.move, Sys.setCur] at h2
    · exact h.one c1 c2 p (by simpa [Sys.move, Sys.setCur, update_of_ne hn1] using h1)
        (by simpa [Sys.move, Sys.setCur, update_of_ne hn2] using h2)
  · intro p
    have hp := h.run p
    simp only [← and_assoc] at hp
    simp only [← and_assoc, hloc]
    exact hp
  · intro p hp
    simp only [hloc]
    exact h.off p hp

/-- The scheduler switches to the process whose lock it holds. -/
theorem moveRun (h : Cpus s) (hc : s.loc c = .check i) (hr : (s.entry i).state = .RUNNABLE) :
    Cpus (((s.put i { s.entry i with state := .RUNNING }).setCur c (some i)).move c .running) := by
  obtain ⟨hl, hw⟩ := h.owns c i (.inl hc)
  have hnr : (s.entry i).state ≠ .RUNNING := by rw [hr]; simp
  have hoff : s.sw i = .away := by
    by_contra hs
    obtain ⟨c', hc', hr'⟩ := h.off i hs
    have hne : c' ≠ c := by rintro rfl; simp [hc] at hr'
    exact h.not_cur hl hnr hne hc'
  set t := ((s.put i { s.entry i with state := .RUNNING }).setCur c (some i)).move c .running with ht
  have hself : t.cur c = some i ∧ t.loc c = .running := by simp [ht, Sys.move, Sys.setCur]
  have hother : ∀ c', c' ≠ c → t.cur c' = s.cur c' ∧ t.loc c' = s.loc c' := by
    intro c' hne
    simp [ht, Sys.move, Sys.setCur, Sys.put, update_of_ne hne]
  constructor
  case idle =>
    intro c' k hk
    rcases eq_or_ne c' c with rfl | hne
    · simp [hself.2] at hk
    · rw [(hother c' hne).2] at hk
      exact (hother c' hne).1.trans (h.idle c' k hk)
  case back =>
    intro c' k hk
    rcases eq_or_ne c' c with rfl | hne
    · simp [hself.2] at hk
    · rw [(hother c' hne).2] at hk
      exact (hother c' hne).1.trans (h.back c' k hk)
  case owns =>
    intro c' k hk
    rcases eq_or_ne c' c with rfl | hne
    · simp only [Owns, hself] at hk
      rcases hk with hk | hk | ⟨hk, -, -⟩
      · exact absurd hk (by simp)
      · exact absurd hk (by simp)
      · exact ⟨Option.some.inj hk ▸ hl, hw⟩
    · simp only [Owns, hother c' hne] at hk
      exact h.owns c' k hk
  case one =>
    intro c1 c2 p h1 h2
    by_cases hn1 : c1 = c <;> by_cases hn2 : c2 = c
    · exact hn1.trans hn2.symm
    · rw [hn1, hself.1, Option.some.injEq] at h1
      rw [(hother c2 hn2).1] at h2
      exact absurd (h1 ▸ h2) (h.not_cur hl hnr hn2)
    · rw [hn2, hself.1, Option.some.injEq] at h2
      rw [(hother c1 hn1).1] at h1
      exact absurd (h2 ▸ h1) (h.not_cur hl hnr hn1)
    · rw [(hother c1 hn1).1] at h1
      rw [(hother c2 hn2).1] at h2
      exact h.one c1 c2 p h1 h2
  case run =>
    intro p
    rcases eq_or_ne p i with rfl | hne
    · have : (t.entry p).state = .RUNNING := by simp [ht, Sys.move, Sys.setCur, Sys.put]
      refine ⟨fun _ => ⟨c, hself.1, hself.2, ?_⟩, fun _ => this⟩
      show s.sw p ≠ .leaving
      rw [hoff]
      simp
    · have hp : t.entry p = s.entry p := by
        simp [ht, Sys.move, Sys.setCur, Sys.put, update_of_ne hne]
      rw [hp, h.run p]
      -- neither before nor after is `c` on the stack of another process
      refine exists_congr fun c' => ?_
      rcases eq_or_ne c' c with rfl | hnc
      · simp [hself, hc, Ne.symm hne]
      · simp only [hother c' hnc]
        rfl
  case off =>
    intro p hp
    obtain ⟨c', hc', hr'⟩ := h.off p hp
    have hne : c' ≠ c := by rintro rfl; simp [hc] at hr'
    exact ⟨c', (hother c' hne).1.trans hc', (hother c' hne).2.trans hr'⟩
  case child =>
    intro p np hp
    have hu := h.child p np hp
    have hne : np ≠ i := by rintro rfl; simp [hr] at hu
    simpa [ht, Sys.move, Sys.setCur, Sys.put, update_of_ne hne] using hu
  case childOne => exact h.childOne

/-- A thread that holds its own lock gives up the CPU. -/
theorem leave (h : Cpus s) (hc : s.cur c = some q) (hr : s.loc c = .running) (hw : s.wake c = none)
    (hl : s.lock q = some c) (hq : (s.entry q).state = .RUNNING) {x : Entry}
    (hx : x.state ≠ .RUNNING) : Cpus ((s.put q x).turn q .leaving) := by
  refine { h with owns := ?_, run := ?_, off := ?_, child := ?_ }
  · intro c' j hj
    rcases eq_or_ne j q with rfl | hne
    · rcases hj with hj | hj | ⟨hj, -, -⟩
      · exact h.owns c' j (.inl hj)
      · exact h.owns c' j (.inr (.inl hj))
      · obtain rfl := h.one c' c j hj hc
        exact ⟨hl, hw⟩
    · exact h.owns c' j (by simpa [Owns, Sys.turn, Sys.put, update_of_ne hne] using hj)
  · intro p
    rcases eq_or_ne p q with rfl | hne
    · simp [Sys.turn, Sys.put, hx]
    · simpa [Sys.turn, Sys.put, update_of_ne hne] using h.run p
  · intro p hp
    rcases eq_or_ne p q with rfl | hne
    · exact ⟨c, hc, hr⟩
    · exact h.off p (by simpa [Sys.turn, Sys.put, update_of_ne hne] using hp)
  · intro p np hp
    have hu := h.child p np hp
    have hne : np ≠ q := by rintro rfl; simp [hq] at hu
    simpa [Sys.turn, Sys.put, update_of_ne hne] using hu

/-- A thread on a CPU goes on, with its own lock or without. -/
theorem turn (h : Cpus s) (hc : s.cur c = some q) (hr : s.loc c = .running) (hs : s.sw q ≠ .leaving)
    {x : Switch} (hx : x = .going ∨ x = .yielding) : Cpus (s.turn q x) := by
  refine { h with owns := ?_, run := ?_, off := ?_ }
  · intro c' j hj
    rcases eq_or_ne j q with rfl | hne
    · refine h.owns c' j ?_
      rcases hx with rfl | rfl
      all_goals
        simp only [Owns, Sys.turn, update_self, reduceCtorEq, or_self, and_false,
          or_false] at hj
        exact hj.elim .inl fun hj => .inr (.inl hj)
    · exact h.owns c' j (by simpa [Owns, Sys.turn, update_of_ne hne] using hj)
  · intro p
    rcases eq_or_ne p q with rfl | hne
    · have hx' : x ≠ .leaving := by rcases hx with rfl | rfl <;> simp
      simpa [Sys.turn, hx', hs] using h.run p
    · simpa [Sys.turn, update_of_ne hne] using h.run p
  · intro p hp
    rcases eq_or_ne p q with rfl | hne
    · exact ⟨c, hc, hr⟩
    · exact h.off p (by simpa [Sys.turn, update_of_ne hne] using hp)

/-- `swtch` to the scheduler. -/
theorem swtch (h : Cpus s) (hc : s.cur c = some q) (hr : s.loc c = .running)
    (hs : s.sw q = .leaving) : Cpus ((s.turn q .away).move c (.back q)) := by
  obtain ⟨hl, hw⟩ := h.owns c q (.inr (.inr ⟨hc, hr, .inl hs⟩))
  have hself : ∀ c', s.cur c' = some q → c' = c := fun c' hc' => h.one c' c q hc' hc
  refine { h with idle := ?_, back := ?_, owns := ?_, run := ?_, off := ?_ }
  · intro c' j hj
    rcases eq_or_ne c' c with rfl | hne
    · simp [Sys.move] at hj
    · exact h.idle c' j (by simpa [Sys.move, Sys.turn, update_of_ne hne] using hj)
  · intro c' j hj
    rcases eq_or_ne c' c with rfl | hne
    · have : q = j := by simpa [Sys.move, Sys.turn] using hj
      exact this ▸ hc
    · exact h.back c' j (by simpa [Sys.move, Sys.turn, update_of_ne hne] using hj)
  · intro c' j hj
    rcases eq_or_ne c' c with rfl | hne
    · have : q = j := by simpa [Owns, Sys.move, Sys.turn] using hj
      exact this ▸ ⟨hl, hw⟩
    · refine h.owns c' j ?_
      rcases eq_or_ne j q with rfl | hnj
      · simp only [Owns, Sys.move, Sys.turn, update_of_ne hne] at hj
        rcases hj with hj | hj | ⟨hj, -, -⟩
        · exact .inl hj
        · exact .inr (.inl hj)
        · exact absurd (hself c' hj) hne
      · simpa [Owns, Sys.move, Sys.turn, update_of_ne hne, update_of_ne hnj] using hj
  · intro p
    refine (h.run p).trans (exists_congr fun c' => ?_)
    rcases eq_or_ne p q with rfl | hnp
    · constructor
      · rintro ⟨-, -, hns⟩
        exact absurd hs hns
      · rintro ⟨hc', hr', -⟩
        obtain rfl := hself c' hc'
        simp [Sys.move] at hr'
    · rcases eq_or_ne c' c with rfl | hne
      · simp [Sys.move, Sys.turn, hc, Ne.symm hnp]
      · simp [Sys.move, Sys.turn, update_of_ne hne, update_of_ne hnp]
  · intro p hp
    rcases eq_or_ne p q with rfl | hnp
    · simp [Sys.turn, Sys.move] at hp
    · obtain ⟨c', hc', hr'⟩ := h.off p (by simpa [Sys.move, Sys.turn, update_of_ne hnp] using hp)
      have hne : c' ≠ c := by
        rintro rfl
        rw [hc, Option.some.injEq] at hc'
        exact hnp hc'.symm
      exact ⟨c', hc', by simpa [Sys.move, Sys.turn, update_of_ne hne] using hr'⟩

end Cpus

/-! ### Steps and runs -/

/-- Resuming a thread leaves the state of its process. -/
theorem Resume.state {k k' : Pc} {x y : Entry} (h : Resume k x y k') : y.state = x.state := by
  cases h <;> rfl

theorem Resume.child {k k' : Pc} {x y : Entry} (h : Resume k x y k') {np : Slot}
    (hk : k'.Child np) : k.Child np := by
  cases h with
  | slept => simp [Pc.Child] at hk
  | sleptWait => simp [Pc.Child] at hk
  | yield => exact hk

theorem Leave.state {k k' : Pc} {x y : Entry} {d : Bool} (h : Leave q k x e d y k') :
    y.state ≠ .RUNNING := by
  cases h <;> simp

theorem Leave.child {k k' : Pc} {x y : Entry} {d : Bool} (h : Leave q k x e d y k') (np : Slot) :
    ¬ k'.Child np := by
  cases h <;> simp [Pc.Child]

theorem Move.child {k k' : Pc} (h : Move s q k e k') (np : Slot) : ¬ k'.Child np := by
  cases h <;> simp [Pc.Child]

theorem Take.child {k k' : Pc} (h : Take k k') (np : Slot) : ¬ k'.Child np := by
  cases h <;> simp [Pc.Child]

theorem Body.child {k k' : Pc} {x y : Entry} (h : Body q k i x e y k') (np : Slot) :
    ¬ k'.Child np := by
  cases h <;> simp [Pc.Child]

/-- A section either leaves the state, or wakes a sleeper, or makes the child of its `fork` runnable. -/
theorem Body.state {k k' : Pc} {x y : Entry} (h : Body q k i x e y k') :
    y.state = x.state ∨ (x.state = .SLEEPING ∧ y.state = .RUNNABLE) ∨
      (k = .forkRun i ∧ y.state = .RUNNABLE) := by
  cases h with
  | forkRun => exact .inr (.inr ⟨rfl, rfl⟩)
  | killHit pid _ _ h =>
    by_cases hs : x.state = .SLEEPING
    · exact .inr (.inl ⟨hs, by simp [Entry.kill, hs]⟩)
    · exact .inl (by simp [Entry.kill, hs])
  | _ => exact .inl rfl

theorem Entry.wakeup_state (ch : Chan) (x : Entry) :
    (x.wakeup ch).state = x.state ∨ (x.state = .SLEEPING ∧ (x.wakeup ch).state = .RUNNABLE) := by
  unfold Entry.wakeup
  split_ifs with h
  · exact .inr ⟨h.1, rfl⟩
  · exact .inl rfl

namespace Cpus

theorem put_woken (h : Cpus s) {x : Entry} (hx : x.state = (s.entry i).state ∨
    ((s.entry i).state = .SLEEPING ∧ x.state = .RUNNABLE)) : Cpus (s.put i x) := by
  rcases hx with hx | ⟨hx, hx'⟩
  · refine h.put (by rw [hx]) fun p hp => ?_
    rw [hx]
    exact h.child p i hp
  · refine h.put (by simp [hx, hx']) fun p hp => ?_
    have := h.child p i hp
    simp [hx] at this

theorem body (h : Cpus s) (on : s.On c q) (hl : s.lock i = some c) {x : Entry} {k : Pc}
    (hb : Body q (s.pc q) i (s.entry i) e x k) : Cpus (((s.put i x).release i).goto q k) := by
  have hg : Cpus (s.goto q k) := h.goto_plain hb.child
  have hput : Cpus ((s.goto q k).put i x) := by
    rcases hb.state with hx | hx | ⟨hp, hx⟩
    · exact hg.put_woken (.inl hx)
    · exact hg.put_woken (.inr hx)
    · -- the child of this `fork`, of which no other thread knows
      have hu : (s.entry i).state = .USED := h.child q i (.inr hp)
      refine hg.put (by simp [Sys.goto, hu, hx]) fun p hpi => ?_
      rcases eq_or_ne p q with rfl | hne
      · exact absurd (by simpa [Sys.goto] using hpi) (hb.child i)
      · have hpi' : (s.pc p).Child i := by simpa [Sys.goto, update_of_ne hne] using hpi
        exact absurd (h.childOne p q i hpi' (.inr hp)) hne
  exact hput.release hl (on.not_owns i)

/-- `allocproc` has found entry `i`, and the memory suffices. -/
theorem allocOk (h : Cpus s) (on : s.On c q) (hl : s.lock i = some c)
    (hu : (s.entry i).state = .UNUSED) (n : BitVec 32) :
    Cpus (((((s.put i ((s.entry i).alloc n)).release i).goto i .user).turn i .away).goto q
      (.forkParent i)) := by
  have hno : ∀ p, ¬ (s.pc p).Child i := fun p hp => by
    have := h.child p i hp
    simp [hu] at this
  have hput : Cpus (s.put i ((s.entry i).alloc n)) :=
    h.put (by simp [Entry.alloc, hu]) fun p hp => absurd hp (hno p)
  have hrel : Cpus ((s.put i ((s.entry i).alloc n)).release i) := hput.release hl (on.not_owns i)
  have hgo : Cpus (((s.put i ((s.entry i).alloc n)).release i).goto i .user) :=
    hrel.goto_plain fun np hp => by simp [Pc.Child] at hp
  -- the thread of an unused entry is away already
  have hsw : s.sw i = .away := by
    by_contra hs
    obtain ⟨c', hc', -⟩ := h.off i hs
    exact h.not_cur_section on hl (by rw [hu]; simp) c' hc'
  have hturn : (((s.put i ((s.entry i).alloc n)).release i).goto i .user).turn i .away =
      ((s.put i ((s.entry i).alloc n)).release i).goto i .user := by
    unfold Sys.turn
    rw [show Switch.away = (((s.put i ((s.entry i).alloc n)).release i).goto i .user).sw i from hsw.symm,
      update_eq_self]
  rw [hturn]
  refine hgo.adopt (by simp [Sys.goto, Sys.release, Sys.put, Entry.alloc]) fun p hp => ?_
  rcases eq_or_ne p i with rfl | hne
  · simp [Sys.goto, Pc.Child] at hp
  · exact hno p (by simpa [Sys.goto, Sys.release, Sys.put, update_of_ne hne] using hp)

/-- An entry that is not RUNNING and not USED is freed. -/
theorem free (h : Cpus s) (hr : (s.entry i).state ≠ .RUNNING) (hu : (s.entry i).state ≠ .USED) :
    Cpus (s.put i (s.entry i).free) := by
  refine h.put (by simp [Entry.free, hr]) fun p hp => ?_
  exact absurd (h.child p i hp) hu

end Cpus

/-- **One step** keeps who runs where. -/
theorem Step.cpus (h : Cpus s) (hs : Step s e t) : Cpus t := by
  cases hs with
  | schedLock c i hc hw hl =>
    refine (h.acquire hl).moveIdle (h.idle c i (.inl hc)) (by simp [Sys.acquire, hc])
      (.inr ⟨i, rfl, ?_, hw⟩)
    simp [Sys.acquire]
  | schedRun c i hc hr => exact h.moveRun hc hr
  | schedSkip c i hc hr =>
    have hm : Cpus (s.move c (.scan (i + 1))) :=
      h.moveIdle (h.idle c i (.inr hc)) (by simp [hc]) (.inl ⟨_, rfl⟩)
    exact hm.release (h.owns c i (.inl hc)).1 (by simp [Owns, Sys.move])
  | schedBack c i hc =>
    exact (h.moveBack hc).release (h.owns c i (.inr (.inl hc))).1 (by simp [Owns, Sys.move])
  | move c q ev k on hm => exact h.goto_plain hm.child
  | acquire c q i on hw hl => exact h.acquire hl
  | body c q i ev x k on hl hb => exact h.body on hl hb
  | allocFail c q i on hl hp hu =>
    have hf := h.free (i := i) (by rw [hu]; simp) (by rw [hu]; simp)
    have := ((hf.setParent i none).release hl (on.not_owns i)).goto_plain (q := q) (k := .user)
      fun np hp => by simp [Pc.Child] at hp
    exact { this with }
  | allocOk c q i on hl hp hu => exact { h.allocOk on hl hu s.nextpid with }
  | forkParent c q np on hp hl =>
    refine (h.setParent np (some q)).goto fun np' hk => ?_
    rcases hk with hk | hk
    · exact absurd hk (by simp)
    · exact .inl (by rwa [← Pc.forkRun.inj hk])
  | take c q k on ht hl => exact (h.setWait _).goto_plain ht.child
  | reparentGive c q i st on hp hi =>
    exact ((h.setParent i _).setWake fun j => on.not_owns j).goto_plain
      fun np hp => by simp [Pc.Child] at hp
  | reparentEnd c q st on hp =>
    exact (h.setWake fun j => on.not_owns j).goto_plain fun np hp => by simp [Pc.Child] at hp
  | waitNone c q on hp => exact (h.setWait _).goto_plain fun np hp => by simp [Pc.Child] at hp
  | waitFail c q i on hl hf =>
    exact ((h.release hl (on.not_owns i)).setWait _).goto_plain fun np hp => by simp [Pc.Child] at hp
  | collect c q i on hl hp hz =>
    have hf := h.free (i := i) (by rw [hz]; simp) (by rw [hz]; simp)
    exact (((hf.setParent i none).release hl (on.not_owns i)).setWait _).goto_plain
      fun np hp => by simp [Pc.Child] at hp
  | leave c q ev d x k on hl hlv =>
    have hg : Cpus ((s.setWait (if d then none else s.waitLock)).goto q k) :=
      (h.setWait _).goto_plain hlv.child
    exact hg.leave on.cur on.running on.wake hl (h.on_running on) hlv.state
  | yieldCall c q on hu => exact h.turn on.cur on.running (by rw [on.going]; simp) (.inr rfl)
  | yield c q hc hr hw hs hl =>
    have hq : (s.entry q).state = .RUNNING := (h.run q).2 ⟨c, hc, hr, by rw [hs]; simp⟩
    exact (h.acquire hl).leave hc hr hw (by simp [Sys.acquire]) hq (by simp)
  | swtch c q hc hr hs => exact h.swtch hc hr hs
  | resume c q x k hc hr hs hre =>
    obtain ⟨hl, hw⟩ := h.owns c q (.inr (.inr ⟨hc, hr, .inr hs⟩))
    have ht : Cpus (s.turn q .going) := h.turn hc hr (by rw [hs]; simp) (.inl rfl)
    have on : (s.turn q .going).On c q := ⟨hc, hr, hw, by simp [Sys.turn]⟩
    have hp : Cpus ((s.turn q .going).put q x) := ht.put_woken (.inl hre.state)
    exact (hp.release hl (on.not_owns q)).goto fun np hk => hre.child hk
  | wakeCall c a hw hc hu =>
    refine h.setWake fun j => ?_
    rcases hc with ⟨q, on⟩ | ⟨i, hi⟩
    · exact on.not_owns j
    · simp [Owns, hi]
  | wakeSkip c ch i hw hc => exact h.setWake (h.not_owns_of_wake hw)
  | wakeLock c ch i hw hc hl => exact h.acquire hl
  | wakeBody c ch i hw hc hl =>
    have hp := h.put_woken (i := i) (Entry.wakeup_state ch (s.entry i))
    exact (hp.release hl (h.not_owns_of_wake hw i)).setWake (h.not_owns_of_wake hw)
  | wakeEnd c ch hw => exact h.setWake (h.not_owns_of_wake hw)

/-- Every state of every run satisfies the invariant. -/
theorem Run.cpus {es : List Ev} (h : Run es s) : Cpus s := by
  induction h with
  | boot => exact cpus_booted
  | step _ hs ih => exact hs.cpus ih

/-- A step that delivers a status is the section of `wait` that has found a zombie. -/
theorem Step.collected {p z : Slot} {pid st : BitVec 32} (hs : Step s (.collected p z pid st) t) :
    ∃ c, s.On c p ∧ s.lock z = some c ∧ s.pc p = .waitCheck z ∧ (s.entry z).state = .ZOMBIE ∧
      pid = (s.entry z).pid ∧ st = (s.entry z).xstate := by
  have hmove : ∀ q k k', ¬ Move s q k (.collected p z pid st) k' := fun q k k' h => by cases h
  have hbody : ∀ q i k k' x y, ¬ Body q k i x (.collected p z pid st) y k' :=
    fun q i k k' x y h => by cases h
  have hleave : ∀ q k k' x y d, ¬ Leave q k x (.collected p z pid st) d y k' :=
    fun q k k' x y d h => by cases h
  cases hs with
  | move c q ev k on hm => exact absurd hm (hmove _ _ _)
  | body c q i ev x k on hl hb => exact absurd hb (hbody _ _ _ _ _ _)
  | collect c q i on hl hp hz => exact ⟨c, on, hl, hp, hz, rfl, rfl⟩
  | leave c q ev d x k on hl hlv => exact absurd hlv (hleave _ _ _ _ _ _)

/-- **One CPU per process**, in every state of every run of any number of CPUs: no process is current
on two CPUs; while `p->lock` is free, `p` is RUNNING exactly when it is current on exactly one CPU; and
when `wait` frees an entry, no CPU is on the kernel stack of the process that has exited. -/
theorem run_one_cpu {es : List Ev} (h : Run es s) :
    (∀ c c' p, s.cur c = some p → s.cur c' = some p → c = c') ∧
    (∀ p, s.lock p = none → ((s.entry p).state = .RUNNING ↔ ∃! c, s.cur c = some p)) ∧
    (∀ t q z pid st, Step s (.collected q z pid st) t → ∀ c, s.cur c ≠ some z) := by
  have hc := h.cpus
  refine ⟨hc.one, fun p hl => ⟨fun hr => ?_, ?_⟩, ?_⟩
  · obtain ⟨c, hp, -, -⟩ := (hc.run p).1 hr
    exact ⟨c, hp, fun c' hp' => hc.one c' c p hp' hp⟩
  · rintro ⟨c, hp, -⟩
    by_contra hr
    have hno : ¬ Owns s c p := fun ho => by
      simp [(hc.owns c p ho).1] at hl
    cases hloc : s.loc c with
    | scan j => exact absurd (hp.symm.trans (hc.idle c j (.inl hloc))) (by simp)
    | check j => exact absurd (hp.symm.trans (hc.idle c j (.inr hloc))) (by simp)
    | back j =>
      have hj := hc.back c j hloc
      rw [hp, Option.some.injEq] at hj
      exact hno (.inr (.inl (hj ▸ hloc)))
    | running =>
      exact hr ((hc.run p).2 ⟨c, hp, hloc, fun hs => hno (.inr (.inr ⟨hp, hloc, .inl hs⟩))⟩)
  · intro t q z pid st hs
    obtain ⟨c, on, hl, -, hz, -⟩ := hs.collected
    exact hc.not_cur_section on hl (by rw [hz]; simp)

/-- The first process is scheduled on CPU 0. -/
theorem run_one_cpu_init : ∃ es s, Run es s ∧ s.lock initproc = none ∧
    (s.entry initproc).state = .RUNNING ∧ ∃! c, s.cur c = some initproc := by
  have h := ((Run.boot.step (.schedLock _ 0 initproc rfl rfl rfl)).step
    (.schedRun _ 0 initproc rfl rfl)).step (.resume _ 0 initproc _ _ rfl rfl rfl
      (.yield _ _ (fun w => by simp [Sys.put, Sys.acquire, Sys.setCur, Sys.move, booted])
        (by simp [Sys.put, Sys.acquire, Sys.setCur, Sys.move, booted])))
  exact ⟨_, _, h, rfl, rfl, ((run_one_cpu h).2.1 initproc rfl).1 rfl⟩

/-- The second entry of the table. -/
def slot1 : Slot := ⟨1, by decide⟩

end Sched

end Xv6
