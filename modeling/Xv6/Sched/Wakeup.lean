import Xv6.Sched.Cpus

/-!
# No lost wakeup between `exit` and `wait`

`exit` calls `wakeup` on the parent before it becomes a zombie, and `sleep` gives up `wait_lock` before
the sleeper is off the CPU.  The invariant `Waits` says what the holder of `wait_lock` has already
seen or announced: the part of the table that `wait` has scanned holds no zombie child, and a process
that sleeps in `wait` next to a zombie child, or next to a child about to become one, is still ahead of
a `wakeup` that is under way.

* `Step.waits`, `Run.waits`: the invariant holds in every state of every run;
* `run_no_lost_wakeup`: while `wait_lock` is free, no process that sleeps in `wait` has a zombie child.
-/

namespace Xv6

open Function (update update_of_ne update_idem update_eq_self)

namespace Sched

/-- The positions inside the sections under `wait_lock`. -/
def Pc.holds : Pc → Bool
  | .reparent _ _ | .exitSelf _ | .waitScan _ _ | .waitCheck _ | .waitKilled | .waitSleep => true
  | .user | .alloc _ | .forkParent _ | .forkRun _ | .exit _ | .zombie | .wait | .sleep _ | .slept _
  | .kill _ _ | .setkilled => false

/-- How many entries the scan of `wait` has passed. -/
def Pc.scanned : Pc → ℕ
  | .waitScan i _ => i
  | .waitCheck i => i
  | .waitKilled | .waitSleep => NPROC
  | .user | .alloc _ | .forkParent _ | .forkRun _ | .exit _ | .zombie | .wait | .sleep _ | .slept _
  | .kill _ _ | .setkilled | .reparent _ _ | .exitSelf _ => 0

theorem Pc.scanned_of_not_holds {k : Pc} (h : k.holds = false) : k.scanned = 0 := by
  cases k <;> first | rfl | exact absurd h (by simp [Pc.holds])

/-- Process `p` sleeps in `wait`. -/
def Asleep (s : Sys) (p : Slot) : Prop :=
  (s.entry p).state = .SLEEPING ∧ (s.entry p).chan = .proc p

/-- A `wakeup(p)` is under way and has not come to `p` yet. -/
def Ringing (s : Sys) (p : Slot) : Prop := ∃ c j, s.wake c = some (.proc p, j) ∧ j ≤ p.val

/-- What the holder of `wait_lock` has seen and announced. -/
structure Waits (s : Sys) : Prop where
  hold : ∀ q, (s.pc q).holds = true ↔ s.waitLock = some q
  holder : ∀ q, s.waitLock = some q → s.sw q = .going
  /-- Only the holder wakes processes that sleep in `wait`. -/
  ring : ∀ c p j, s.wake c = some (.proc p, j) → ∃ q, s.cur c = some q ∧ s.waitLock = some q
  scanned : ∀ q z, z.val < (s.pc q).scanned → s.parent z = some q → (s.entry z).state ≠ .ZOMBIE
  exiting : ∀ q st p, s.pc q = .exitSelf st → s.parent q = some p → Asleep s p → Ringing s p
  lost : ∀ p z, Asleep s p → s.parent z = some p → (s.entry z).state = .ZOMBIE → Ringing s p

theorem waits_booted : Waits booted where
  hold q := by simp [booted, Pc.holds]
  holder q h := by simp [booted] at h
  ring c p j h := by simp [booted] at h
  scanned q z h := by simp [booted, Pc.scanned] at h
  exiting q st p h := by simp [booted] at h
  lost p z _ h := by simp [booted] at h

variable {s t : Sys} {c : ℕ} {q i : Slot} {e : Ev}

namespace Waits

/-- Only the holder of `wait_lock` has scanned anything. -/
theorem hold_of_scanned (h : Waits s) {n : ℕ} (hq : n < (s.pc q).scanned) : s.waitLock = some q := by
  refine (h.hold q).1 ?_
  by_contra hh
  rw [Pc.scanned_of_not_holds (by simpa using hh)] at hq
  omega

theorem hold_of_exitSelf (h : Waits s) {st : BitVec 32} (hq : s.pc q = .exitSelf st) :
    s.waitLock = some q := (h.hold q).1 (by rw [hq]; rfl)

/-- Nothing rings while the holder of `wait_lock` is outside `wakeup`. -/
theorem not_ringing (h : Waits s) (hc : Cpus s) (on : s.On c q) (hq : s.waitLock = some q) (p : Slot) :
    ¬ Ringing s p := by
  rintro ⟨c', j, hw, -⟩
  obtain ⟨q', hcur, hl⟩ := h.ring c' p j hw
  rw [hq, Option.some.injEq] at hl
  subst hl
  obtain rfl := hc.one c' c q hcur on.cur
  simp [on.wake] at hw

/-- Nothing rings while `wait_lock` is free. -/
theorem not_ringing_of_free (h : Waits s) (hl : s.waitLock = none) (p : Slot) : ¬ Ringing s p := by
  rintro ⟨c', j, hw, -⟩
  obtain ⟨q', -, hl'⟩ := h.ring c' p j hw
  simp [hl] at hl'

/-! ### Elementary changes -/

section

variable (h : Waits s)
include h

theorem acquire : Waits (s.acquire c i) := { h with }

theorem release : Waits (s.release i) := { h with }

theorem move {w : Where} : Waits (s.move c w) := { h with }

/-- `c->proc` changes outside `wakeup`. -/
theorem setCur {w : Option Slot} (hw : s.wake c = none) : Waits (s.setCur c w) :=
  { h with
    ring := fun c' p j hj => by
      have hne : c' ≠ c := by
        rintro rfl
        exact absurd (hw.symm.trans hj) (by simp)
      simpa [Sys.setCur, update_of_ne hne] using h.ring c' p j hj }

/-- An entry changes, and no process falls asleep in `wait` or becomes a zombie. -/
theorem put {x : Entry}
    (hs : x.state = .SLEEPING ∧ x.chan = .proc i → Asleep s i)
    (hz : x.state = .ZOMBIE → (s.entry i).state = .ZOMBIE) : Waits (s.put i x) := by
  have hA : ∀ p, Asleep (s.put i x) p → Asleep s p := by
    intro p hp
    rcases eq_or_ne p i with rfl | hne
    · exact hs (by simpa [Asleep, Sys.put] using hp)
    · simpa [Asleep, Sys.put, update_of_ne hne] using hp
  have hZ : ∀ z, ((s.put i x).entry z).state = .ZOMBIE → (s.entry z).state = .ZOMBIE := by
    intro z
    rcases eq_or_ne z i with rfl | hne
    · simpa [Sys.put] using hz
    · simp [Sys.put, update_of_ne hne]
  exact { h with
    scanned := fun p z hn hp hzz => h.scanned p z hn hp (hZ z hzz)
    exiting := fun p st r hp hr ha => h.exiting p st r hp hr (hA r ha)
    lost := fun p z ha hp hzz => h.lost p z (hA p ha) hp (hZ z hzz) }

/-- A thread goes on, in or out of the section as before. -/
theorem goto {k : Pc} (hh : k.holds = (s.pc q).holds)
    (hn : ∀ z : Slot, z.val < k.scanned → s.parent z = some q → (s.entry z).state ≠ .ZOMBIE)
    (hx : ∀ st p, k = .exitSelf st → s.parent q = some p → Asleep s p → Ringing s p) :
    Waits (s.goto q k) := by
  refine { h with hold := ?_, scanned := ?_, exiting := ?_ }
  · intro p
    rcases eq_or_ne p q with rfl | hne
    · simpa [Sys.goto, hh] using h.hold p
    · simpa [Sys.goto, update_of_ne hne] using h.hold p
  · intro p z hz hp
    rcases eq_or_ne p q with rfl | hne
    · exact hn z (by simpa [Sys.goto] using hz) hp
    · exact h.scanned p z (by simpa [Sys.goto, update_of_ne hne] using hz) hp
  · intro p st r hp hr ha
    rcases eq_or_ne p q with rfl | hne
    · exact hx st r (by simpa [Sys.goto] using hp) hr ha
    · exact h.exiting p st r (by simpa [Sys.goto, update_of_ne hne] using hp) hr ha

theorem goto_out {k : Pc} (hk : k.holds = false) (hq : s.waitLock ≠ some q) :
    Waits (s.goto q k) := by
  have hpc : (s.pc q).holds = false := by
    rw [Bool.eq_false_iff]
    exact fun hp => hq ((h.hold q).1 hp)
  refine h.goto (by rw [hk, hpc]) ?_ ?_
  · intro z hz
    rw [Pc.scanned_of_not_holds hk] at hz
    exact absurd hz (Nat.not_lt_zero _)
  · rintro st p rfl
    exact absurd hk (by simp [Pc.holds])

/-- A thread acquires `wait_lock`. -/
theorem take {k : Pc} (hl : s.waitLock = none) (hs : s.sw q = .going)
    (hk : Take (s.pc q) k) : Waits ((s.setWait (some q)).goto q k) := by
  have hfree : ∀ p, (s.pc p).holds = false := fun p => by
    rw [Bool.eq_false_iff]
    intro hp
    simp [(h.hold p).1 hp] at hl
  have hkk : k.holds = true ∧ k.scanned = 0 ∧ ∀ st, k ≠ .exitSelf st := by
    generalize s.pc q = k0 at hk
    cases hk <;> simp [Pc.holds, Pc.scanned]
  constructor
  case hold =>
    intro p
    rcases eq_or_ne p q with rfl | hne
    · simp [Sys.goto, Sys.setWait, hkk.1]
    · simp [Sys.goto, Sys.setWait, update_of_ne hne, hfree p, Ne.symm hne]
  case holder =>
    intro p hp
    obtain rfl : q = p := by simpa [Sys.goto, Sys.setWait] using hp
    exact hs
  case ring =>
    intro c' p j hw
    obtain ⟨q', -, hq'⟩ := h.ring c' p j hw
    simp [hl] at hq'
  case scanned =>
    intro p z hz hp
    rcases eq_or_ne p q with rfl | hne
    · simp [Sys.goto, hkk.2.1] at hz
    · exact h.scanned p z (by simpa [Sys.goto, Sys.setWait, update_of_ne hne] using hz) hp
  case exiting =>
    intro p st r hp hr ha
    rcases eq_or_ne p q with rfl | hne
    · exact absurd (by simpa [Sys.goto] using hp) (hkk.2.2 st)
    · exact h.exiting p st r (by simpa [Sys.goto, Sys.setWait, update_of_ne hne] using hp) hr ha
  case lost => exact h.lost

/-- The holder of `wait_lock` gives it up, outside `wakeup`. -/
theorem drop (hc : Cpus s) (on : s.On c q) (hq : s.waitLock = some q) {k : Pc}
    (hk : k.holds = false) : Waits ((s.setWait none).goto q k) := by
  have hno := h.not_ringing hc on hq
  have hother : ∀ p, p ≠ q → (s.pc p).holds = false := fun p hp => by
    rw [Bool.eq_false_iff]
    intro hh
    have := (h.hold p).1 hh
    rw [hq, Option.some.injEq] at this
    exact hp this.symm
  have hall : ∀ p, (((s.setWait none).goto q k).pc p).holds = false := by
    intro p
    rcases eq_or_ne p q with rfl | hne
    · simpa [Sys.goto] using hk
    · simpa [Sys.goto, Sys.setWait, update_of_ne hne] using hother p hne
  constructor
  case hold =>
    intro p
    rw [hall p]
    simp [Sys.goto, Sys.setWait]
  case holder =>
    intro p hp
    simp [Sys.goto, Sys.setWait] at hp
  case ring =>
    intro c' p j hw
    obtain ⟨q', hcur, hl⟩ := h.ring c' p j hw
    rw [hq, Option.some.injEq] at hl
    subst hl
    obtain rfl := hc.one c' c q hcur on.cur
    exact absurd (on.wake.symm.trans hw) (by simp)
  case scanned =>
    intro p z hz
    rw [Pc.scanned_of_not_holds (hall p)] at hz
    exact absurd hz (Nat.not_lt_zero _)
  case exiting =>
    intro p st r hp
    have := hall p
    simp [hp, Pc.holds] at this
  case lost => exact h.lost

/-- A thread that does not hold `wait_lock`, or goes on running, changes its standing. -/
theorem turn {x : Switch} (hx : s.waitLock = some q → x = .going) :
    Waits (s.turn q x) :=
  { h with
    holder := fun p hp => by
      rcases eq_or_ne p q with rfl | hne
      · simpa [Sys.turn] using hx hp
      · simpa [Sys.turn, update_of_ne hne] using h.holder p hp }

theorem orphan : Waits (s.setParent i none) := by
  have hP : ∀ z p, (s.setParent i none).parent z = some p → s.parent z = some p := by
    intro z p
    rcases eq_or_ne z i with rfl | hne
    · simp [Sys.setParent]
    · simp [Sys.setParent, update_of_ne hne]
  exact { h with
    scanned := fun p z hn hp => h.scanned p z hn (hP z p hp)
    exiting := fun p st r hp hr => h.exiting p st r hp (hP p r hr)
    lost := fun p z ha hp => h.lost p z ha (hP z p hp) }

/-- A process that is no zombie gets a parent, while `wait_lock` is free. -/
theorem adopt (hl : s.waitLock = none) (hz : (s.entry i).state ≠ .ZOMBIE)
    {w : Option Slot} : Waits (s.setParent i w) := by
  have hfree : ∀ q, s.waitLock ≠ some q := fun q => by rw [hl]; simp
  refine { h with scanned := ?_, exiting := ?_, lost := ?_ }
  · intro p z hn
    exact absurd (h.hold_of_scanned hn) (hfree p)
  · intro p st r hp
    exact absurd (h.hold_of_exitSelf hp) (hfree p)
  · intro p z ha hp hzz
    have hne : z ≠ i := by rintro rfl; exact hz hzz
    exact h.lost p z ha (by simpa [Sys.setParent, update_of_ne hne] using hp) hzz

/-- A process becomes a zombie while its parent does not sleep in `wait`. -/
theorem die (hl : s.waitLock = none) {x : Entry} (hx : x.state = .ZOMBIE)
    (hp : ∀ p, s.parent i = some p → ¬ Asleep s p) : Waits (s.put i x) := by
  have hfree : ∀ q, s.waitLock ≠ some q := fun q => by rw [hl]; simp
  refine { h with scanned := ?_, exiting := ?_, lost := ?_ }
  · intro p z hn
    exact absurd (h.hold_of_scanned hn) (hfree p)
  · intro p st r hr
    exact absurd (h.hold_of_exitSelf hr) (hfree p)
  · intro p z ha hpz hz
    have hne : p ≠ i := by
      rintro rfl
      have : x.state = .SLEEPING := by simpa [Sys.put] using ha.1
      simp [hx] at this
    have ha' : Asleep s p := by simpa [Asleep, Sys.put, update_of_ne hne] using ha
    rcases eq_or_ne z i with rfl | hnz
    · exact absurd ha' (hp p hpz)
    · exact h.lost p z ha' hpz (by simpa [Sys.put, update_of_ne hnz] using hz)

/-- A process without a zombie child goes to sleep in `wait`. -/
theorem doze (hl : s.waitLock = none) {x : Entry} (hx : x.state = .SLEEPING)
    (hz : ∀ z, s.parent z = some i → (s.entry z).state ≠ .ZOMBIE) : Waits (s.put i x) := by
  have hfree : ∀ q, s.waitLock ≠ some q := fun q => by rw [hl]; simp
  refine { h with scanned := ?_, exiting := ?_, lost := ?_ }
  · intro p z hn
    exact absurd (h.hold_of_scanned hn) (hfree p)
  · intro p st r hr
    exact absurd (h.hold_of_exitSelf hr) (hfree p)
  · intro p z ha hpz hzz
    have hnz : z ≠ i := by
      rintro rfl
      have : x.state = .ZOMBIE := by simpa [Sys.put] using hzz
      simp [hx] at this
    have hzz' : (s.entry z).state = .ZOMBIE := by
      simpa [Sys.put, update_of_ne hnz] using hzz
    rcases eq_or_ne p i with rfl | hne
    · exact absurd hzz' (hz z hpz)
    · exact h.lost p z (by simpa [Asleep, Sys.put, update_of_ne hne] using ha) hpz hzz'

/-- `wakeup` goes on past entry `i`, which does not sleep on the channel. -/
theorem wakeNext {ch : Chan} (hw : s.wake c = some (ch, i.val))
    (hi : ch = .proc i → ¬ Asleep s i) : Waits (s.setWake c (some (ch, i.val + 1))) := by
  have hR : ∀ p, Asleep s p → Ringing s p → Ringing (s.setWake c (some (ch, i.val + 1))) p := by
    rintro p ha ⟨c', j, hj, hle⟩
    rcases eq_or_ne c' c with rfl | hne
    · rw [hw, Option.some.injEq, Prod.mk.injEq] at hj
      obtain ⟨rfl, rfl⟩ := hj
      refine ⟨c', i.val + 1, by simp [Sys.setWake], ?_⟩
      -- the loop is at `p` only if `p` is not asleep
      refine lt_of_le_of_ne hle fun hip => ?_
      obtain rfl : i = p := Fin.ext hip
      exact hi rfl ha
    · exact ⟨c', j, by simpa [Sys.setWake, update_of_ne hne] using hj, hle⟩
  refine { h with ring := ?_, exiting := ?_, lost := ?_ }
  · intro c' p j hj
    rcases eq_or_ne c' c with rfl | hne
    · obtain ⟨rfl, -⟩ : ch = .proc p ∧ _ := by simpa [Sys.setWake] using hj
      exact h.ring c' p _ hw
    · exact h.ring c' p j (by simpa [Sys.setWake, update_of_ne hne] using hj)
  · intro p st r hp hr ha
    exact hR r ha (h.exiting p st r hp hr ha)
  · intro p z ha hp hz
    exact hR p ha (h.lost p z ha hp hz)

/-- A CPU starts or ends a `wakeup` that rings for nobody. -/
theorem setWake {w : Option (Chan × ℕ)}
    (hold : ∀ p j, s.wake c = some (.proc p, j) → NPROC ≤ j) (hnew : ∀ p j, w ≠ some (.proc p, j)) :
    Waits (s.setWake c w) := by
  have hR : ∀ p, Ringing s p → Ringing (s.setWake c w) p := by
    rintro p ⟨c', j, hj, hle⟩
    rcases eq_or_ne c' c with rfl | hne
    · have := hold p j hj
      have := p.isLt
      omega
    · exact ⟨c', j, by simpa [Sys.setWake, update_of_ne hne] using hj, hle⟩
  refine { h with ring := ?_, exiting := ?_, lost := ?_ }
  · intro c' p j hj
    rcases eq_or_ne c' c with rfl | hne
    · exact absurd (by simpa [Sys.setWake] using hj) (hnew p j)
    · exact h.ring c' p j (by simpa [Sys.setWake, update_of_ne hne] using hj)
  · exact fun p st r hp hr ha => hR r (h.exiting p st r hp hr ha)
  · exact fun p z ha hp hz => hR p (h.lost p z ha hp hz)

/-- `exit` calls `wakeup(p)` for a process `p`. -/
theorem ringFor (hc : Cpus s) (on : s.On c q) (hq : s.waitLock = some q) {ch : Chan} :
    Waits (s.setWake c (some (ch, 0))) := by
  have hno := h.not_ringing hc on hq
  refine { h with ring := ?_, exiting := ?_, lost := ?_ }
  · intro c' p j hj
    rcases eq_or_ne c' c with rfl | hne
    · exact ⟨q, on.cur, hq⟩
    · exact h.ring c' p j (by simpa [Sys.setWake, update_of_ne hne] using hj)
  · exact fun p st r hp hr ha => absurd (h.exiting p st r hp hr ha) (hno r)
  · exact fun p z ha hp hz => absurd (h.lost p z ha hp hz) (hno p)

/-- The holder of `wait_lock` has called `wakeup(p)` and hands the entry `i` to `p`. -/
theorem give {p : Slot} (hr : Ringing s p) (hq : s.waitLock = some q)
    (hn : (s.pc q).scanned = 0) (hx : ∀ st, s.pc q ≠ .exitSelf st) :
    Waits (s.setParent i (some p)) := by
  refine { h with scanned := ?_, exiting := ?_, lost := ?_ }
  · intro r z hz
    have := h.hold_of_scanned hz
    rw [hq, Option.some.injEq] at this
    subst this
    exact absurd hz (by simp [hn, Sys.setParent])
  · intro r st r' hr'
    have := h.hold_of_exitSelf hr'
    rw [hq, Option.some.injEq] at this
    subst this
    exact absurd hr' (hx st)
  · intro r z ha hrz hz
    rcases eq_or_ne z i with rfl | hne
    · obtain rfl : p = r := by simpa [Sys.setParent] using hrz
      exact hr
    · exact h.lost r z ha (by simpa [Sys.setParent, update_of_ne hne] using hrz) hz

end

end Waits

/-! ### Steps and runs -/

/-- A process whose CPU is in `wakeup` is RUNNING. -/
theorem Cpus.wake_running (h : Cpus s) {w : Chan × ℕ} (hw : s.wake c = some w)
    (hc : s.cur c = some i) : (s.entry i).state = .RUNNING := by
  have hno := h.not_owns_of_wake hw i
  cases hloc : s.loc c with
  | scan j => exact absurd (hc.symm.trans (h.idle c j (.inl hloc))) (by simp)
  | check j => exact absurd (hc.symm.trans (h.idle c j (.inr hloc))) (by simp)
  | back j =>
    have hj := h.back c j hloc
    rw [hc, Option.some.injEq] at hj
    exact absurd (.inr (.inl (hj ▸ hloc))) hno
  | running =>
    exact (h.run i).2 ⟨c, hc, hloc, fun hs => hno (.inr (.inr ⟨hc, hloc, .inl hs⟩))⟩

theorem Body.still {k k' : Pc} {x y : Entry} (h : Body q k i x e y k') :
    (y.state = .SLEEPING ∧ y.chan = .proc i → x.state = .SLEEPING ∧ x.chan = .proc i) ∧
      (y.state = .ZOMBIE → x.state = .ZOMBIE) := by
  cases h with
  | killHit pid _ _ hp => by_cases hs : x.state = .SLEEPING <;> simp [Entry.kill, hs]
  | forkRun => simp
  | _ => exact ⟨id, id⟩

/-- `wakeup` puts nobody to sleep and ends nobody. -/
theorem Entry.wakeup_still (ch ch' : Chan) (x : Entry) :
    ((x.wakeup ch).state = .SLEEPING ∧ (x.wakeup ch).chan = ch' → x.state = .SLEEPING ∧ x.chan = ch') ∧
      ((x.wakeup ch).state = .ZOMBIE → x.state = .ZOMBIE) := by
  unfold Entry.wakeup
  split_ifs with h <;> simp

/-- After `wakeup(chan)` nobody sleeps on the channel. -/
theorem Entry.wakeup_awake (ch : Chan) (x : Entry) :
    ¬ ((x.wakeup ch).state = .SLEEPING ∧ (x.wakeup ch).chan = ch) := by
  unfold Entry.wakeup
  split_ifs with h
  · simp
  · exact h

theorem Resume.still {k k' : Pc} {x y : Entry} {p : Slot} (h : Resume k x y k') :
    (y.state = .SLEEPING ∧ y.chan = .proc p → x.state = .SLEEPING ∧ x.chan = .proc p) ∧
      (y.state = .ZOMBIE → x.state = .ZOMBIE) := by
  cases h with
  | yield => exact ⟨id, id⟩
  | _ => simp

theorem Move.holds {k k' : Pc} (h : Move s q k e k') : k'.holds = k.holds := by
  cases h <;> rfl

theorem Move.ne_exitSelf {k k' : Pc} (h : Move s q k e k') (st : BitVec 32) : k' ≠ .exitSelf st := by
  cases h <;> simp

/-- What the scan of `wait` passes without a section is no child. -/
theorem Move.scanned {k k' : Pc} (h : Move s q k e k') {z : Slot} (hz : z.val < k'.scanned) :
    z.val < k.scanned ∨ s.parent z ≠ some q ∨ k = .waitScan NPROC true := by
  cases h with
  | waitSkip i kids hi =>
    rcases Nat.lt_succ_iff_lt_or_eq.1 hz with hlt | heq
    · exact .inl hlt
    · exact .inr (.inl (by rwa [Fin.ext heq]))
  | waitFound i kids hi => exact .inl hz
  | waitKids => exact .inr (.inr rfl)
  | _ => exact absurd hz (Nat.not_lt_zero _)

theorem Body.holds {k k' : Pc} {x y : Entry} (h : Body q k i x e y k') : k'.holds = k.holds := by
  cases h <;> rfl

theorem Body.ne_exitSelf {k k' : Pc} {x y : Entry} (h : Body q k i x e y k') (st : BitVec 32) :
    k' ≠ .exitSelf st := by
  cases h <;> simp

/-- What the scan of `wait` passes in a section is no zombie. -/
theorem Body.scanned {k k' : Pc} {x y : Entry} (h : Body q k i x e y k') {z : Slot}
    (hz : z.val < k'.scanned) : z.val < k.scanned ∨ (z = i ∧ x.state ≠ .ZOMBIE ∧ y = x) := by
  cases h with
  | waitNext _ _ hx =>
    rcases Nat.lt_succ_iff_lt_or_eq.1 hz with hlt | heq
    · exact .inl hlt
    · exact .inr ⟨Fin.ext heq, hx, rfl⟩
  | waitGo => exact .inl hz
  | _ => exact absurd hz (Nat.not_lt_zero _)

namespace Waits

theorem not_hold (h : Waits s) (hq : (s.pc q).holds = false) : s.waitLock ≠ some q := fun hl => by
  simp [(h.hold q).2 hl] at hq

/-- A process on no CPU does not hold `wait_lock`. -/
theorem not_hold_of_state (h : Waits s) (hc : Cpus s) (hi : (s.entry i).state ≠ .RUNNING) :
    s.waitLock ≠ some i := fun hl => by
  have hs := h.holder i hl
  obtain ⟨c, hcur, hloc⟩ := hc.off i (by rw [hs]; simp)
  exact hi ((hc.run i).2 ⟨c, hcur, hloc, by rw [hs]; simp⟩)

theorem move_step (h : Waits s) {k : Pc} (hm : Move s q (s.pc q) e k) : Waits (s.goto q k) := by
  refine h.goto hm.holds ?_ ?_
  · intro z hz hp
    rcases hm.scanned hz with hlt | hne | hk
    · exact h.scanned q z hlt hp
    · exact absurd hp hne
    · exact h.scanned q z (by rw [hk]; exact z.isLt) hp
  · intro st p hk
    exact absurd hk (hm.ne_exitSelf st)

theorem body (h : Waits s) {x : Entry} {k : Pc} (hb : Body q (s.pc q) i (s.entry i) e x k) :
    Waits (((s.put i x).release i).goto q k) := by
  have hput : Waits (s.put i x) := h.put hb.still.1 hb.still.2
  refine (hput.release (i := i)).goto hb.holds ?_ ?_
  · intro z hz hp
    rcases hb.scanned hz with hlt | ⟨rfl, hx, rfl⟩
    · exact hput.scanned q z hlt hp
    · simpa [Sys.release, Sys.put] using hx
  · intro st p hk
    exact absurd hk (hb.ne_exitSelf st)

/-- A process gives up the CPU: as a zombie, or to sleep in `wait` or elsewhere. -/
theorem leave (h : Waits s) (hc : Cpus s) (on : s.On c q) {d : Bool} {x : Entry} {k : Pc}
    (hlv : Leave q (s.pc q) (s.entry q) e d x k) :
    Waits ((((s.put q x).setWait (if d then none else s.waitLock)).goto q k).turn q .leaving) := by
  generalize hk : s.pc q = k0 at hlv
  generalize he : s.entry q = x0 at hlv
  cases hlv with
  | exit st _ =>
    have hq := h.hold_of_exitSelf hk
    have hd : Waits ((s.setWait none).goto q .zombie) := h.drop hc on hq rfl
    have ht : Waits (((s.setWait none).goto q .zombie).turn q .leaving) :=
      hd.turn fun hl => by simp [Sys.goto, Sys.setWait] at hl
    refine ht.die (i := q) rfl rfl fun p hp ha => ?_
    -- the parent was woken before, and cannot have gone back to sleep without `wait_lock`
    exact h.not_ringing hc on hq p (h.exiting q st p hk hp ha)
  | wait _ =>
    have hq : s.waitLock = some q := (h.hold q).1 (by rw [hk]; rfl)
    have hd : Waits ((s.setWait none).goto q (.slept true)) := h.drop hc on hq rfl
    have ht : Waits (((s.setWait none).goto q (.slept true)).turn q .leaving) :=
      hd.turn fun hl => by simp [Sys.goto, Sys.setWait] at hl
    exact ht.doze (i := q) rfl rfl fun z hz => h.scanned q z (by rw [hk]; exact z.isLt) hz
  | sleep a _ =>
    have hq : s.waitLock ≠ some q := h.not_hold (by rw [hk]; rfl)
    have hp : Waits (s.put q { x0 with chan := .other a, state := .SLEEPING }) := h.put (by simp) (by simp)
    have hg : Waits ((s.put q { x0 with chan := .other a, state := .SLEEPING }).goto q (.slept false)) :=
      hp.goto_out rfl hq
    exact hg.turn fun hl => absurd hl hq

end Waits

/-- **One step** keeps what the holder of `wait_lock` has seen and announced. -/
theorem Step.waits (h : Waits s) (hc : Cpus s) (hs : Step s e t) : Waits t := by
  cases hs with
  | schedLock c i hloc hw hl => exact h.acquire.move
  | schedRun c i hloc hr =>
    have hp : Waits (s.put i { s.entry i with state := .RUNNING }) := h.put (by simp) (by simp)
    exact (hp.setCur (hc.owns c i (.inl hloc)).2).move
  | schedSkip c i hloc hr => exact h.release.move
  | schedBack c i hloc => exact (h.setCur (hc.owns c i (.inr (.inl hloc))).2).release.move
  | move c q ev k on hm => exact h.move_step hm
  | acquire c q i on hw hl => exact h.acquire
  | body c q i ev x k on hl hb => exact h.body hb
  | allocFail c q i on hl hp hu =>
    have hf : Waits (s.put i (s.entry i).free) := h.put (by simp [Entry.free]) (by simp [Entry.free])
    have := ((hf.orphan (i := i)).release (i := i)).goto_out (q := q) (k := .user) rfl
      (h.not_hold (by rw [hp]; rfl))
    exact { this with }
  | allocOk c q i on hl hp hu =>
    have hi : s.waitLock ≠ some i := h.not_hold_of_state hc (by rw [hu]; simp)
    have hf : Waits (s.put i ((s.entry i).alloc s.nextpid)) :=
      h.put (by simp [Entry.alloc]) (by simp [Entry.alloc])
    have hg := ((hf.release (i := i)).goto_out (q := i) (k := .user) rfl hi).turn (x := .away)
      fun hl => absurd hl hi
    exact { hg.goto_out (q := q) (k := .forkParent i) rfl (h.not_hold (by rw [hp]; rfl)) with }
  | forkParent c q np on hp hl =>
    have hu := hc.child q np (.inl hp)
    exact (h.adopt hl (by rw [hu]; simp)).goto_out rfl (h.not_hold (by rw [hp]; rfl))
  | take c q k on ht hl => exact h.take hl on.going ht
  | reparentGive c q i st on hp hi =>
    have hq : s.waitLock = some q := (h.hold q).1 (by rw [hp]; rfl)
    have hw : Waits (s.setWake c (some (.proc initproc, 0))) := h.ringFor hc on hq
    have hg : Waits ((s.setWake c (some (.proc initproc, 0))).setParent i (some initproc)) :=
      hw.give ⟨c, 0, by simp [Sys.setWake], Nat.zero_le _⟩ hq
        (by show (s.pc q).scanned = 0; rw [hp]; rfl) fun st' => by
          show s.pc q ≠ _
          rw [hp]
          simp
    refine hg.goto (by show _ = (s.pc q).holds; rw [hp]; rfl) ?_ (fun _ _ hk => absurd hk (by simp))
    exact fun z hz => absurd hz (Nat.not_lt_zero _)
  | reparentEnd c q st on hp =>
    have hq : s.waitLock = some q := (h.hold q).1 (by rw [hp]; rfl)
    refine (h.ringFor hc on hq).goto (by show _ = (s.pc q).holds; rw [hp]; rfl)
      (fun z hz => absurd hz (Nat.not_lt_zero _)) fun st' p _ hpar _ => ?_
    have hpar' : s.parent q = some p := hpar
    exact ⟨c, 0, by simp [Sys.setWake, parentChan, hpar'], Nat.zero_le _⟩
  | waitNone c q on hp => exact h.drop hc on ((h.hold q).1 (by rw [hp]; rfl)) rfl
  | waitFail c q i on hl hf =>
    have hq : s.waitLock = some q := (h.hold q).1 (by
      generalize s.pc q = k at hf
      cases hf <;> rfl)
    exact { (h.drop hc on hq (k := .user) rfl).release (i := i) with }
  | collect c q i on hl hp hz =>
    have hq : s.waitLock = some q := (h.hold q).1 (by rw [hp]; rfl)
    have hd : Waits ((s.setWait none).goto q .user) := h.drop hc on hq rfl
    have hf : Waits (((s.setWait none).goto q .user).put i (s.entry i).free) :=
      hd.put (by simp [Entry.free]) (by simp [Entry.free])
    exact { (hf.orphan (i := i)).release (i := i) with }
  | leave c q ev d x k on hl hlv => exact h.leave hc on hlv
  | yieldCall c q on hu => exact h.turn fun hl => absurd hl (hu.2 q on.cur)
  | yield c q hcur hr hw hs hl =>
    have hq : s.waitLock ≠ some q := fun hl => by
      simp [h.holder q hl] at hs
    have hp : Waits ((s.acquire c q).put q { s.entry q with state := .RUNNABLE }) :=
      h.acquire.put (by simp) (by simp)
    exact hp.turn fun hl => absurd hl hq
  | swtch c q hcur hr hs =>
    refine (h.turn fun hl => ?_).move
    simp [h.holder q hl] at hs
  | resume c q x k hcur hr hs hre =>
    have hq : s.waitLock ≠ some q := fun hl => by
      simp [h.holder q hl] at hs
    have hp : Waits (s.put q x) := h.put hre.still.1 (hre.still (p := q)).2
    have hk : k.holds = false := by
      have hpc : (s.pc q).holds = false := by
        rw [Bool.eq_false_iff]
        exact fun hh => hq ((h.hold q).1 hh)
      generalize s.pc q = k0 at hre hpc
      cases hre with
      | yield => exact hpc
      | _ => rfl
    exact ((hp.release (i := q)).goto_out hk hq).turn fun _ => rfl
  | wakeCall c a hw hcur hu => exact h.setWake (by simp [hw]) (by simp)
  | wakeSkip c ch i hw hcur =>
    refine h.wakeNext hw fun _ ha => ?_
    rw [Asleep, hc.wake_running hw hcur] at ha
    exact absurd ha.1 (by simp)
  | wakeLock c ch i hw hcur hl => exact h.acquire
  | wakeBody c ch i hw hcur hl =>
    have hst := Entry.wakeup_still ch (.proc i) (s.entry i)
    have hp : Waits (s.put i ((s.entry i).wakeup ch)) := h.put hst.1 hst.2
    refine (hp.release (i := i)).wakeNext hw fun hch ha => ?_
    subst hch
    exact Entry.wakeup_awake (.proc i) (s.entry i) (by simpa [Asleep, Sys.release, Sys.put] using ha)
  | wakeEnd c ch hw =>
    refine h.setWake (fun p j hj => ?_) (by simp)
    rw [hw, Option.some.injEq, Prod.mk.injEq] at hj
    exact hj.2.le

/-- Every state of every run satisfies the invariant. -/
theorem Run.waits {es : List Ev} (h : Run es s) : Waits s := by
  induction h with
  | boot => exact waits_booted
  | step hr hs ih => exact hs.waits ih hr.cpus

/-! ### The life of one child

What an observer sees of a run in which the first process forks, sleeps in `wait` and is woken by the
`exit` of its child. -/

/-- A run reaches `s`, and `es` is what is seen of it. -/
def Seen (es : List Ev) (s : Sys) : Prop := ∃ l, Run l s ∧ l.filter (· ≠ .tau) = es

variable {es : List Ev}

theorem Seen.tau (h : Seen es s) (hs : Step s .tau t) : Seen es t := by
  obtain ⟨l, hr, hl⟩ := h
  exact ⟨_, hr.step hs, by simpa using hl⟩

theorem Seen.event (h : Seen es s) (hs : Step s e t) (he : e ≠ .tau) :
    Seen (es ++ [e]) t := by
  obtain ⟨l, hr, hl⟩ := h
  exact ⟨_, hr.step hs, by simp [List.filter_append, he, ← hl]⟩

/-- A loop over the table in which a thread passes over every entry from `m` on. -/
theorem Seen.scan {c : ℕ} {q : Slot} {m : ℕ} (f : ℕ → Pc) (h : Seen es (s.goto q (f m)))
    (on : s.On c q) (hm : m ≤ NPROC)
    (hf : ∀ k (i : Slot), m ≤ i.val → Move (s.goto q k) q (f i.val) .tau (f (i.val + 1))) :
    Seen es (s.goto q (f NPROC)) := by
  have hn : ∀ n, m ≤ n → n ≤ NPROC → Seen es (s.goto q (f n)) := by
    intro n hmn
    induction n, hmn using Nat.le_induction with
    | base => exact fun _ => h
    | succ n hmn ih =>
      intro hn
      have hs := Step.move (s.goto q (f n)) c q .tau _ ⟨on.cur, on.running, on.wake, on.going⟩
        (by simpa [Sys.goto] using hf (f n) ⟨n, hn⟩ hmn)
      simpa [Sys.goto] using (ih (by omega)).tau hs
  exact hn NPROC hm le_rfl

/-- The machine when `wakeup(ch)` on CPU `c` has come to entry `n`. -/
def Sys.woken (s : Sys) (c : ℕ) (ch : Chan) (n : ℕ) : Sys :=
  { s with
    entry := fun j => if j.val < n ∧ s.cur c ≠ some j then (s.entry j).wakeup ch else s.entry j
    wake := update s.wake c (some (ch, n)) }

/-- `wakeup` while no entry is locked. -/
theorem Seen.wakeup {c : ℕ} {ch : Chan} (h : Seen es s) (hw : s.wake c = some (ch, 0))
    (hl : ∀ j, s.lock j = none) : Seen es ((s.woken c ch NPROC).setWake c none) := by
  have hn : ∀ n ≤ NPROC, Seen es (s.woken c ch n) := by
    intro n
    induction n with
    | zero =>
      intro _
      simpa [Sys.woken, ← hw] using h
    | succ n ih =>
      intro hn
      have ih := ih (by omega)
      have hat : (s.woken c ch n).wake c = some (ch, (⟨n, hn⟩ : Slot).val) := by simp [Sys.woken]
      by_cases hc : s.cur c = some ⟨n, hn⟩
      · convert ih.tau (.wakeSkip _ c ch ⟨n, hn⟩ hat hc) using 1
        simp only [Sys.woken, Sys.setWake, update_idem, Sys.mk.injEq, and_true]
        funext j
        have : j.val = n → s.cur c = some j := fun hj => by rw [hc, Option.some.injEq]; ext; exact hj.symm
        grind
      · convert (ih.tau (.wakeLock _ c ch ⟨n, hn⟩ hat hc (hl _))).tau
          (.wakeBody _ c ch ⟨n, hn⟩ hat hc (by simp [Sys.acquire])) using 1
        simp only [Sys.woken, Sys.setWake, Sys.acquire, Sys.release, Sys.put, update_idem, Sys.mk.injEq,
          and_true, ← hl ⟨n, hn⟩, update_eq_self]
        funext j
        by_cases hj : j = ⟨n, hn⟩
        · subst hj
          simp [hc]
        · have : j.val ≠ n := fun he => hj (Fin.ext he)
          simp [update_of_ne hj, show j.val < n + 1 ↔ j.val < n by omega]
  exact (hn NPROC le_rfl).tau (.wakeEnd _ c ch (by simp [Sys.woken]))

/-- A thread that was away, outside any call, goes on. -/
theorem Resume.user (e : Entry) : Resume .user e e .user := .yield _ e nofun nofun

/-- The first process creates `slot1` and sleeps in `wait`; `slot1` calls `exit(7)`, which wakes it, and
becomes a zombie; `wait` goes on, delivers the status and returns the pid of `slot1`. -/
theorem seen_life : ∃ r s t, Seen [.born initproc slot1] r ∧
    (r.waitLock = none ∧ Asleep r initproc ∧ r.parent slot1 = some initproc) ∧
    Seen [.born initproc slot1, .exitCall slot1 7, .exited slot1] s ∧
    (s.waitLock = none ∧ s.pc initproc = .slept true ∧ s.parent slot1 = some initproc ∧
      (s.entry slot1).state = .ZOMBIE) ∧
    Seen [.born initproc slot1, .exitCall slot1 7, .exited slot1, .collected initproc slot1 2 7] t := by
  have hpar : ∀ i q : Slot, (i = slot1 → q ≠ initproc) →
      update (fun _ => none) slot1 (some initproc) i ≠ some q := by
    intro i q hi
    by_cases h : i = slot1
    · simp [h, (hi h).symm]
    · simp [h]
  have h : Seen [] booted := ⟨[], .boot, rfl⟩
  -- CPU 0 runs the first process, which calls `fork`
  have h := ((h.tau (.schedLock _ 0 initproc rfl rfl rfl)).tau (.schedRun _ 0 initproc rfl rfl)).tau
    (.resume _ 0 initproc _ _ rfl rfl rfl (.user _))
  have h := h.tau (.move _ 0 initproc _ _ ⟨rfl, rfl, rfl, rfl⟩ .fork)
  have h := (h.tau (.acquire _ 0 initproc initproc ⟨rfl, rfl, rfl, rfl⟩ (.alloc initproc) rfl)).tau
    (.body _ 0 initproc initproc _ _ _ ⟨rfl, rfl, rfl, rfl⟩ rfl (.allocNext initproc _ (by decide)))
  have h := h.tau (.acquire _ 0 initproc slot1 ⟨rfl, rfl, rfl, rfl⟩ (.alloc slot1) rfl)
  have h := h.event (.allocOk _ 0 initproc slot1 ⟨rfl, rfl, rfl, rfl⟩ rfl rfl rfl) nofun
  have h := (h.tau (.forkParent _ 0 initproc slot1 ⟨rfl, rfl, rfl, rfl⟩ rfl rfl)).tau
    (.acquire _ 0 initproc slot1 ⟨rfl, rfl, rfl, rfl⟩ (.forkRun slot1) rfl)
  have h := h.tau (.body _ 0 initproc slot1 _ _ _ ⟨rfl, rfl, rfl, rfl⟩ rfl (.forkRun slot1 _))
  -- it calls `wait`, which finds `slot1` alive
  have h := (h.tau (.move _ 0 initproc _ _ ⟨rfl, rfl, rfl, rfl⟩ .wait)).tau
    (.take _ 0 initproc _ ⟨rfl, rfl, rfl, rfl⟩ .wait rfl)
  have h := (h.tau (.move _ 0 initproc _ _ ⟨rfl, rfl, rfl, rfl⟩ (.waitSkip initproc _ nofun))).tau
    (.move _ 0 initproc _ _ ⟨rfl, rfl, rfl, rfl⟩ (.waitFound slot1 _ rfl))
  have h := (h.tau (.acquire _ 0 initproc slot1 ⟨rfl, rfl, rfl, rfl⟩ (.waitCheck slot1) rfl)).tau
    (.body _ 0 initproc slot1 _ _ _ ⟨rfl, rfl, rfl, rfl⟩ rfl (.waitNext slot1 _ nofun))
  have h := h.scan (fun i => .waitScan i true) (c := 0) ⟨rfl, rfl, rfl, rfl⟩ (by decide)
    fun k i hi => .waitSkip i true (hpar i _ fun h => by simp [h, slot1] at hi)
  have h := h.tau (.move _ 0 initproc _ _ ⟨rfl, rfl, rfl, rfl⟩ .waitKids)
  have h := (h.tau (.acquire _ 0 initproc initproc ⟨rfl, rfl, rfl, rfl⟩ .waitKilled rfl)).tau
    (.body _ 0 initproc initproc _ _ _ ⟨rfl, rfl, rfl, rfl⟩ rfl (.waitGo _ rfl))
  have h := (h.tau (.acquire _ 0 initproc initproc ⟨rfl, rfl, rfl, rfl⟩ .waitSleep rfl)).tau
    (.leave _ 0 initproc _ _ _ _ ⟨rfl, rfl, rfl, rfl⟩ rfl (.wait _))
  have h := (h.tau (.swtch _ 0 initproc rfl rfl rfl)).tau (.schedBack _ 0 initproc rfl)
  have hr := h
  -- CPU 0 runs `slot1`, which calls `exit`
  have h := ((h.tau (.schedLock _ 0 slot1 rfl rfl rfl)).tau (.schedRun _ 0 slot1 rfl rfl)).tau
    (.resume _ 0 slot1 _ _ rfl rfl rfl (.user _))
  have h := (h.event (.move _ 0 slot1 _ _ ⟨rfl, rfl, rfl, rfl⟩ (.exit 7 (by decide))) nofun).tau
    (.take _ 0 slot1 _ ⟨rfl, rfl, rfl, rfl⟩ (.exit 7) rfl)
  have h := h.scan (.reparent 7) (c := 0) ⟨rfl, rfl, rfl, rfl⟩ (by decide)
    fun k i hi => .reparentSkip 7 i (hpar i _ fun _ => by decide)
  have h := h.tau (.reparentEnd _ 0 slot1 7 ⟨rfl, rfl, rfl, rfl⟩ rfl)
  have h := h.wakeup (c := 0) rfl (by decide)
  have h := (h.tau (.acquire _ 0 slot1 slot1 ⟨rfl, rfl, rfl, rfl⟩ (.exitSelf 7) rfl)).event
    (.leave _ 0 slot1 _ _ _ _ ⟨rfl, rfl, rfl, rfl⟩ rfl (.exit 7 _)) nofun
  have hs := h
  -- CPU 1 goes on with the first process
  have h := (h.tau (.swtch _ 0 slot1 rfl rfl rfl)).tau (.schedBack _ 0 slot1 rfl)
  have h := ((h.tau (.schedLock _ 1 initproc rfl rfl rfl)).tau (.schedRun _ 1 initproc rfl rfl)).tau
    (.resume _ 1 initproc _ _ rfl rfl rfl (.sleptWait _))
  have h := (h.tau (.take _ 1 initproc _ ⟨rfl, rfl, rfl, rfl⟩ .wait rfl)).tau
    (.move _ 1 initproc _ _ ⟨rfl, rfl, rfl, rfl⟩ (.waitSkip initproc _ nofun))
  have h := (h.tau (.move _ 1 initproc _ _ ⟨rfl, rfl, rfl, rfl⟩ (.waitFound slot1 _ rfl))).tau
    (.acquire _ 1 initproc slot1 ⟨rfl, rfl, rfl, rfl⟩ (.waitCheck slot1) rfl)
  have h := h.event (.collect _ 1 initproc slot1 ⟨rfl, rfl, rfl, rfl⟩ rfl rfl rfl) nofun
  exact ⟨_, _, _, hr, ⟨rfl, ⟨rfl, rfl⟩, rfl⟩, hs, ⟨rfl, rfl, rfl, rfl⟩, h⟩

/-- **No lost wakeup**: in no state of a run is `wait_lock` free while a process sleeps in `wait` and has
a zombie child, whether it has created the child or has been given it by `reparent`. -/
theorem run_no_lost_wakeup {es : List Ev} (h : Run es s) :
    ¬ (s.waitLock = none ∧ ∃ p z, (s.entry p).state = .SLEEPING ∧ (s.entry p).chan = .proc p ∧
      s.parent z = some p ∧ (s.entry z).state = .ZOMBIE) := by
  rintro ⟨hl, p, z, hs, hch, hp, hz⟩
  exact h.waits.not_ringing_of_free hl p (h.waits.lost p z ⟨hs, hch⟩ hp hz)

/-- The first process sleeps in `wait`, and is awake when its child has become a zombie. -/
theorem run_no_lost_wakeup_life : ∃ es s, Run es s ∧
    es.filter (· ≠ .tau) = [.born initproc slot1, .exitCall slot1 7, .exited slot1] ∧
    (s.waitLock = none ∧ s.pc initproc = .slept true ∧ s.parent slot1 = some initproc ∧
      (s.entry slot1).state = .ZOMBIE) ∧
    ¬ (s.waitLock = none ∧ ∃ p z, (s.entry p).state = .SLEEPING ∧ (s.entry p).chan = .proc p ∧
      s.parent z = some p ∧ (s.entry z).state = .ZOMBIE) := by
  obtain ⟨-, s, -, -, -, ⟨es, h, he⟩, hs, -⟩ := seen_life
  exact ⟨es, s, h, he, hs, run_no_lost_wakeup h⟩

end Sched

end Xv6
