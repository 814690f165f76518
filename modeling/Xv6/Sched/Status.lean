import Xv6.Sched.Kill
import Xv6.Sched.Wakeup

/-!
# Exit statuses are delivered once

Entries and pids are reused, so `Ledger` numbers the processes as they are created and writes down, from
what an observer sees, who created each of them, what it passed to `exit`, whether it has become a
zombie, and the statuses `wait` has delivered for it.  The invariant `Kin` ties the ledger to the
process table and to the parent pointers, also while `reparent` changes them.

* `Kin`, `Step.kin`, `Run.kin`: the invariant holds in every state of every run;
* `run_status`: each process that exits stays a zombie until one `wait` delivers the status it passed to
  `exit`, once, to the process that created it, or to the first process if its creator has exited; nothing
  else frees an entry, and a `wait` that cannot copy the status out leaves the child as it is.
-/

namespace Xv6


open Function (update update_of_ne update_self)

namespace Sched

/-- What has been seen of the processes, by the number of their creation. -/
structure Ledger where
  next : ℕ
  /-- The process in an entry. -/
  id : Slot → Option ℕ
  /-- Who has created a process. -/
  maker : ℕ → Option ℕ
  /-- What it has passed to `exit`. -/
  asked : ℕ → Option (BitVec 32)
  /-- It has become a zombie. -/
  dead : ℕ → Bool
  /-- The statuses delivered for it. -/
  got : ℕ → List (BitVec 32)

namespace Ledger

/-- The ledger when the machine starts. -/
def start : Ledger where
  next := 1
  id := update (fun _ => none) initproc (some 0)
  maker _ := none
  asked _ := none
  dead _ := false
  got _ := []

/-- Process `np` is created by `p`. -/
def bear (L : Ledger) (p np : Slot) : Ledger :=
  { L with
    next := L.next + 1
    id := update L.id np (some L.next)
    maker := update L.maker L.next (L.id p) }

/-- Process number `n` calls `exit(st)`. -/
def ask (L : Ledger) (n : ℕ) (st : BitVec 32) : Ledger :=
  { L with asked := update L.asked n (some st) }

/-- Process number `n` becomes a zombie. -/
def die (L : Ledger) (n : ℕ) : Ledger := { L with dead := update L.dead n true }

/-- The status of process number `n`, in entry `z`, is delivered. -/
def deliver (L : Ledger) (z : Slot) (n : ℕ) (st : BitVec 32) : Ledger :=
  { L with id := update L.id z none, got := update L.got n (L.got n ++ [st]) }

/-- Write down an event. -/
def record (L : Ledger) : Ev → Ledger
  | .born p np => L.bear p np
  | .exitCall p st => (L.id p).elim L fun n => L.ask n st
  | .exited p => (L.id p).elim L fun n => L.die n
  | .collected _ z _ st => (L.id z).elim L fun n => L.deliver z n st
  | .tau | .killing _ | .setkilled _ => L

end Ledger

/-- What has been seen of a run. -/
def ledger (es : List Ev) : Ledger := es.foldl Ledger.record Ledger.start

/-- Steps of which nothing is seen leave the ledger as it is. -/
theorem ledger_filter (es : List Ev) : ledger (es.filter (· ≠ .tau)) = ledger es := by
  have h : ∀ L : Ledger, (es.filter (· ≠ .tau)).foldl Ledger.record L = es.foldl Ledger.record L := by
    induction es with
    | nil => exact fun _ => rfl
    | cons e es ih =>
      intro L
      by_cases he : e = .tau
      · simpa [he, Ledger.record] using ih L
      · simpa [he] using ih (L.record e)
  exact h _

/-- The status a thread in `exit` was given. -/
def Pc.status : Pc → Option (BitVec 32)
  | .exit st | .reparent st _ | .exitSelf st => some st
  | .user | .alloc _ | .forkParent _ | .forkRun _ | .zombie | .wait | .waitScan _ _ | .waitCheck _
  | .waitKilled | .waitSleep | .sleep _ | .slept _ | .kill _ _ | .setkilled => none

/-- A thread that is giving its children away, or has done so. -/
def Pc.exiting : Pc → Bool
  | .reparent _ _ | .exitSelf _ => true
  | .exit _ | .user | .alloc _ | .forkParent _ | .forkRun _ | .zombie | .wait | .waitScan _ _
  | .waitCheck _ | .waitKilled | .waitSleep | .sleep _ | .slept _ | .kill _ _ | .setkilled => false

/-- How many entries `reparent` has passed. -/
def Pc.cleared : Pc → ℕ
  | .reparent _ i => i
  | .exitSelf _ => NPROC
  | .exit _ | .user | .alloc _ | .forkParent _ | .forkRun _ | .zombie | .wait | .waitScan _ _
  | .waitCheck _ | .waitKilled | .waitSleep | .sleep _ | .slept _ | .kill _ _ | .setkilled => 0

/-- Process number `n` has given its children away, or is doing so. -/
def Leaving (L : Ledger) (s : Sys) (n : ℕ) : Prop :=
  L.dead n = true ∨ ∃ q, L.id q = some n ∧ (s.pc q).exiting = true

/-- The ledger, the process table and the parent pointers agree. -/
structure Kin (L : Ledger) (s : Sys) : Prop where
  next : ∀ z n, L.id z = some n → n < L.next
  inj : ∀ z z' n, L.id z = some n → L.id z' = some n → z = z'
  used : ∀ z, L.id z = none ↔ (s.entry z).state = .UNUSED
  zombie : ∀ z n, L.id z = some n → (L.dead n = true ↔ (s.entry z).state = .ZOMBIE)
  fresh : ∀ n, L.next ≤ n → L.dead n = false ∧ L.got n = []
  /-- Nothing has been delivered for a process that is still in the table. -/
  here : ∀ z n, L.id z = some n → L.got n = []
  /-- A process that is gone was a zombie, and its status was delivered once. -/
  gone : ∀ n, n < L.next → (∀ z, L.id z ≠ some n) →
    L.dead n = true ∧ ∃ st, L.got n = [st] ∧ L.asked n = some st
  xstate : ∀ z n, L.id z = some n → (s.entry z).state = .ZOMBIE →
    L.asked n = some (s.entry z).xstate
  status : ∀ q st, (s.pc q).status = some st → ∃ n, L.id q = some n ∧ L.asked n = some st
  /-- A process that is not runnable is in none of the calls. -/
  dormant : ∀ q, ¬ (s.entry q).state.Awake → s.pc q = .user ∨ s.pc q = .zombie
  child : ∀ q np, (s.pc q).Child np → ∃ n, L.id np = some n ∧ L.maker n = L.id q
  /-- A parent lives; it has created the child, or it is the first process and the creator is gone. -/
  parent : ∀ z p, s.parent z = some p → (s.entry p).state.Awake ∧ ∃ n, L.id z = some n ∧
    (L.maker n = L.id p ∨ (p = initproc ∧ ∃ m, L.maker n = some m ∧ Leaving L s m))
  cleared : ∀ q z, z.val < (s.pc q).cleared → s.parent z ≠ some q
  /-- The first process never exits. -/
  init : (s.entry initproc).state.Awake ∧ (s.pc initproc).status = none

theorem kin_booted : Kin .start booted := by
  have hid : ∀ z n, Ledger.start.id z = some n → z = initproc ∧ n = 0 := by
    intro z n h
    by_cases hz : z = initproc
    · subst hz
      simp only [Ledger.start, update_self, Option.some.injEq] at h
      exact ⟨rfl, h.symm⟩
    · simp [Ledger.start, update_of_ne hz] at h
  constructor
  case next =>
    intro z n h
    obtain ⟨-, rfl⟩ := hid z n h
    decide
  case inj =>
    intro z z' n h h'
    exact (hid z n h).1.trans (hid z' n h').1.symm
  case used => decide
  case zombie =>
    intro z n h
    obtain ⟨rfl, rfl⟩ := hid z n h
    decide
  case fresh => exact fun n _ => ⟨rfl, rfl⟩
  case here => exact fun _ _ _ => rfl
  case gone =>
    intro n hn hno
    obtain rfl : n = 0 := by simpa [Ledger.start] using hn
    exact absurd (by simp [Ledger.start]) (hno initproc)
  case xstate =>
    intro z n h hz
    obtain ⟨rfl, rfl⟩ := hid z n h
    simp [booted] at hz
  case status =>
    intro q st h
    simp [booted, Pc.status] at h
  case dormant => exact fun _ _ => .inl rfl
  case child =>
    intro q np h
    simp [booted, Pc.Child] at h
  case parent =>
    intro z p h
    simp [booted] at h
  case cleared =>
    intro q z h
    simp [booted, Pc.cleared] at h
  case init => simp [booted, PState.Awake, Pc.status]

variable {L : Ledger} {s t : Sys} {c : ℕ} {q i z : Slot} {e : Ev}

/-- Only in `exit` has `reparent` passed any entry. -/
theorem Pc.status_of_cleared {k : Pc} {n : ℕ} (h : n < k.cleared) : k.status ≠ none := by
  cases k <;> first | exact absurd h (Nat.not_lt_zero _) | simp [Pc.status]

namespace Kin

theorem id_of_awake (h : Kin L s) (hz : (s.entry z).state.Awake) : ∃ n, L.id z = some n := by
  rw [← Option.ne_none_iff_exists']
  exact fun hn => hz.live.1 ((h.used z).1 hn)

/-- A process that is not runnable is not in `exit`. -/
theorem status_dormant (h : Kin L s) (hz : ¬ (s.entry z).state.Awake) : (s.pc z).status = none := by
  rcases h.dormant z hz with hp | hp <;> rw [hp] <;> rfl

theorem child_dormant (h : Kin L s) (hz : ¬ (s.entry z).state.Awake) (np : Slot) :
    ¬ (s.pc z).Child np := by
  rcases h.dormant z hz with hp | hp <;> rw [hp] <;> simp [Pc.Child]

theorem exiting_dormant (h : Kin L s) (hz : ¬ (s.entry z).state.Awake) :
    (s.pc z).exiting = false := by
  rcases h.dormant z hz with hp | hp <;> rw [hp] <;> rfl

/-! ### Elementary changes -/

section

variable (h : Kin L s)
include h

theorem acquire : Kin L (s.acquire c i) := { h with }

theorem release : Kin L (s.release i) := { h with }

theorem move {w : Where} : Kin L (s.move c w) := { h with }

theorem setCur {w : Option Slot} : Kin L (s.setCur c w) := { h with }

theorem setWake {w : Option (Chan × ℕ)} : Kin L (s.setWake c w) := { h with }

theorem setWait {w : Option Slot} : Kin L (s.setWait w) := { h with }

theorem turn {w : Switch} : Kin L (s.turn q w) := { h with }

/-- An entry changes, and its process lives as before. -/
theorem put {x : Entry} (hx : x.state = .ZOMBIE → x.xstate = (s.entry i).xstate)
    (hs : x.state = (s.entry i).state ∨ ((s.entry i).state.Live ∧ x.state.Awake)) :
    Kin L (s.put i x) := by
  have hother : ∀ z, z ≠ i → (s.put i x).entry z = s.entry z := fun z hz => by
    simp [Sys.put, update_of_ne hz]
  have hself : (s.put i x).entry i = x := by simp [Sys.put]
  have hA : ∀ z, (s.entry z).state.Awake → ((s.put i x).entry z).state.Awake := by
    intro z hz
    rcases eq_or_ne z i with rfl | hne
    · rw [hself]
      rcases hs with hs | ⟨-, hs⟩
      · rwa [hs]
      · exact hs
    · rwa [hother z hne]
  refine { h with used := ?_, zombie := ?_, xstate := ?_, dormant := ?_, parent := ?_, init := ?_ }
  · intro z
    rw [h.used z]
    rcases eq_or_ne z i with rfl | hne
    · rw [hself]
      rcases hs with hs | ⟨h1, h2⟩
      · rw [hs]
      · exact ⟨fun hu => absurd hu h1.1, fun hu => absurd hu h2.live.1⟩
    · rw [hother z hne]
  · intro z n hz
    rw [h.zombie z n hz]
    rcases eq_or_ne z i with rfl | hne
    · rw [hself]
      rcases hs with hs | ⟨h1, h2⟩
      · rw [hs]
      · exact ⟨fun hu => absurd hu h1.2, fun hu => absurd hu h2.live.2⟩
    · rw [hother z hne]
  · intro z n hz hzz
    rcases eq_or_ne z i with rfl | hne
    · rw [hself] at hzz ⊢
      rw [hx hzz]
      rcases hs with hs | ⟨-, h2⟩
      · exact h.xstate z n hz (hs ▸ hzz)
      · exact absurd hzz h2.live.2
    · rw [hother z hne] at hzz ⊢
      exact h.xstate z n hz hzz
  · exact fun p hp => h.dormant p fun hp' => hp (hA p hp')
  · intro z p hp
    obtain ⟨h1, h2⟩ := h.parent z p hp
    exact ⟨hA p h1, h2⟩
  · exact ⟨hA _ h.init.1, h.init.2⟩

/-- A thread goes on, in `exit` with the status it was given, and with the child it has. -/
theorem goto {k : Pc} (hq : (s.entry q).state.Awake)
    (hst : ∀ st, k.status = some st → (s.pc q).status = some st)
    (hch : ∀ np, k.Child np → (s.pc q).Child np)
    (hex : (s.pc q).exiting = true → k.exiting = true)
    (hcl : ∀ z : Slot, z.val < k.cleared → s.parent z ≠ some q) : Kin L (s.goto q k) := by
  have hself : (s.goto q k).pc q = k := by simp [Sys.goto]
  have hother : ∀ p, p ≠ q → (s.goto q k).pc p = s.pc p := fun p hp => by
    simp [Sys.goto, update_of_ne hp]
  refine { h with status := ?_, dormant := ?_, child := ?_, parent := ?_, cleared := ?_, init := ?_ }
  · intro p st hp
    rcases eq_or_ne p q with rfl | hne
    · exact h.status p st (hst st (hself ▸ hp))
    · exact h.status p st (hother p hne ▸ hp)
  · intro p hp
    have hne : p ≠ q := by rintro rfl; exact hp hq
    rw [hother p hne]
    exact h.dormant p hp
  · intro p np hp
    rcases eq_or_ne p q with rfl | hne
    · exact h.child p np (hch np (hself ▸ hp))
    · exact h.child p np (hother p hne ▸ hp)
  · intro z p hp
    obtain ⟨h1, n, hn, h2⟩ := h.parent z p hp
    refine ⟨h1, n, hn, h2.imp_right ?_⟩
    rintro ⟨hi, m, hm, hl⟩
    refine ⟨hi, m, hm, hl.imp_right ?_⟩
    rintro ⟨r, hr, hre⟩
    refine ⟨r, hr, ?_⟩
    rcases eq_or_ne r q with rfl | hne
    · rw [hself]
      exact hex hre
    · rwa [hother r hne]
  · intro p z hz
    rcases eq_or_ne p q with rfl | hne
    · exact hcl z (hself ▸ hz)
    · exact h.cleared p z (hother p hne ▸ hz)
  · refine ⟨h.init.1, ?_⟩
    rcases eq_or_ne initproc q with hi | hne
    · rw [hi, hself]
      by_contra hs
      obtain ⟨st, hs⟩ := Option.ne_none_iff_exists'.1 hs
      have := hst st hs
      rw [← hi, h.init.2] at this
      exact absurd this (by simp)
    · rw [hother initproc hne]
      exact h.init.2

/-- A thread that was not in `exit` goes on at a position outside `exit` and about no new child. -/
theorem goto_plain {k : Pc} (hq : (s.entry q).state.Awake) (hst : k.status = none)
    (hch : ∀ np, ¬ k.Child np) (hex : (s.pc q).exiting = false) : Kin L (s.goto q k) := by
  refine h.goto hq (by simp [hst]) (fun np hp => absurd hp (hch np)) (by simp [hex]) fun z hz => ?_
  exact absurd hst (Pc.status_of_cleared hz)

theorem orphan : Kin L (s.setParent i none) := by
  have hP : ∀ z p, (s.setParent i none).parent z = some p → s.parent z = some p := by
    intro z p
    rcases eq_or_ne z i with rfl | hne
    · simp [Sys.setParent]
    · simp [Sys.setParent, update_of_ne hne]
  exact { h with
    parent := fun z p hp => h.parent z p (hP z p hp)
    cleared := fun p z hz hp => h.cleared p z hz (hP z p hp) }

theorem setParent {p : Slot} (hp : (s.entry p).state.Awake ∧ ∃ n, L.id i = some n ∧
      (L.maker n = L.id p ∨ (p = initproc ∧ ∃ m, L.maker n = some m ∧ Leaving L s m)))
    (hcl : (s.pc p).cleared = 0) : Kin L (s.setParent i (some p)) := by
  refine { h with parent := ?_, cleared := ?_ }
  · intro z r hr
    rcases eq_or_ne z i with rfl | hne
    · obtain rfl : p = r := by simpa [Sys.setParent] using hr
      exact hp
    · exact h.parent z r (by simpa [Sys.setParent, update_of_ne hne] using hr)
  · intro r z hz hr
    rcases eq_or_ne z i with rfl | hne
    · obtain rfl : p = r := by simpa [Sys.setParent] using hr
      exact absurd hz (by simp [Sys.setParent, hcl])
    · exact h.cleared r z hz (by simpa [Sys.setParent, update_of_ne hne] using hr)

end

/-! ### What the ledger records -/

/-- `allocproc` has taken entry `i` for a child of `q`. -/
theorem bear (h : Kin L s) (hq : (s.entry q).state.Awake) (hk : ∃ j, s.pc q = .alloc j)
    (hi : (s.entry i).state = .UNUSED) (n : BitVec 32) :
    Kin (L.bear q i) (((s.put i ((s.entry i).alloc n)).goto i .user).goto q (.forkParent i)) := by
  have hiq : i ≠ q := by rintro rfl; rw [hi] at hq; simp [PState.Awake] at hq
  have hni : L.id i = none := (h.used i).2 hi
  have hiA : ¬ (s.entry i).state.Awake := by rw [hi]; simp [PState.Awake]
  set t := ((s.put i ((s.entry i).alloc n)).goto i .user).goto q (.forkParent i) with ht
  have hei : (t.entry i).state = .USED := by simp [ht, Sys.goto, Sys.put, Entry.alloc]
  have heo : ∀ z, z ≠ i → t.entry z = s.entry z := fun z hz => by
    simp [ht, Sys.goto, Sys.put, update_of_ne hz]
  have hpi : t.pc i = .user := by simp [ht, Sys.goto, update_of_ne hiq]
  have hpq : t.pc q = .forkParent i := by simp [ht, Sys.goto]
  have hpo : ∀ p, p ≠ i → p ≠ q → t.pc p = s.pc p := fun p h1 h2 => by
    simp [ht, Sys.goto, Sys.put, update_of_ne h1, update_of_ne h2]
  have hidi : (L.bear q i).id i = some L.next := by simp [Ledger.bear]
  have hido : ∀ z, z ≠ i → (L.bear q i).id z = L.id z := fun z hz => by
    simp [Ledger.bear, update_of_ne hz]
  have hmk : ∀ m, m < L.next → (L.bear q i).maker m = L.maker m := fun m hm => by
    simp [Ledger.bear, update_of_ne hm.ne]
  have hid : ∀ z m, (L.bear q i).id z = some m → (z = i ∧ m = L.next) ∨ (z ≠ i ∧ L.id z = some m) := by
    intro z m hz
    rcases eq_or_ne z i with rfl | hne
    · rw [hidi, Option.some.injEq] at hz
      exact .inl ⟨rfl, hz.symm⟩
    · exact .inr ⟨hne, hido z hne ▸ hz⟩
  obtain ⟨j, hkj⟩ := hk
  have hstat : ∀ p st, (t.pc p).status = some st → p ≠ i ∧ (s.pc p).status = some st := by
    intro p st hp
    rcases eq_or_ne p i with rfl | h1
    · simp [hpi, Pc.status] at hp
    rcases eq_or_ne p q with rfl | h2
    · simp [hpq, Pc.status] at hp
    · exact ⟨h1, hpo p h1 h2 ▸ hp⟩
  constructor
  case next =>
    intro z m hz
    rcases hid z m hz with ⟨-, rfl⟩ | ⟨-, hz⟩
    · exact Nat.lt_succ_self _
    · exact Nat.lt_succ_of_lt (h.next z m hz)
  case inj =>
    intro z z' m hz hz'
    rcases hid z m hz with ⟨h1, h2⟩ | ⟨-, h1⟩ <;> rcases hid z' m hz' with ⟨h3, h4⟩ | ⟨-, h3⟩
    · exact h1.trans h3.symm
    · exact absurd (h.next z' m h3) (by omega)
    · exact absurd (h.next z m h1) (by omega)
    · exact h.inj z z' m h1 h3
  case used =>
    intro z
    rcases eq_or_ne z i with rfl | hne
    · rw [hidi, hei]
      simp
    · rw [hido z hne, heo z hne]
      exact h.used z
  case zombie =>
    intro z m hz
    rcases hid z m hz with ⟨rfl, rfl⟩ | ⟨hne, hz⟩
    · rw [hei]
      simp [Ledger.bear, (h.fresh L.next le_rfl).1]
    · rw [heo z hne]
      exact h.zombie z m hz
  case fresh =>
    intro m hm
    exact h.fresh m (Nat.le_of_succ_le hm)
  case here =>
    intro z m hz
    rcases hid z m hz with ⟨-, rfl⟩ | ⟨-, hz⟩
    · exact (h.fresh L.next le_rfl).2
    · exact h.here z m hz
  case gone =>
    intro m hm hno
    have hne : m ≠ L.next := fun he => hno i (he ▸ hidi)
    refine h.gone m (by have : m < L.next + 1 := hm; omega) fun z hz => ?_
    have hzi : z ≠ i := by rintro rfl; simp [hni] at hz
    exact hno z (hido z hzi ▸ hz)
  case xstate =>
    intro z m hz hzz
    rcases hid z m hz with ⟨rfl, rfl⟩ | ⟨hne, hz⟩
    · simp [hei] at hzz
    · rw [heo z hne] at hzz ⊢
      exact h.xstate z m hz hzz
  case status =>
    intro p st hp
    obtain ⟨h1, hp⟩ := hstat p st hp
    rw [hido p h1]
    exact h.status p st hp
  case dormant =>
    intro p hp
    rcases eq_or_ne p i with rfl | h1
    · exact .inl hpi
    · rw [heo p h1] at hp
      have h2 : p ≠ q := by rintro rfl; exact hp hq
      rw [hpo p h1 h2]
      exact h.dormant p hp
  case child =>
    intro p np hp
    rcases eq_or_ne p i with rfl | h1
    · rw [hpi] at hp
      simp [Pc.Child] at hp
    rcases eq_or_ne p q with rfl | h2
    · obtain rfl : i = np := by simpa [hpq, Pc.Child] using hp
      exact ⟨L.next, hidi, by simp [Ledger.bear, update_of_ne h1]⟩
    · rw [hpo p h1 h2] at hp
      obtain ⟨m, hm, hmm⟩ := h.child p np hp
      have hnp : np ≠ i := by rintro rfl; simp [hni] at hm
      exact ⟨m, (hido np hnp).trans hm, by rw [hmk m (h.next np m hm), hido p h1, hmm]⟩
  case parent =>
    intro z p hp
    obtain ⟨h1, m, hm, h2⟩ := h.parent z p hp
    have hz : z ≠ i := by rintro rfl; simp [hni] at hm
    have hpi' : p ≠ i := by rintro rfl; exact hiA h1
    refine ⟨by rwa [heo p hpi'], m, (hido z hz).trans hm, ?_⟩
    rw [hmk m (h.next z m hm), hido p hpi']
    refine h2.imp_right ?_
    rintro ⟨hinit, m', hm', hl⟩
    refine ⟨hinit, m', hm', hl.imp_right ?_⟩
    rintro ⟨r, hr, hre⟩
    have hri : r ≠ i := by rintro rfl; simp [hni] at hr
    have hrq : r ≠ q := by
      rintro rfl
      simp [hkj, Pc.exiting] at hre
    exact ⟨r, (hido r hri).trans hr, by rwa [hpo r hri hrq]⟩
  case cleared =>
    intro p z hz
    rcases eq_or_ne p i with rfl | h1
    · rw [hpi] at hz
      exact absurd hz (Nat.not_lt_zero _)
    rcases eq_or_ne p q with rfl | h2
    · rw [hpq] at hz
      exact absurd hz (Nat.not_lt_zero _)
    · exact h.cleared p z (hpo p h1 h2 ▸ hz)
  case init =>
    have h1 : initproc ≠ i := by rintro rfl; exact hiA h.init.1
    refine ⟨by rw [heo _ h1]; exact h.init.1, ?_⟩
    by_contra hs
    obtain ⟨st, hs⟩ := Option.ne_none_iff_exists'.1 hs
    have := (hstat _ st hs).2
    simp [h.init.2] at this

/-- A process calls `exit`. -/
theorem ask (h : Kin L s) (hq : (s.entry q).state.Awake) (hk : s.pc q = .user) (hi : q ≠ initproc)
    {n : ℕ} (hn : L.id q = some n) (st : BitVec 32) : Kin (L.ask n st) (s.goto q (.exit st)) := by
  have hself : (s.goto q (.exit st)).pc q = .exit st := by simp [Sys.goto]
  have hother : ∀ p, p ≠ q → (s.goto q (.exit st)).pc p = s.pc p := fun p hp => by
    simp [Sys.goto, update_of_ne hp]
  have hask : ∀ m, m ≠ n → (L.ask n st).asked m = L.asked m := fun m hm => by
    simp [Ledger.ask, update_of_ne hm]
  have hne : ∀ z m, z ≠ q → L.id z = some m → m ≠ n := by
    rintro z m hz hm rfl
    exact hz (h.inj z q m hm hn)
  constructor
  case next => exact h.next
  case inj => exact h.inj
  case used => exact h.used
  case zombie => exact h.zombie
  case fresh => exact h.fresh
  case here => exact h.here
  case gone =>
    intro m hm hno
    rw [hask m fun he => hno q (he ▸ hn)]
    exact h.gone m hm hno
  case xstate =>
    intro z m hz hzz
    have hzq : z ≠ q := by rintro rfl; exact hq.live.2 hzz
    rw [hask m (hne z m hzq hz)]
    exact h.xstate z m hz hzz
  case status =>
    intro p st' hp
    rcases eq_or_ne p q with rfl | hpq
    · obtain rfl : st = st' := by simpa [hself, Pc.status] using hp
      exact ⟨n, hn, by simp [Ledger.ask]⟩
    · rw [hother p hpq] at hp
      obtain ⟨m, hm, hma⟩ := h.status p st' hp
      exact ⟨m, hm, (hask m (hne p m hpq hm)).trans hma⟩
  case dormant =>
    intro p hp
    have hpq : p ≠ q := by rintro rfl; exact hp hq
    rw [hother p hpq]
    exact h.dormant p hp
  case child =>
    intro p np hp
    rcases eq_or_ne p q with rfl | hpq
    · rw [hself] at hp
      simp [Pc.Child] at hp
    · exact h.child p np (hother p hpq ▸ hp)
  case parent =>
    intro z p hp
    obtain ⟨h1, m, hm, h2⟩ := h.parent z p hp
    refine ⟨h1, m, hm, h2.imp_right ?_⟩
    rintro ⟨hinit, m', hm', hl⟩
    refine ⟨hinit, m', hm', hl.imp_right ?_⟩
    rintro ⟨r, hr, hre⟩
    have hrq : r ≠ q := by
      rintro rfl
      simp [hk, Pc.exiting] at hre
    exact ⟨r, hr, by rwa [hother r hrq]⟩
  case cleared =>
    intro p z hz
    rcases eq_or_ne p q with rfl | hpq
    · rw [hself] at hz
      exact absurd hz (Nat.not_lt_zero _)
    · exact h.cleared p z (hother p hpq ▸ hz)
  case init =>
    refine ⟨h.init.1, ?_⟩
    rw [hother _ (Ne.symm hi)]
    exact h.init.2

/-- A process that has given its children away becomes a zombie. -/
theorem die (h : Kin L s) (hq : (s.entry q).state.Awake) {st : BitVec 32} (hk : s.pc q = .exitSelf st)
    {n : ℕ} (hn : L.id q = some n) {x : Entry} (hx : x.state = .ZOMBIE) (hxs : x.xstate = st) :
    Kin (L.die n) ((s.put q x).goto q .zombie) := by
  set t := (s.put q x).goto q .zombie with ht
  have hpq : t.pc q = .zombie := by simp [ht, Sys.goto]
  have hpo : ∀ p, p ≠ q → t.pc p = s.pc p := fun p hp => by
    simp [ht, Sys.goto, Sys.put, update_of_ne hp]
  have heq : t.entry q = x := by simp [ht, Sys.goto, Sys.put]
  have heo : ∀ z, z ≠ q → t.entry z = s.entry z := fun z hz => by
    simp [ht, Sys.goto, Sys.put, update_of_ne hz]
  have hdn : (L.die n).dead n = true := by simp [Ledger.die]
  have hdo : ∀ m, m ≠ n → (L.die n).dead m = L.dead m := fun m hm => by
    simp [Ledger.die, update_of_ne hm]
  have hne : ∀ z m, z ≠ q → L.id z = some m → m ≠ n := by
    rintro z m hz hm rfl
    exact hz (h.inj z q m hm hn)
  have hchild : ∀ z, s.parent z ≠ some q := fun z =>
    h.cleared q z (by rw [hk]; exact z.isLt)
  have hinit : initproc ≠ q := by
    rintro rfl
    have := h.init.2
    simp [hk, Pc.status] at this
  constructor
  case next => exact h.next
  case inj => exact h.inj
  case used =>
    intro z
    show L.id z = none ↔ _
    rw [h.used z]
    rcases eq_or_ne z q with rfl | hz
    · rw [heq, hx]
      exact ⟨fun hu => absurd hu hq.live.1, fun hu => absurd hu (by simp)⟩
    · rw [heo z hz]
  case zombie =>
    intro z m hz
    rcases eq_or_ne z q with rfl | hzq
    · obtain rfl : n = m := Option.some.inj (hn.symm.trans hz)
      rw [heq, hx]
      simp [hdn]
    · rw [heo z hzq, hdo m (hne z m hzq hz)]
      exact h.zombie z m hz
  case fresh =>
    intro m hm
    have : n < L.next := h.next q n hn
    have hmn : m ≠ n := by rintro rfl; have : L.next ≤ m := hm; omega
    rw [hdo m hmn]
    exact h.fresh m hm
  case here => exact h.here
  case gone =>
    intro m hm hno
    rw [hdo m fun he => hno q (he ▸ hn)]
    exact h.gone m hm hno
  case xstate =>
    intro z m hz hzz
    rcases eq_or_ne z q with rfl | hzq
    · obtain ⟨m', hm', hma⟩ := h.status z st (by rw [hk]; rfl)
      obtain rfl : m = m' := Option.some.inj (hz.symm.trans hm')
      rwa [heq, hxs]
    · rw [heo z hzq] at hzz ⊢
      exact h.xstate z m hz hzz
  case status =>
    intro p st' hp
    rcases eq_or_ne p q with rfl | hpq'
    · simp [hpq, Pc.status] at hp
    · exact h.status p st' (hpo p hpq' ▸ hp)
  case dormant =>
    intro p hp
    rcases eq_or_ne p q with rfl | hpq'
    · exact .inr hpq
    · rw [heo p hpq'] at hp
      rw [hpo p hpq']
      exact h.dormant p hp
  case child =>
    intro p np hp
    rcases eq_or_ne p q with rfl | hpq'
    · rw [hpq] at hp
      simp [Pc.Child] at hp
    · exact h.child p np (hpo p hpq' ▸ hp)
  case parent =>
    intro z p hp
    obtain ⟨h1, m, hm, h2⟩ := h.parent z p hp
    have hpq' : p ≠ q := by rintro rfl; exact hchild z hp
    refine ⟨by rwa [heo p hpq'], m, hm, h2.imp_right ?_⟩
    rintro ⟨hin, m', hm', hl⟩
    refine ⟨hin, m', hm', ?_⟩
    rcases eq_or_ne m' n with rfl | hmn
    · exact .inl hdn
    · rcases hl with hl | ⟨r, hr, hre⟩
      · exact .inl ((hdo m' hmn).trans hl)
      · have hrq : r ≠ q := by
          rintro rfl
          exact hmn (Option.some.inj (hr.symm.trans hn))
        exact .inr ⟨r, hr, by rwa [hpo r hrq]⟩
  case cleared =>
    intro p z hz
    rcases eq_or_ne p q with rfl | hpq'
    · rw [hpq] at hz
      exact absurd hz (Nat.not_lt_zero _)
    · exact h.cleared p z (hpo p hpq' ▸ hz)
  case init => exact ⟨by rw [heo _ hinit]; exact h.init.1, by rw [hpo _ hinit]; exact h.init.2⟩

/-- `wait` delivers the status of a zombie and frees its entry. -/
theorem deliver (h : Kin L s) (hz : (s.entry i).state = .ZOMBIE)
    (hu : ∀ p, ¬ (s.pc p).Child i) {n : ℕ} (hn : L.id i = some n) :
    Kin (L.deliver i n (s.entry i).xstate) ((s.put i (s.entry i).free).setParent i none) := by
  set t := (s.put i (s.entry i).free).setParent i none with ht
  have hiA : ¬ (s.entry i).state.Awake := by rw [hz]; simp [PState.Awake]
  have hei : (t.entry i).state = .UNUSED := by simp [ht, Sys.put, Sys.setParent, Entry.free]
  have heo : ∀ z, z ≠ i → t.entry z = s.entry z := fun z hz => by
    simp [ht, Sys.put, Sys.setParent, update_of_ne hz]
  have hpari : t.parent i = none := by simp [ht, Sys.setParent]
  have hparo : ∀ z, z ≠ i → t.parent z = s.parent z := fun z hz => by
    simp [ht, Sys.put, Sys.setParent, update_of_ne hz]
  set L' := L.deliver i n (s.entry i).xstate with hL
  have hidi : L'.id i = none := by simp [hL, Ledger.deliver]
  have hido : ∀ z, z ≠ i → L'.id z = L.id z := fun z hz => by
    simp [hL, Ledger.deliver, update_of_ne hz]
  have hid : ∀ z m, L'.id z = some m → z ≠ i ∧ L.id z = some m := by
    intro z m hzm
    have hzi : z ≠ i := by rintro rfl; simp [hidi] at hzm
    exact ⟨hzi, hido z hzi ▸ hzm⟩
  have hgot : ∀ m, m ≠ n → L'.got m = L.got m := fun m hm => by
    simp [hL, Ledger.deliver, update_of_ne hm]
  have hne : ∀ z m, z ≠ i → L.id z = some m → m ≠ n := by
    rintro z m hzi hm rfl
    exact hzi (h.inj z i m hm hn)
  constructor
  case next => exact fun z m hzm => h.next z m (hid z m hzm).2
  case inj => exact fun z z' m h1 h2 => h.inj z z' m (hid z m h1).2 (hid z' m h2).2
  case used =>
    intro z
    rcases eq_or_ne z i with rfl | hzi
    · rw [hidi, hei]
      simp
    · rw [hido z hzi, heo z hzi]
      exact h.used z
  case zombie =>
    intro z m hzm
    obtain ⟨hzi, hzm⟩ := hid z m hzm
    rw [heo z hzi]
    exact h.zombie z m hzm
  case fresh =>
    intro m hm
    have : n < L.next := h.next i n hn
    have hmn : m ≠ n := by rintro rfl; have : L.next ≤ m := hm; omega
    rw [hgot m hmn]
    exact h.fresh m hm
  case here =>
    intro z m hzm
    obtain ⟨hzi, hzm⟩ := hid z m hzm
    rw [hgot m (hne z m hzi hzm)]
    exact h.here z m hzm
  case gone =>
    intro m hm hno
    rcases eq_or_ne m n with rfl | hmn
    · refine ⟨(h.zombie i m hn).2 hz, (s.entry i).xstate, ?_, h.xstate i m hn hz⟩
      simp [hL, Ledger.deliver, h.here i m hn]
    · rw [hgot m hmn]
      refine h.gone m hm fun z hzm => ?_
      have hzi : z ≠ i := by
        rintro rfl
        exact hmn (Option.some.inj (hzm.symm.trans hn))
      exact hno z ((hido z hzi).trans hzm)
  case xstate =>
    intro z m hzm hzz
    obtain ⟨hzi, hzm⟩ := hid z m hzm
    rw [heo z hzi] at hzz ⊢
    exact h.xstate z m hzm hzz
  case status =>
    intro p st hp
    have hpi : p ≠ i := by
      rintro rfl
      have := h.status_dormant hiA
      simp [show (s.pc p).status = some st from hp] at this
    rw [hido p hpi]
    exact h.status p st hp
  case dormant =>
    intro p hp
    rcases eq_or_ne p i with rfl | hpi
    · exact h.dormant p hiA
    · rw [heo p hpi] at hp
      exact h.dormant p hp
  case child =>
    intro p np hp
    have hpi : p ≠ i := by rintro rfl; exact h.child_dormant hiA np hp
    have hnp : np ≠ i := by rintro rfl; exact hu p hp
    rw [hido p hpi, hido np hnp]
    exact h.child p np hp
  case parent =>
    intro z p hp
    have hzi : z ≠ i := by rintro rfl; simp [hpari] at hp
    rw [hparo z hzi] at hp
    obtain ⟨h1, m, hm, h2⟩ := h.parent z p hp
    have hpi : p ≠ i := by rintro rfl; exact hiA h1
    refine ⟨by rwa [heo p hpi], m, (hido z hzi).trans hm, ?_⟩
    rw [hido p hpi]
    refine h2.imp_right ?_
    rintro ⟨hin, m', hm', hl⟩
    refine ⟨hin, m', hm', hl.imp_right ?_⟩
    rintro ⟨r, hr, hre⟩
    have hri : r ≠ i := by
      rintro rfl
      simp [h.exiting_dormant hiA] at hre
    exact ⟨r, (hido r hri).trans hr, hre⟩
  case cleared =>
    intro p z hzz hp
    have hzi : z ≠ i := by rintro rfl; simp [hpari] at hp
    exact h.cleared p z hzz (hparo z hzi ▸ hp)
  case init =>
    have hin : initproc ≠ i := by rintro rfl; exact hiA h.init.1
    exact ⟨by rw [heo _ hin]; exact h.init.1, h.init.2⟩

end Kin

/-! ### Steps and runs -/

/-- A move is a call of `exit`, or it stays in the same `exit` and records nothing. -/
theorem Move.kin {k k' : Pc} (h : Move s q k e k') :
    (∃ st, e = .exitCall q st ∧ k = .user ∧ k' = .exit st ∧ q ≠ initproc) ∨
      (∀ L : Ledger, L.record e = L) ∧ (∀ st, k'.status = some st → k.status = some st) ∧
      (k.exiting = true → k'.exiting = true) ∧
      ∀ z : Slot, z.val < k'.cleared → z.val < k.cleared ∨ s.parent z ≠ some q := by
  cases h with
  | exit st hi => exact .inl ⟨st, rfl, rfl, rfl, hi⟩
  | reparentSkip st i hi =>
    refine .inr ⟨fun _ => rfl, fun _ => id, fun _ => rfl, fun z hz => ?_⟩
    rcases Nat.lt_succ_iff_lt_or_eq.1 hz with hlt | heq
    · exact .inl hlt
    · exact .inr (by rwa [Fin.ext heq])
  | _ =>
    refine .inr ⟨fun _ => rfl, fun _ hk => absurd hk (by simp [Pc.status]), ?_,
      fun z hz => absurd hz (Nat.not_lt_zero _)⟩
    exact fun hk => absurd hk (by simp [Pc.exiting])

/-- A section is outside `exit`, records nothing, and leaves the process alive as before. -/
theorem Body.kin {k k' : Pc} {x y : Entry} (h : Body q k i x e y k')
    (hu : k = .forkRun i → x.state = .USED) :
    (∀ L : Ledger, L.record e = L) ∧ k'.status = none ∧ k.exiting = false ∧ y.xstate = x.xstate ∧
      (y.state = x.state ∨ (x.state.Live ∧ y.state.Awake)) := by
  cases h with
  | forkRun =>
    refine ⟨fun _ => rfl, rfl, rfl, rfl, .inr ?_⟩
    rw [hu rfl]
    simp [PState.Live, PState.Awake]
  | killHit pid _ _ hp =>
    refine ⟨fun _ => rfl, rfl, rfl, rfl, ?_⟩
    by_cases hs : x.state = .SLEEPING <;> simp [Entry.kill, hs, PState.Live, PState.Awake]
  | _ => exact ⟨fun _ => rfl, rfl, rfl, rfl, .inl rfl⟩

theorem Fails.exiting {k : Pc} {x : Entry} (h : Fails q k i x) : k.exiting = false := by
  cases h <;> rfl

/-- A thread comes back where it was, outside the section of `exit` under `wait_lock`. -/
theorem Resume.kin {k k' : Pc} {x y : Entry} (h : Resume k x y k') :
    (∀ st, k'.status = some st → k.status = some st) ∧ (∀ np, k'.Child np → k.Child np) ∧
      (k.exiting = true → k'.exiting = true) ∧ k'.cleared ≤ k.cleared ∧ y.xstate = x.xstate ∧
      y.state = x.state := by
  cases h with
  | yield => exact ⟨fun _ => id, fun _ => id, id, le_rfl, rfl, rfl⟩
  | _ => simp [Pc.status, Pc.Child, Pc.exiting, Pc.cleared]

theorem Entry.wakeup_kin (ch : Chan) (x : Entry) : (x.wakeup ch).xstate = x.xstate ∧
    ((x.wakeup ch).state = x.state ∨ (x.state.Live ∧ (x.wakeup ch).state.Awake)) := by
  unfold Entry.wakeup
  split_ifs with h <;> simp [PState.Live, PState.Awake, h]

/-- **One step** keeps the ledger, the process table and the parent pointers matched. -/
theorem Step.kin (h : Kin L s) (hc : Cpus s) (hs : Step s e t) : Kin (L.record e) t := by
  have awake : ∀ {c q}, s.On c q → (s.entry q).state.Awake := fun on =>
    .inr (.inr (hc.on_running on))
  cases hs with
  | schedLock c i hloc hw hl => exact h.acquire.move
  | schedRun c i hloc hr =>
    have hp : Kin L (s.put i { s.entry i with state := .RUNNING }) :=
      h.put (fun _ => rfl) (.inr (by simp [PState.Live, PState.Awake, hr]))
    exact hp.setCur.move
  | schedSkip c i hloc hr => exact h.release.move
  | schedBack c i hloc => exact h.setCur.release.move
  | move c q ev k on hm =>
    rcases hm.kin with ⟨st, rfl, hk, rfl, hi⟩ | ⟨hrec, hst, hex, hcl⟩
    · obtain ⟨n, hn⟩ := h.id_of_awake (awake on)
      simp only [Ledger.record, hn, Option.elim_some]
      exact h.ask (awake on) hk hi hn st
    · rw [hrec L]
      refine h.goto (awake on) hst (fun np hp => absurd hp (hm.child np)) hex fun z hz => ?_
      exact (hcl z hz).elim (h.cleared q z) id
  | acquire c q i on hw hl => exact h.acquire
  | body c q i ev x k on hl hb =>
    obtain ⟨hrec, hst, hex, hx, hxs⟩ := hb.kin fun hk => hc.child q i (.inr hk)
    rw [hrec L]
    have hg : Kin L (s.goto q k) := h.goto_plain (awake on) hst hb.child hex
    exact (hg.put (i := i) (fun _ => hx) hxs).release
  | allocFail c q i on hl hp hu =>
    have hf : Kin L (s.put i (s.entry i).free) :=
      h.put (by simp [Entry.free]) (.inl (by simp [Entry.free, hu]))
    have hiq : q ≠ i := by rintro rfl; exact absurd hu (awake on).live.1
    have hg := ((hf.orphan (i := i)).release (i := i)).goto_plain (q := q) (k := .user)
      (by simpa [Sys.release, Sys.setParent, Sys.put, update_of_ne hiq] using awake on) rfl
      (by simp [Pc.Child]) (by show (s.pc q).exiting = false; rw [hp]; rfl)
    exact { hg with }
  | allocOk c q i on hl hp hu =>
    exact { h.bear (awake on) ⟨_, hp⟩ hu s.nextpid with }
  | forkParent c q np on hp hl =>
    obtain ⟨n, hn, hm⟩ := h.child q np (.inl hp)
    have hpar : Kin L (s.setParent np (some q)) :=
      h.setParent ⟨awake on, n, hn, .inl hm⟩ (by rw [hp]; rfl)
    refine hpar.goto (awake on) (by simp [Pc.status]) (fun np' hk => ?_) ?_
      fun z hz => absurd hz (Nat.not_lt_zero _)
    · obtain rfl : np = np' := by simpa [Pc.Child] using hk
      exact .inl hp
    · intro hex
      simp [show (s.setParent np (some q)).pc q = .forkParent np from hp, Pc.exiting] at hex
  | take c q k on ht hl =>
    have hk : (∀ st, k.status = some st → (s.pc q).status = some st) ∧ k.cleared = 0 ∧
        (s.pc q).exiting = false := by
      generalize s.pc q = k0 at ht
      cases ht <;> simp [Pc.status, Pc.cleared, Pc.exiting]
    refine (h.setWait (w := some q)).goto (awake on) hk.1 (fun np hp => absurd hp (ht.child np)) ?_ ?_
    · intro hex
      exact absurd (hk.2.2.symm.trans hex) (by simp)
    · intro z hz
      rw [hk.2.1] at hz
      exact absurd hz (Nat.not_lt_zero _)
  | reparentGive c q i st on hp hi =>
    have hqi : q ≠ initproc := by
      rintro rfl
      have := h.init.2
      simp [hp, Pc.status] at this
    obtain ⟨-, n, hn, hm⟩ := h.parent i q hi
    have hmk : L.maker n = L.id q := hm.resolve_right fun hm => hqi hm.1
    obtain ⟨m, hmq⟩ := h.id_of_awake (awake on)
    have hcl0 : (s.pc initproc).cleared = 0 := by
      by_contra hne
      exact Pc.status_of_cleared (Nat.pos_of_ne_zero hne) h.init.2
    -- the creator is in `reparent` itself
    have hpar : Kin L (s.setParent i (some initproc)) :=
      h.setParent ⟨h.init.1, n, hn, .inr ⟨rfl, m, hmk.trans hmq, .inr ⟨q, hmq, by rw [hp]; rfl⟩⟩⟩ hcl0
    refine (hpar.setWake (c := c) (w := some (.proc initproc, 0))).goto (awake on) ?_
      (by simp [Pc.Child]) (fun _ => rfl) fun z hz => ?_
    · show ∀ st', _ → (s.pc q).status = some st'
      rw [hp]
      exact fun _ => id
    · rcases eq_or_ne z i with rfl | hne
      · simpa [Sys.setParent, Sys.setWake] using Ne.symm hqi
      · have hlt : z.val < i.val :=
          lt_of_le_of_ne (Nat.lt_succ_iff.1 hz) fun he => hne (Fin.ext he)
        have := h.cleared q z (by rwa [hp])
        simpa [Sys.setParent, Sys.setWake, update_of_ne hne] using this
  | reparentEnd c q st on hp =>
    refine (h.setWake (c := c) (w := _)).goto (awake on) ?_ (by simp [Pc.Child]) (fun _ => rfl)
      fun z hz => h.cleared q z (by rwa [hp])
    show ∀ st', _ → (s.pc q).status = some st'
    rw [hp]
    exact fun _ => id
  | waitNone c q on hp =>
    exact (h.setWait (w := none)).goto_plain (awake on) rfl (by simp [Pc.Child])
      (by show (s.pc q).exiting = false; rw [hp]; rfl)
  | waitFail c q i on hl hf =>
    exact ((h.release (i := i)).setWait (w := none)).goto_plain (awake on) rfl (by simp [Pc.Child])
      hf.exiting
  | collect c q i on hl hp hz =>
    have hiu : (s.entry i).state ≠ .UNUSED := by rw [hz]; simp
    obtain ⟨n, hn⟩ := Option.ne_none_iff_exists'.1 fun hid => hiu ((h.used i).1 hid)
    simp only [Ledger.record, hn, Option.elim_some]
    have hno : ∀ p, ¬ (s.pc p).Child i := fun p hp => by
      have := hc.child p i hp
      simp [hz] at this
    have hd := h.deliver hz hno hn
    have hqi : q ≠ i := by rintro rfl; exact absurd hz (awake on).live.2
    have hg := ((hd.release (i := i)).setWait (w := none)).goto_plain (q := q) (k := .user)
      (by simpa [Sys.release, Sys.setParent, Sys.put, Sys.setWait, update_of_ne hqi] using
        awake on) rfl (by simp [Pc.Child]) (by show (s.pc q).exiting = false; rw [hp]; rfl)
    exact hg
  | leave c q ev d x k on hl hlv =>
    have hq := awake on
    generalize hk : s.pc q = k0 at hlv
    generalize he : s.entry q = x0 at hlv
    cases hlv with
    | exit st _ =>
      obtain ⟨n, hn⟩ := h.id_of_awake hq
      simp only [Ledger.record, hn, Option.elim_some]
      exact { h.die hq hk hn (x := { x0 with xstate := st, state := .ZOMBIE }) rfl rfl with }
    | wait _ =>
      have hg : Kin L (s.goto q (.slept true)) :=
        h.goto_plain hq rfl (by simp [Pc.Child]) (by rw [hk]; rfl)
      have hp := hg.put (i := q) (x := { x0 with chan := .proc q, state := .SLEEPING })
        (by simp) (.inr ⟨hq.live, .inl rfl⟩)
      exact { hp with }
    | sleep a _ =>
      have hg : Kin L (s.goto q (.slept false)) :=
        h.goto_plain hq rfl (by simp [Pc.Child]) (by rw [hk]; rfl)
      have hp := hg.put (i := q) (x := { x0 with chan := .other a, state := .SLEEPING })
        (by simp) (.inr ⟨hq.live, .inl rfl⟩)
      exact { hp with }
  | yieldCall c q on hu => exact h.turn
  | yield c q hcur hr hw hs hl =>
    have hq : (s.entry q).state = .RUNNING := (hc.run q).2 ⟨c, hcur, hr, by rw [hs]; simp⟩
    have hp : Kin L ((s.acquire c q).put q { s.entry q with state := .RUNNABLE }) :=
      h.acquire.put (by simp) (.inr (by simp [Sys.acquire, PState.Live, PState.Awake, hq]))
    exact hp.turn
  | swtch c q hcur hr hs => exact h.turn.move
  | resume c q x k hcur hr hs hre =>
    have hq : (s.entry q).state = .RUNNING := (hc.run q).2 ⟨c, hcur, hr, by rw [hs]; simp⟩
    obtain ⟨hst, hch, hex, hcl, hx, hxs⟩ := hre.kin
    have hg : Kin L (s.goto q k) :=
      h.goto (.inr (.inr hq)) hst hch hex fun z hz => h.cleared q z (lt_of_lt_of_le hz hcl)
    exact ((hg.put (i := q) (fun _ => hx) (.inl hxs)).release (i := q)).turn
  | wakeCall c a hw hcur hu => exact h.setWake
  | wakeSkip c ch i hw hcur => exact h.setWake
  | wakeLock c ch i hw hcur hl => exact h.acquire
  | wakeBody c ch i hw hcur hl =>
    have hk := Entry.wakeup_kin ch (s.entry i)
    exact ((h.put (i := i) (fun _ => hk.1) hk.2).release (i := i)).setWake
  | wakeEnd c ch hw => exact h.setWake

/-- Every state of every run satisfies the invariant. -/
theorem Run.kin {es : List Ev} (h : Run es s) : Kin (ledger es) s := by
  induction h with
  | boot => exact kin_booted
  | step hr hs ih =>
    rw [ledger, List.foldl_append]
    exact hs.kin ih hr.cpus

/-! ### Who collects whom -/

/-- The child a scan of `wait` looks at is a child of the scanning process. -/
def Checks (s : Sys) : Prop := ∀ q i, s.pc q = .waitCheck i → s.parent i = some q

namespace Checks

theorem goto (h : Checks s) {k : Pc} (hk : ∀ i, k = .waitCheck i → s.parent i = some q) :
    Checks (s.goto q k) := by
  intro p i hp
  rcases eq_or_ne p q with rfl | hne
  · exact hk i (by simpa [Sys.goto] using hp)
  · exact h p i (by simpa [Sys.goto, update_of_ne hne] using hp)

theorem goto_plain (h : Checks s) {k : Pc} (hk : ∀ i, k ≠ .waitCheck i) : Checks (s.goto q k) :=
  h.goto fun i hi => absurd hi (hk i)

/-- The parent of an entry changes that no scan looks at. -/
theorem setParent (h : Checks s) {w : Option Slot} (hi : ∀ q, s.pc q ≠ .waitCheck i) :
    Checks (s.setParent i w) := by
  intro p j hp
  have hne : j ≠ i := by rintro rfl; exact hi p hp
  simpa [Sys.setParent, update_of_ne hne] using h p j hp

end Checks

theorem Move.check {k k' : Pc} (h : Move s q k e k') {i : Slot} (hk : k' = .waitCheck i) :
    s.parent i = some q := by
  cases h with
  | waitFound j kids hj =>
    obtain rfl := Pc.waitCheck.inj hk
    exact hj
  | _ => exact absurd hk (by simp)

/-- **One step** keeps the scans at children of the scanning processes. -/
theorem Step.checks (h : Checks s) (hk : Kin L s) (hw : Waits s) (hs : Step s e t) : Checks t := by
  -- a process in the middle of a scan is the holder of `wait_lock`
  have hold : ∀ q i, s.pc q = .waitCheck i → s.waitLock = some q := fun q i hq =>
    (hw.hold q).1 (by rw [hq]; rfl)
  cases hs with
  | move c q ev k on hm => exact h.goto fun i hi => hm.check hi
  | body c q i ev x k on hl hb =>
    have hne : ∀ j, k ≠ .waitCheck j := by
      generalize s.pc q = k0 at hb
      cases hb <;> simp
    exact Checks.goto_plain (s := (s.put i x).release i) h hne
  | allocFail c q i on hl hp hu =>
    have hi : ∀ q, s.pc q ≠ .waitCheck i := fun q hq => by
      obtain ⟨-, n, hn, -⟩ := hk.parent i q (h q i hq)
      simp [(hk.used i).2 hu] at hn
    exact Checks.goto_plain (s := ((s.put i (s.entry i).free).setParent i none).release i)
      (Checks.setParent (s := s.put i (s.entry i).free) h hi) (by simp)
  | allocOk c q i on hl hp hu =>
    have h1 : Checks (s.goto i .user) := h.goto_plain (by simp)
    exact h1.goto_plain (q := q) (k := .forkParent i) (by simp)
  | forkParent c q np on hp hl =>
    have hi : ∀ q, s.pc q ≠ .waitCheck np := fun q hq => by
      simp [hold q np hq] at hl
    exact (h.setParent hi).goto_plain (by simp)
  | take c q k on ht hl =>
    have hne : ∀ j, k ≠ .waitCheck j := by
      generalize s.pc q = k0 at ht
      cases ht <;> simp
    exact Checks.goto_plain (s := s.setWait (some q)) h hne
  | reparentGive c q i st on hp hi =>
    have hq : s.waitLock = some q := (hw.hold q).1 (by rw [hp]; rfl)
    have hno : ∀ r, s.pc r ≠ .waitCheck i := fun r hr => by
      obtain rfl : q = r := Option.some.inj (hq.symm.trans (hold r i hr))
      exact absurd (hp.symm.trans hr) (by simp)
    exact Checks.goto_plain (s := (s.setParent i (some initproc)).setWake c (some (.proc initproc, 0)))
      (h.setParent hno) (by simp)
  | reparentEnd c q st on hp =>
    exact Checks.goto_plain (s := s.setWake c (some (parentChan (s.parent q), 0))) h (by simp)
  | waitNone c q on hp => exact Checks.goto_plain (s := s.setWait none) h (by simp)
  | waitFail c q i on hl hf =>
    exact Checks.goto_plain (s := (s.release i).setWait none) h (by simp)
  | collect c q i on hl hp hz =>
    -- the scan that has found the zombie ends, and there is no other
    have hq := hold q i hp
    have h1 : Checks (s.goto q .user) := h.goto_plain (by simp)
    refine h1.setParent (i := i) (w := none) fun r hr => ?_
    rcases eq_or_ne r q with rfl | hne
    · simp [Sys.goto] at hr
    · have hr' : s.pc r = .waitCheck i := by simpa [Sys.goto, update_of_ne hne] using hr
      exact hne (Option.some.inj ((hold r i hr').symm.trans hq))
  | leave c q ev d x k on hl hlv =>
    have hne : ∀ j, k ≠ .waitCheck j := by
      generalize s.pc q = k0 at hlv
      cases hlv <;> simp
    exact Checks.goto_plain (s := s) h hne
  | resume c q x k hcur hr hs hre =>
    refine Checks.goto (s := s) h fun i hi => ?_
    have hpc : s.pc q = .waitCheck i := by
      generalize s.pc q = k0 at hre
      cases hre with
      | yield => exact hi
      | _ => exact absurd hi (by simp)
    exact h q i hpc
  | _ => exact h

theorem Run.checks {es : List Ev} (h : Run es s) : Checks s := by
  induction h with
  | boot => exact fun q i hq => by simp [booted] at hq
  | step hr hs ih => exact hs.checks ih hr.kin hr.waits

/-- Only `wait` frees an entry, and only that of a zombie. -/
theorem Step.freed (hc : Cpus s) (hs : Step s e t) (hz : (s.entry z).state ≠ .UNUSED)
    (ht : (t.entry z).state = .UNUSED) :
    (s.entry z).state = .ZOMBIE ∧ ∃ p, e = .collected p z (s.entry z).pid (s.entry z).xstate := by
  have hch := hs.change hc z
  generalize s.entry z = x at hch hz
  generalize t.entry z = y at hch ht
  cases hch with
  | live _ _ _ hp hk hx hst =>
    rcases hst with hst | ⟨-, hst⟩
    · exact absurd (hst ▸ ht) hz
    · exact absurd ht hst.live.1
  | kill =>
    by_cases hs : x.state = .SLEEPING
    · simp [Entry.kill, hs] at ht
    · exact absurd (by simpa [Entry.kill, hs] using ht) hz
  | setkilled => exact absurd ht hz
  | born p n hx => exact absurd hx hz
  | fail hx => exact absurd hx hz
  | exited st hr => simp at ht
  | collected p hx => exact ⟨hx, p, rfl⟩

/-- When `wait` returns from a child, it has delivered its status or left the child as it is. -/
theorem Step.wait_returns (hk : Kin L s) (hs : Step s e t) {p : Slot} (hp : s.pc p = .waitCheck z)
    (ht : t.pc p = .user) :
    (∃ pid st, e = .collected p z pid st) ∨ (t.entry z = s.entry z ∧ t.parent z = s.parent z) := by
  have hgo : ∀ (u : Sys) (q : Slot) (k : Pc), u.pc = s.pc → (u.goto q k).pc p = .user →
      q = p ∧ k = .user := by
    intro u q k hu hpq
    rcases eq_or_ne p q with rfl | hne
    · exact ⟨rfl, by simpa [Sys.goto] using hpq⟩
    · have : u.pc p = .user := by simpa [Sys.goto, update_of_ne hne] using hpq
      simp [hu, hp] at this
  cases hs with
  | move c q ev k on hm => exact .inr ⟨rfl, rfl⟩
  | body c q i ev x k on hl hb =>
    obtain ⟨rfl, rfl⟩ := hgo ((s.put i x).release i) q k rfl ht
    rw [hp] at hb
    cases hb
  | allocFail c q i on hl hq hu =>
    obtain ⟨rfl, -⟩ := hgo (((s.put i (s.entry i).free).setParent i none).release i) q _ rfl ht
    exact absurd (hp.symm.trans hq) (by simp)
  | allocOk c q i on hl hq hu =>
    have hpi : p ≠ i := by
      rintro rfl
      rcases hk.dormant p (by rw [hu]; simp [PState.Awake]) with h | h <;>
        exact absurd (hp.symm.trans h) (by simp)
    have hpq : p ≠ q := by rintro rfl; exact absurd (hp.symm.trans hq) (by simp)
    have : s.pc p = .user := by
      simpa [Sys.goto, Sys.turn, Sys.release, Sys.put, update_of_ne hpi,
        update_of_ne hpq] using ht
    exact absurd (hp.symm.trans this) (by simp)
  | forkParent c q np on hq hl =>
    exact absurd (hgo (s.setParent np (some q)) q _ rfl ht).2 (by simp)
  | take c q k on hta hl =>
    obtain ⟨rfl, rfl⟩ := hgo (s.setWait (some q)) q k rfl ht
    rw [hp] at hta
    cases hta
  | reparentGive c q i st on hq hi =>
    exact absurd (hgo ((s.setParent i (some initproc)).setWake c (some (.proc initproc, 0))) q _ rfl
      ht).2 (by simp)
  | reparentEnd c q st on hq => exact .inr ⟨rfl, rfl⟩
  | waitNone c q on hq => exact .inr ⟨rfl, rfl⟩
  | waitFail c q i on hl hf => exact .inr ⟨rfl, rfl⟩
  | collect c q i on hl hq hzz =>
    obtain ⟨rfl, -⟩ := hgo ((((s.put i (s.entry i).free).setParent i none).release i).setWait none) q _
      rfl ht
    obtain rfl := Pc.waitCheck.inj (hp.symm.trans hq)
    exact .inl ⟨_, _, rfl⟩
  | leave c q ev d x k on hl hlv =>
    obtain ⟨rfl, rfl⟩ := hgo ((s.put q x).setWait (if d then none else s.waitLock)) q k rfl ht
    rw [hp] at hlv
    cases hlv
  | resume c q x k hcur hr hs hre =>
    obtain ⟨rfl, rfl⟩ := hgo ((s.put q x).release q) q k rfl ht
    rw [hp] at hre
    cases hre
  | _ => exact absurd (hp.symm.trans ht) (by simp)

/-- **Exit statuses are delivered exactly once.**  In every state of every run, with the ledger of what
has been seen:

* at most one status has been delivered for a process, the one it passed to `exit`, and only after it
  has become a zombie;
* a process that has become a zombie and for which nothing has been delivered is a zombie in the table,
  with that status;
* a `wait` that delivers a status delivers that of such a zombie and returns its pid, and it is called by
  the process that created the zombie, or by the first process after the creator has exited;
* nothing but such a `wait` frees an entry;
* a `wait` that returns from a zombie child without delivering leaves the child as it is. -/
theorem run_status {es : List Ev} (h : Run es s) :
    (∀ n, (ledger es).got n = [] ∨ ((ledger es).dead n = true ∧
      ∃ st, (ledger es).got n = [st] ∧ (ledger es).asked n = some st)) ∧
    (∀ n, (ledger es).dead n = true → (ledger es).got n = [] → ∃ z, (ledger es).id z = some n ∧
      (s.entry z).state = .ZOMBIE ∧ (ledger es).asked n = some (s.entry z).xstate) ∧
    (∀ t p z pid st, Step s (.collected p z pid st) t → pid = (s.entry z).pid ∧
      ∃ n m, (ledger es).id z = some n ∧ (ledger es).id p = some m ∧ (ledger es).dead n = true ∧
        (ledger es).got n = [] ∧ (ledger es).asked n = some st ∧
        ((ledger es).maker n = some m ∨ (p = initproc ∧
          ∃ m', (ledger es).maker n = some m' ∧ (ledger es).dead m' = true))) ∧
    (∀ e t z, Step s e t → (s.entry z).state ≠ .UNUSED → (t.entry z).state = .UNUSED →
      (s.entry z).state = .ZOMBIE ∧ ∃ p, e = .collected p z (s.entry z).pid (s.entry z).xstate) ∧
    (∀ e t p z, Step s e t → s.pc p = .waitCheck z → (s.entry z).state = .ZOMBIE → t.pc p = .user →
      (∃ pid st, e = .collected p z pid st) ∨
        (t.entry z = s.entry z ∧ t.parent z = s.parent z)) := by
  have hk := h.kin
  have hc := h.cpus
  refine ⟨fun n => ?_, fun n hd hg => ?_, fun t p z pid st hs => ?_, fun e t z hs => hs.freed hc,
    fun e t p z hs hp _ => hs.wait_returns hk hp⟩
  · rcases lt_or_ge n (ledger es).next with hn | hn
    · by_cases hz : ∃ z, (ledger es).id z = some n
      · obtain ⟨z, hz⟩ := hz
        exact .inl (hk.here z n hz)
      · push Not at hz
        exact .inr (hk.gone n hn hz)
    · exact .inl (hk.fresh n hn).2
  · by_contra hno
    push Not at hno
    have hn : n < (ledger es).next := by
      by_contra hn
      simp [(hk.fresh n (not_lt.1 hn)).1] at hd
    have hz : ∀ z, (ledger es).id z ≠ some n := fun z hz =>
      hno z hz ((hk.zombie z n hz).1 hd) (hk.xstate z n hz ((hk.zombie z n hz).1 hd))
    obtain ⟨-, st, hgot, -⟩ := hk.gone n hn hz
    simp [hg] at hgot
  · obtain ⟨c, on, hl, hp, hz, rfl, rfl⟩ := hs.collected
    obtain ⟨m, hm⟩ := hk.id_of_awake (.inr (.inr (hc.on_running on)))
    obtain ⟨-, n, hn, hmk⟩ := hk.parent z p (h.checks p z hp)
    refine ⟨rfl, n, m, hn, hm, (hk.zombie z n hn).2 hz, hk.here z n hn, hk.xstate z n hn hz, ?_⟩
    rcases hmk with hmk | ⟨hi, m', hm', hl'⟩
    · exact .inl (hmk.trans hm)
    · refine .inr ⟨hi, m', hm', hl'.resolve_right ?_⟩
      -- a creator still in `exit` would hold `wait_lock`, which this `wait` holds
      rintro ⟨r, -, hre⟩
      have hr : s.waitLock = some r := (h.waits.hold r).1 (by
        generalize s.pc r = k at hre
        cases k <;> first | rfl | exact absurd hre (by simp [Pc.exiting]))
      have hpq : s.waitLock = some p := (h.waits.hold p).1 (by rw [hp]; rfl)
      obtain rfl : r = p := Option.some.inj (hr.symm.trans hpq)
      simp [hp, Pc.exiting] at hre

/-- The first process creates a child, and `wait` delivers the status of the child. -/
theorem run_status_life : ∃ es s, Run es s ∧ es.filter (· ≠ .tau) = [.born initproc slot1,
      .exitCall slot1 7, .exited slot1, .collected initproc slot1 2 7] ∧ (ledger es).got 1 = [7] ∧
    ((ledger es).got 1 = [] ∨ ((ledger es).dead 1 = true ∧
      ∃ st, (ledger es).got 1 = [st] ∧ (ledger es).asked 1 = some st)) := by
  obtain ⟨-, -, s, -, -, -, -, es, h, he⟩ := seen_life
  refine ⟨es, s, h, he, ?_, (run_status h).1 1⟩
  rw [← ledger_filter, he]
  rfl

end Sched

end Xv6
