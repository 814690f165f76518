import Xv6.Sched.Cpus

/-!
# What a step does to an entry, and whom `kill` reaches

`Change` lists what one step can do to one entry of the process table, for the event an observer sees;
`Step.change` says that the list is complete.

`Blamed` follows a run and marks a process once a call `kill` with its pid is under way or `setkilled`
is called on it; a new process is not marked.  `kill` compares pids without looking at the state, so
that `kill(0)` finds an unused entry, and `allocproc` leaves the flag it sets there:

* `run_kill_unused`: a run in which a new process is killed though nobody has asked for it;
* `blamed_of_killed`: without calls of `kill(0)`, only marked processes are killed.
-/

namespace Xv6

namespace Sched

/-- The events that are about one entry. -/
def Ev.About : Ev → Slot → Prop
  | .born _ np, z => np = z
  | .exited p, z => p = z
  | .collected _ z' _ _, z => z' = z
  | .setkilled p, z => p = z
  | .tau, _ | .exitCall _ _, _ | .killing _, _ => False

/-- A process that is neither unused nor a zombie. -/
def PState.Live (st : PState) : Prop := st ≠ .UNUSED ∧ st ≠ .ZOMBIE

/-- A process that has been made runnable and has not exited. -/
def PState.Awake (st : PState) : Prop := st = .SLEEPING ∨ st = .RUNNABLE ∨ st = .RUNNING

theorem PState.Awake.live {st : PState} (h : st.Awake) : st.Live := by
  rcases h with rfl | rfl | rfl <;> simp [PState.Live]

/-- What a step with a given event can do to entry `z`. -/
inductive Change (z : Slot) : Entry → Ev → Entry → Prop
  /-- A process that lives goes on living. -/
  | live (x y : Entry) (e : Ev) (he : ¬ e.About z) (hp : y.pid = x.pid) (hk : y.killed = x.killed)
      (hx : y.xstate = x.xstate) (hs : y.state = x.state ∨ (x.state.Live ∧ y.state.Awake)) :
      Change z x e y
  | kill (x : Entry) : Change z x (.killing x.pid) x.kill
  | setkilled (x : Entry) (h : x.state = .RUNNING) :
      Change z x (.setkilled z) { x with killed := true }
  | born (x : Entry) (p : Slot) (n : BitVec 32) (h : x.state = .UNUSED) :
      Change z x (.born p z) (x.alloc n)
  | fail (x : Entry) (h : x.state = .UNUSED) : Change z x .tau x.free
  | exited (x : Entry) (st : BitVec 32) (h : x.state = .RUNNING) :
      Change z x (.exited z) { x with xstate := st, state := .ZOMBIE }
  | collected (x : Entry) (p : Slot) (h : x.state = .ZOMBIE) :
      Change z x (.collected p z x.pid x.xstate) x.free

variable {s t : Sys} {c : ℕ} {q i z : Slot} {e : Ev}

theorem Change.same (x : Entry) (he : ¬ e.About z) : Change z x e x :=
  .live x x e he rfl rfl rfl (.inl rfl)

/-- A step that replaces one entry and is about no other. -/
theorem Change.put {x : Entry} (hi : Change i (s.entry i) e x) (he : ∀ z, z ≠ i → ¬ e.About z)
    (z : Slot) : Change z (s.entry z) e ((s.put i x).entry z) := by
  rcases eq_or_ne z i with rfl | hne
  · simpa [Sys.put] using hi
  · simpa [Sys.put, Function.update_of_ne hne] using Change.same (s.entry z) (he z hne)

theorem Move.not_about {k k' : Pc} (h : Move s q k e k') (z : Slot) : ¬ e.About z := by
  cases h <;> exact id

/-- A section changes the entry it holds, and its event is about that entry only. -/
theorem Body.change {k k' : Pc} {x y : Entry} (h : Body q k i x e y k')
    (hu : k = .forkRun i → x.state = .USED) (hr : i = q → x.state = .RUNNING) :
    Change i x e y ∧ ∀ z, z ≠ i → ¬ e.About z := by
  cases h with
  | forkRun =>
    refine ⟨.live _ _ _ id rfl rfl rfl (.inr ?_), fun _ _ => id⟩
    rw [hu rfl]
    simp [PState.Live, PState.Awake]
  | killHit pid _ _ hp => exact ⟨hp ▸ .kill x, fun _ _ => id⟩
  | setkilled => exact ⟨.setkilled x (hr rfl), fun z hz => Ne.symm hz⟩
  | _ => exact ⟨.same x id, fun _ _ => id⟩

theorem Leave.change {k k' : Pc} {x y : Entry} {d : Bool} (h : Leave q k x e d y k')
    (hr : x.state = .RUNNING) : Change q x e y ∧ ∀ z, z ≠ q → ¬ e.About z := by
  cases h with
  | exit st => exact ⟨.exited x st hr, fun z hz => Ne.symm hz⟩
  | _ => exact ⟨.live _ _ _ id rfl rfl rfl (.inr (by simp [PState.Live, PState.Awake, hr])), fun _ _ => id⟩

theorem Resume.change {k k' : Pc} {x y : Entry} (h : Resume k x y k') : Change q x .tau y := by
  cases h with
  | yield => exact .same x id
  | _ => exact .live _ _ _ id rfl rfl rfl (.inl rfl)

theorem Entry.wakeup_change (ch : Chan) (x : Entry) : Change i x .tau (x.wakeup ch) := by
  unfold Entry.wakeup
  split_ifs with h
  · exact .live _ _ _ id rfl rfl rfl (.inr (by simp [PState.Live, PState.Awake, h.1]))
  · exact .same x id

/-- **One step** changes each entry in one of the ways listed. -/
theorem Step.change (hc : Cpus s) (hs : Step s e t) (z : Slot) :
    Change z (s.entry z) e (t.entry z) := by
  have hsame : Change z (s.entry z) .tau (s.entry z) := .same _ id
  cases hs with
  | schedRun c i hloc hr =>
    have hi : Change i (s.entry i) .tau { s.entry i with state := .RUNNING } :=
      .live _ _ _ id rfl rfl rfl (.inr (by simp [PState.Live, PState.Awake, hr]))
    exact Change.put hi (fun _ _ => id) z
  | move c q ev k on hm => exact .same _ (hm.not_about z)
  | body c q i ev x k on hl hb =>
    obtain ⟨h1, h2⟩ := hb.change (fun hk => hc.child q i (.inr hk))
      fun hi => hi ▸ hc.on_running on
    exact Change.put h1 h2 z
  | allocFail c q i on hl hp hu => exact Change.put (.fail _ hu) (fun _ _ => id) z
  | allocOk c q i on hl hp hu => exact Change.put (.born _ q _ hu) (fun z hz => Ne.symm hz) z
  | collect c q i on hl hp hz => exact Change.put (.collected _ q hz) (fun z hz => Ne.symm hz) z
  | leave c q ev d x k on hl hlv =>
    obtain ⟨h1, h2⟩ := hlv.change (hc.on_running on)
    exact Change.put h1 h2 z
  | yield c q hcur hr hw hs hl =>
    have hq : (s.entry q).state = .RUNNING := (hc.run q).2 ⟨c, hcur, hr, by rw [hs]; simp⟩
    have hi : Change q (s.entry q) .tau { s.entry q with state := .RUNNABLE } :=
      .live _ _ _ id rfl rfl rfl (.inr (by simp [PState.Live, PState.Awake, hq]))
    exact Change.put hi (fun _ _ => id) z
  | resume c q x k hcur hr hs hre => exact Change.put hre.change (fun _ _ => id) z
  | wakeBody c ch i hw hcur hl => exact Change.put (Entry.wakeup_change ch _) (fun _ _ => id) z
  | _ => exact hsame

/-! ### Whom `kill` reaches -/

/-- The marks after a step with event `e` from `s`. -/
def blame (s : Sys) (e : Ev) (b : Slot → Bool) (z : Slot) : Bool :=
  match e with
  | .born _ np => if np = z then false else b z
  | .killing pid => b z || (s.entry z).pid == pid
  | .setkilled p => b z || p == z
  | .tau | .exitCall _ _ | .exited _ | .collected _ _ _ _ => b z

/-- A run whose events satisfy `ok`, with the processes marked since their creation. -/
inductive Blamed (ok : Ev → Prop) : (Slot → Bool) → Sys → Prop
  | boot : Blamed ok (fun _ => false) booted
  | step {b : Slot → Bool} {s t : Sys} {e : Ev} (h : Blamed ok b s) (he : ok e) (hs : Step s e t) :
      Blamed ok (blame s e b) t

theorem Blamed.run {ok : Ev → Prop} {b : Slot → Bool} (h : Blamed ok b s) : ∃ es, Run es s := by
  induction h with
  | boot => exact ⟨_, .boot⟩
  | step _ _ hs ih =>
    obtain ⟨es, hes⟩ := ih
    exact ⟨_, hes.step hs⟩

/-- An unused entry has pid 0 and is not killed, and a killed process is marked. -/
structure Marks (b : Slot → Bool) (s : Sys) : Prop where
  unused : ∀ z, (s.entry z).state = .UNUSED → (s.entry z).pid = 0 ∧ (s.entry z).killed = false
  killed : ∀ z, (s.entry z).killed = true → b z = true

theorem marks_booted : Marks (fun _ => false) booted where
  unused := by decide
  killed := by decide

/-- **One step** keeps the marks right, unless it is part of a call `kill(0)`. -/
theorem Marks.step {b : Slot → Bool} (h : Marks b s) (he : e ≠ .killing 0)
    (hch : ∀ z, Change z (s.entry z) e (t.entry z)) : Marks (blame s e b) t := by
  refine ⟨fun z hz => ?_, fun z hz => ?_⟩
  · have hu := h.unused z
    have hz' := hch z
    generalize s.entry z = x at hz' hu
    generalize t.entry z = y at hz' hz
    cases hz' with
    | live _ _ _ hp hk hx hs =>
      rw [hp, hk]
      rcases hs with hs | ⟨-, hs⟩
      · exact hu (hs ▸ hz)
      · exact absurd hz hs.live.1
    | kill =>
      -- an unused entry has pid 0, which this call does not look for
      have hx : x.state = .UNUSED := by
        by_cases hs : x.state = .SLEEPING
        · simp [Entry.kill, hs] at hz
        · simpa [Entry.kill, hs] using hz
      exact absurd (congrArg Ev.killing (hu hx).1) he
    | setkilled hr =>
      simp [show x.state = .UNUSED from hz] at hr
    | born p n hx => simp [Entry.alloc] at hz
    | fail => exact ⟨rfl, rfl⟩
    | exited => simp at hz
    | collected => exact ⟨rfl, rfl⟩
  · have hu := h.unused z
    have hk := h.killed z
    have hz' := hch z
    generalize hx : s.entry z = x at hz' hu hk
    generalize t.entry z = y at hz' hz
    cases hz' with
    | live _ _ hab hp hkk hxs hs =>
      have hb := hk (hkk ▸ hz)
      cases e <;> simp_all [blame, Ev.About]
    | kill => simp [blame, hx]
    | setkilled hr => simp [blame]
    | born p n hxu =>
      -- the entry was not killed while it was unused
      rw [show x.killed = true from hz] at hu
      exact absurd (hu hxu).2 (by simp)
    | fail => simp [Entry.free] at hz
    | exited st hr => exact hk hz
    | collected => simp [Entry.free] at hz

/-- **`kill` reaches only its target**, in every run without calls of `kill(0)`: a process that has been
allocated and not freed is killed only if, since its creation, a call `kill` with its own pid was under
way or `setkilled` was called on it. -/
theorem blamed_of_killed {b : Slot → Bool} (h : Blamed (· ≠ .killing 0) b s) (z : Slot)
    (hk : (s.entry z).killed = true) : b z = true := by
  have hm : Marks b s := by
    clear hk
    induction h with
    | boot => exact marks_booted
    | step h he hs ih =>
      obtain ⟨es, hes⟩ := h.run
      exact ih.step he (hs.change hes.cpus)
  exact hm.killed z hk

/-- The first process calls `kill(0)`, which finds the unused second entry, and then `fork`, which takes
that entry: the new process is killed, and nobody has called `kill` with its pid. -/
theorem run_kill_unused : ∃ b s, Blamed (fun _ => True) b s ∧ (s.entry slot1).state = .USED ∧
    (s.entry slot1).pid = 2 ∧ (s.entry slot1).killed = true ∧ b slot1 = false := by
  have hboot : Blamed (fun _ => True) _ _ := .boot
  have hinit := ((hboot.step trivial (.schedLock _ 0 initproc rfl rfl rfl)).step trivial
    (.schedRun _ 0 initproc rfl rfl)).step trivial (.resume _ 0 initproc _ _ rfl rfl rfl
      (.yield .user _ (by simp) (by simp)))
  have hkill := (((((hinit.step trivial (.move _ 0 initproc _ _ ⟨rfl, rfl, rfl, rfl⟩ (.kill 0))).step
    trivial (.acquire _ 0 initproc initproc ⟨rfl, rfl, rfl, rfl⟩ (.kill 0 initproc) rfl)).step trivial
    (.body _ 0 initproc initproc _ _ _ ⟨rfl, rfl, rfl, rfl⟩ rfl
      (.killNext 0 initproc _ (by decide)))).step trivial
    (.acquire _ 0 initproc slot1 ⟨rfl, rfl, rfl, rfl⟩ (.kill 0 slot1) rfl))).step trivial
    (.body _ 0 initproc slot1 _ _ _ ⟨rfl, rfl, rfl, rfl⟩ rfl (.killHit 0 slot1 _ rfl))
  have hfork := (((((hkill.step trivial (.move _ 0 initproc _ _ ⟨rfl, rfl, rfl, rfl⟩ .fork)).step
    trivial (.acquire _ 0 initproc initproc ⟨rfl, rfl, rfl, rfl⟩ (.alloc initproc) rfl)).step trivial
    (.body _ 0 initproc initproc _ _ _ ⟨rfl, rfl, rfl, rfl⟩ rfl
      (.allocNext initproc _ (by decide)))).step trivial
    (.acquire _ 0 initproc slot1 ⟨rfl, rfl, rfl, rfl⟩ (.alloc slot1) rfl))).step trivial
    (.allocOk _ 0 initproc slot1 ⟨rfl, rfl, rfl, rfl⟩ rfl rfl rfl)
  exact ⟨_, _, hfork, rfl, rfl, rfl, rfl⟩

/-- The first process calls `kill` with its own pid. -/
theorem blamed_of_killed_init : ∃ b s, Blamed (· ≠ .killing 0) b s ∧
    (s.entry initproc).killed = true ∧ b initproc = true := by
  have hboot : Blamed (· ≠ .killing 0) _ _ := .boot
  have hinit := ((hboot.step (by simp) (.schedLock _ 0 initproc rfl rfl rfl)).step (by simp)
    (.schedRun _ 0 initproc rfl rfl)).step (by simp) (.resume _ 0 initproc _ _ rfl rfl rfl
      (.yield .user _ (by simp) (by simp)))
  have hkill := ((hinit.step (by simp) (.move _ 0 initproc _ _ ⟨rfl, rfl, rfl, rfl⟩ (.kill 1))).step
    (by simp) (.acquire _ 0 initproc initproc ⟨rfl, rfl, rfl, rfl⟩ (.kill 1 initproc) rfl)).step (by simp)
    (.body _ 0 initproc initproc _ _ _ ⟨rfl, rfl, rfl, rfl⟩ rfl (.killHit 1 initproc _ rfl))
  exact ⟨_, _, hkill, rfl, blamed_of_killed hkill initproc rfl⟩

end Sched

end Xv6
