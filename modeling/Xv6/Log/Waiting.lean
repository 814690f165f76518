import Xv6.Log.Log

/-!
# Waiting for the log (`log.c`)

The sections of `begin_op`, `log_write` and `end_op` under `log.lock`, with the processes that sleep on
`&log`, and `commit`, which runs without the lock, one block at a time.  `log.lock` is held only inside a
step, so that every state is one in which it is free.  A panic ends the run: it is no step.

The processes are the elements of any finite type.  `pins` counts the pins that `log_write` and
`install_trans` put on the buffer of a block.

* `LogWait.step_of_beginOp`, `LogWait.step_of_logWrite`, `LogWait.step_of_endOp`: the functions of `Log` take
  these steps;
* `LogWait.Step.inv`, `LogWait.Reachable.inv`: the invariant of the state machine;
* `LogWait.reachable_log`: the counts, the pins, that `end_op` never finds a commit under way, and that
  whoever sleeps on `&log` still has to;
* `LogWait.reachable_installing`: inside `install_trans` a listed block may have lost its pin already.
-/

namespace Xv6

open Function List

namespace LogWait

/-- Where `commit` is. -/
inductive Stage
  /-- In `write_log`, with `tail` blocks copied. -/
  | writing (tail : ℕ)
  /-- In `install_trans`, with `tail` blocks installed. -/
  | installing (tail : ℕ)
  /-- Back in `end_op`, before `log.lock`. -/
  | done
  deriving DecidableEq

/-- Where a process is. -/
inductive Pc
  /-- In no operation. -/
  | out
  /-- In `begin_op`, about to look at the log. -/
  | begin
  /-- In `begin_op`, asleep on `&log`. -/
  | asleep
  /-- Between `begin_op` and `end_op`. -/
  | op
  /-- In `end_op`, in the commit. -/
  | commit (c : Stage)
  deriving DecidableEq

/-- The log and the processes that use it. -/
structure Sys (P : Type) where
  log : Log
  /-- The pins on the buffer of a block. -/
  pins : ℕ → ℕ
  pc : P → Pc

namespace Sys

variable {P : Type} [DecidableEq P]

/-- Process `p` goes on at `k`. -/
def goto (s : Sys P) (p : P) (k : Pc) : Sys P := { s with pc := update s.pc p k }

/-- `wakeup(&log)`. -/
def wakeup (s : Sys P) : Sys P := { s with pc := fun p => if s.pc p = .asleep then .begin else s.pc p }

/-- The condition on which `begin_op` sleeps. -/
def MustWait (s : Sys P) : Prop :=
  s.log.committing = true ∨
    (s.log.lh.length : ℤ) + (s.log.outstanding + 1) * MAXOPBLOCKS > LOGSIZE

/-- The section of `log_write` for block `b`: a block that is listed already is absorbed. -/
def logWrite (s : Sys P) (b : ℕ) : Sys P :=
  if b ∈ s.log.lh then s
  else { s with
    log := { s.log with lh := s.log.lh ++ [b] }
    pins := update s.pins b (s.pins b + 1) }

/-- `bunpin` on the buffer of block `b`. -/
def unpin (s : Sys P) (b : ℕ) : Sys P := { s with pins := update s.pins b (s.pins b - 1) }

/-- The operations between their `begin_op` and their `end_op`. -/
def ops [Fintype P] (s : Sys P) : Finset P := Finset.univ.filter fun p => s.pc p = .op

end Sys

variable {P : Type} [DecidableEq P]

/-- One step of one process. -/
inductive Step : Sys P → Sys P → Prop
  | call (s : Sys P) (p : P) (hp : s.pc p = .out) : Step s (s.goto p .begin)
  -- `begin_op`
  | wait (s : Sys P) (p : P) (hp : s.pc p = .begin) (h : s.MustWait) : Step s (s.goto p .asleep)
  | enter (s : Sys P) (p : P) (hp : s.pc p = .begin) (h : ¬ s.MustWait) :
      Step s ({ s with log := { s.log with outstanding := s.log.outstanding + 1 } }.goto p .op)
  /-- `kill` wakes a sleeper. -/
  | kill (s : Sys P) (p : P) (hp : s.pc p = .asleep) : Step s (s.goto p .begin)
  -- `log_write`
  | logWrite (s : Sys P) (p : P) (b : ℕ) (hp : s.pc p = .op)
      (hn : ¬ (s.log.lh.length ≥ LOGSIZE ∨ (s.log.lh.length : ℤ) ≥ s.log.size - 1))
      (ho : ¬ s.log.outstanding < 1) : Step s (s.logWrite b)
  -- `end_op`
  | endLast (s : Sys P) (p : P) (hp : s.pc p = .op) (hc : s.log.committing = false)
      (h : s.log.outstanding - 1 = 0) :
      Step s ({ s with log := { s.log with outstanding := s.log.outstanding - 1
                                           committing := true } }.goto p (.commit (.writing 0)))
  | endMore (s : Sys P) (p : P) (hp : s.pc p = .op) (hc : s.log.committing = false)
      (h : s.log.outstanding - 1 ≠ 0) :
      Step s ({ s with log := { s.log with outstanding := s.log.outstanding - 1 } }.goto p .out).wakeup
  -- `commit`
  | empty (s : Sys P) (p : P) (hp : s.pc p = .commit (.writing 0)) (hn : s.log.lh.length = 0) :
      Step s (s.goto p (.commit .done))
  | writeBlock (s : Sys P) (p : P) (t : ℕ) (hp : s.pc p = .commit (.writing t))
      (ht : t < s.log.lh.length) : Step s (s.goto p (.commit (.writing (t + 1))))
  | writeHead (s : Sys P) (p : P) (hp : s.pc p = .commit (.writing s.log.lh.length))
      (hn : 0 < s.log.lh.length) : Step s (s.goto p (.commit (.installing 0)))
  | install (s : Sys P) (p : P) (t : ℕ) (hp : s.pc p = .commit (.installing t))
      (ht : t < s.log.lh.length) :
      Step s ((s.unpin (s.log.lh.get ⟨t, ht⟩)).goto p (.commit (.installing (t + 1))))
  | clear (s : Sys P) (p : P) (hp : s.pc p = .commit (.installing s.log.lh.length)) :
      Step s ({ s with log := { s.log with lh := [] } }.goto p (.commit .done))
  /-- `log.committing = 0; wakeup(&log)`. -/
  | finish (s : Sys P) (p : P) (hp : s.pc p = .commit .done) :
      Step s ({ s with log := { s.log with committing := false } }.goto p .out).wakeup

/-- The log after `initlog` on a disk with an empty log. -/
def initial (start size : ℕ) : Sys P where
  log := ⟨start, size, 0, false, ROOTDEV, []⟩
  pins _ := 0
  pc _ := .out

/-- The states of the runs of the processes in `P`. -/
def Reachable (start size : ℕ) (s : Sys P) : Prop := Relation.ReflTransGen Step (initial start size) s

/-! ### The sections of the log functions are steps -/

section Sections

open Stateful

variable {s : Sys P} {p : P} {x y : LogSys}

theorem step_of_beginOp (hx : x.log = s.log) (hp : s.pc p = .begin) :
    beginOp x = .stop .sleep x ∧ Step s (s.goto p .asleep) ∨
      ∃ y t, beginOp x = .ok () y ∧ Step s t ∧ t.log = y.log ∧ t.pc p = .op := by
  by_cases h : s.MustWait
  · refine .inl ⟨?_, .wait s p hp h⟩
    rw [Sys.MustWait, ← hx] at h
    unfold beginOp
    rw [Prog.bind_of_ok (Prog.get_run x)]
    rcases h with h | h
    · rw [if_pos h]
      rfl
    · rw [if_pos h, ite_self]
      rfl
  · have hrun : beginOp x =
        .ok () { x with log := { x.log with outstanding := x.log.outstanding + 1 } } := by
      rw [Sys.MustWait, ← hx, not_or] at h
      unfold beginOp
      rw [Prog.bind_of_ok (Prog.get_run x), if_neg h.1, if_neg h.2]
      rfl
    exact .inr ⟨_, _, hrun, .enter s p hp h,
      congrArg (fun l : Log => { l with outstanding := l.outstanding + 1 }) hx.symm, update_self _ _ _⟩

theorem step_of_logWrite {i : Fin NBUF} (hx : x.log = s.log) (hp : s.pc p = .op)
    (h : Xv6.logWrite i x = .ok () y) : ∃ t, Step s t ∧ t.log = y.log ∧ t.pc p = .op := by
  unfold Xv6.logWrite at h
  rw [Prog.bind_of_ok (Prog.get_run x)] at h
  by_cases hn : x.log.lh.length ≥ LOGSIZE ∨ (x.log.lh.length : ℤ) ≥ x.log.size - 1
  · rw [if_pos hn] at h
    cases h
  rw [if_neg hn] at h
  by_cases ho : x.log.outstanding < 1
  · rw [if_pos ho] at h
    cases h
  rw [if_neg ho] at h
  dsimp only at h
  rw [hx] at hn ho h
  refine ⟨_, .logWrite s p (x.bio.buf i).blockno hp hn ho, ?_⟩
  unfold Sys.logWrite
  by_cases hb : (x.bio.buf i).blockno ∈ s.log.lh
  · rw [if_neg (not_not_intro hb)] at h
    cases h
    rw [if_pos hb]
    exact ⟨hx.symm, hp⟩
  · rw [if_pos hb] at h
    cases h
    rw [if_neg hb]
    exact ⟨congrArg (fun l : Log => { l with lh := l.lh ++ [(x.bio.buf i).blockno] }) hx.symm, hp⟩

theorem step_of_endOp {last : Bool} (hx : x.log = s.log) (hp : s.pc p = .op) (h : endOp x = .ok last y) :
    ∃ t, Step s t ∧ t.log = y.log ∧ t.pc p = if last then .commit (.writing 0) else .out := by
  unfold endOp at h
  rw [Prog.bind_of_ok (Prog.get_run x),
    Prog.bind_of_ok (Prog.set_run _ x)] at h
  by_cases hc : x.log.committing = true
  · rw [if_pos hc] at h
    cases h
  rw [if_neg hc] at h
  by_cases ho : x.log.outstanding - 1 = 0
  · rw [if_pos ho] at h
    cases h
    rw [hx] at hc ho
    exact ⟨_, .endLast s p hp (Bool.eq_false_of_not_eq_true hc) ho,
      congrArg (fun l : Log => { l with outstanding := l.outstanding - 1, committing := true }) hx.symm,
      update_self _ _ _⟩
  · rw [if_neg ho] at h
    cases h
    rw [hx] at hc ho
    refine ⟨_, .endMore s p hp (Bool.eq_false_of_not_eq_true hc) ho,
      congrArg (fun l : Log => { l with outstanding := l.outstanding - 1 }) hx.symm, ?_⟩
    show (if update s.pc p .out p = .asleep then Pc.begin else update s.pc p .out p) = .out
    rw [update_self, if_neg (by decide)]

end Sections

/-! ### The invariant -/

/-- The listed blocks that are pinned: `install_trans` has unpinned the first ones. -/
def Stage.pinned : Stage → List ℕ → List ℕ
  | .writing _, lh => lh
  | .installing t, lh => lh.drop t
  | .done, _ => []

/-- What holds between the steps, whoever sleeps. -/
structure Core [Fintype P] (s : Sys P) : Prop where
  count : s.log.outstanding = s.ops.card
  commit : s.log.committing = true ↔ ∃ p c, s.pc p = .commit c
  one : ∀ p q c c', s.pc p = .commit c → s.pc q = .commit c' → p = q
  /-- No operation is under way during a commit. -/
  alone : ∀ p q c, s.pc p = .commit c → s.pc q ≠ .op
  idle : s.log.committing = false → s.ops = ∅ → s.log.lh = []
  nodup : s.log.lh.Nodup
  done : ∀ p, s.pc p = .commit .done → s.log.lh = []
  pins : s.log.committing = false → ∀ b, s.pins b = if b ∈ s.log.lh then 1 else 0
  pinsCommit : ∀ p c, s.pc p = .commit c → ∀ b, s.pins b = if b ∈ c.pinned s.log.lh then 1 else 0

/-- What holds between the steps: whoever sleeps on `&log` has to. -/
structure Inv [Fintype P] (s : Sys P) : Prop extends Core s where
  asleep : ∀ p, s.pc p = .asleep → s.MustWait

/-- A position outside the operations and the commit. -/
def Pc.Outside (k : Pc) : Prop := k = .out ∨ k = .begin ∨ k = .asleep

theorem Pc.Outside.ne {k : Pc} (h : k.Outside) : k ≠ .op ∧ ∀ c, k ≠ .commit c := by
  rcases h with rfl | rfl | rfl <;> simp

variable {s t : Sys P} {p q : P} {k : Pc}

@[simp] theorem pc_goto_self : (s.goto p k).pc p = k := by simp [Sys.goto]

theorem pc_goto_of_ne (h : q ≠ p) : (s.goto p k).pc q = s.pc q := by
  simp [Sys.goto, update_of_ne h]

variable [Fintype P]

omit [DecidableEq P] in
theorem mem_ops : p ∈ s.ops ↔ s.pc p = .op := by simp [Sys.ops]

omit [DecidableEq P] in
theorem inv_initial (start size : ℕ) : Inv (initial start size : Sys P) := by
  refine ⟨⟨?_, ?_, ?_, ?_, ?_, ?_, ?_, ?_, ?_⟩, ?_⟩ <;> simp [initial, Sys.ops]

theorem ops_enter : (s.goto p .op).ops = insert p s.ops := by
  ext q
  rcases eq_or_ne q p with rfl | hne
  · simp [mem_ops]
  · simp [mem_ops, pc_goto_of_ne hne, hne]

/-- The operations when a process is in none afterwards. -/
theorem ops_leave (hk : k ≠ .op) : (s.goto p k).ops = s.ops.erase p := by
  ext q
  rcases eq_or_ne q p with rfl | hne
  · simp [mem_ops, hk]
  · simp [mem_ops, pc_goto_of_ne hne, hne]

/-- The operations when a process was in none before either. -/
theorem ops_same (hk : k ≠ .op) (hp : s.pc p ≠ .op) : (s.goto p k).ops = s.ops := by
  rw [ops_leave hk, Finset.erase_eq_of_notMem fun h => hp (mem_ops.1 h)]

namespace Core

omit [DecidableEq P] in
theorem not_committing (h : Core s) (hp : s.pc p = .op) : s.log.committing = false := by
  by_contra hc
  obtain ⟨q, c, hq⟩ := h.commit.1 (by simpa using hc)
  exact h.alone q p c hq hp

omit [DecidableEq P] in
theorem ne_commit (h : Core s) (hc : s.log.committing = false) (p : P) (c : Stage) :
    s.pc p ≠ .commit c := fun hp => by
  simp [h.commit.2 ⟨p, c, hp⟩] at hc

omit [DecidableEq P] in
/-- The invariant reads of the positions only who is in an operation and who commits. -/
theorem congr (h : Core s) (hlog : t.log = s.log) (hpins : t.pins = s.pins)
    (hcommit : ∀ q c, t.pc q = .commit c ↔ s.pc q = .commit c)
    (hop : ∀ q, t.pc q = .op ↔ s.pc q = .op) : Core t := by
  have hops : t.ops = s.ops := by
    ext q
    rw [mem_ops, mem_ops, hop]
  constructor
  case count => rw [hops, hlog]; exact h.count
  case commit => simpa only [hlog, hcommit] using h.commit
  case one => simpa only [hcommit] using h.one
  case alone => simpa only [hcommit, ne_eq, hop] using h.alone
  case idle => rw [hops, hlog]; exact h.idle
  case nodup => rw [hlog]; exact h.nodup
  case done => simpa only [hcommit, hlog] using h.done
  case pins => rw [hlog, hpins]; exact h.pins
  case pinsCommit => simpa only [hcommit, hlog, hpins] using h.pinsCommit

omit [DecidableEq P] in
theorem of_no_commit (hc : t.log.committing = false) (hno : ∀ q c, t.pc q ≠ .commit c)
    (hcount : t.log.outstanding = t.ops.card) (hidle : t.ops = ∅ → t.log.lh = [])
    (hnd : t.log.lh.Nodup) (hpins : ∀ b, t.pins b = if b ∈ t.log.lh then 1 else 0) : Core t := by
  constructor
  case count => exact hcount
  case commit =>
    refine ⟨fun hcc => ?_, fun ⟨q, c, hq⟩ => absurd hq (hno q c)⟩
    exact absurd (hc.symm.trans hcc) (by simp)
  case one => exact fun q _ c _ hq => absurd hq (hno q c)
  case alone => exact fun q _ c hq => absurd hq (hno q c)
  case idle => exact fun _ => hidle
  case nodup => exact hnd
  case done => exact fun q hq => absurd hq (hno q _)
  case pins => exact fun _ => hpins
  case pinsCommit => exact fun q c hq => absurd hq (hno q c)

omit [DecidableEq P] in
/-- The invariant while the process `p` commits. -/
theorem of_commit {c : Stage} (hc : t.log.committing = true) (hp : t.pc p = .commit c)
    (hone : ∀ q d, t.pc q = .commit d → q = p ∧ d = c) (hcount : t.log.outstanding = t.ops.card)
    (hops : ∀ q, t.pc q ≠ .op) (hnd : t.log.lh.Nodup) (hdone : c = .done → t.log.lh = [])
    (hpins : ∀ b, t.pins b = if b ∈ c.pinned t.log.lh then 1 else 0) : Core t := by
  constructor
  case count => exact hcount
  case commit => exact ⟨fun _ => ⟨p, c, hp⟩, fun _ => hc⟩
  case one =>
    intro q r d d' hq hr
    exact (hone q d hq).1.trans (hone r d' hr).1.symm
  case alone => exact fun _ r _ _ => hops r
  case idle => exact fun hcc => absurd (hc.symm.trans hcc) (by simp)
  case nodup => exact hnd
  case done => exact fun q hq => hdone (hone q _ hq).2.symm
  case pins => exact fun hcc => absurd (hc.symm.trans hcc) (by simp)
  case pinsCommit =>
    intro q d hq b
    rw [(hone q d hq).2]
    exact hpins b

/-- A process moves outside the operations and the commit. -/
theorem shift (h : Core s) (hp : (s.pc p).Outside) (hk : k.Outside) : Core (s.goto p k) := by
  refine h.congr rfl rfl (fun q c => ?_) (fun q => ?_)
  · rcases eq_or_ne q p with rfl | hne
    · simp [hk.ne.2 c, hp.ne.2 c]
    · rw [pc_goto_of_ne hne]
  · rcases eq_or_ne q p with rfl | hne
    · simp [hk.ne.1, hp.ne.1]
    · rw [pc_goto_of_ne hne]

omit [DecidableEq P] in
/-- After `wakeup(&log)` nobody sleeps. -/
theorem wakeup (h : Core s) : Inv s.wakeup := by
  refine ⟨h.congr rfl rfl (fun q c => ?_) (fun q => ?_), fun q hq => ?_⟩
  · by_cases hq : s.pc q = .asleep <;> simp [Sys.wakeup, hq]
  · by_cases hq : s.pc q = .asleep <;> simp [Sys.wakeup, hq]
  · by_cases hq' : s.pc q = .asleep <;> simp [Sys.wakeup, hq'] at hq

omit [Fintype P] in
/-- Nobody commits after a process has moved on, if nobody else did. -/
theorem ne_commit_goto (hk : ∀ c, k ≠ .commit c) (hno : ∀ q, q ≠ p → ∀ c, s.pc q ≠ .commit c) (q : P)
    (c : Stage) : (s.goto p k).pc q ≠ .commit c := by
  rcases eq_or_ne q p with rfl | hne
  · rw [pc_goto_self]
    exact hk c
  · rw [pc_goto_of_ne hne]
    exact hno q hne c

omit [Fintype P] in
/-- Only the process that has moved to the commit commits, if nobody else did. -/
theorem commit_goto {d : Stage} (hno : ∀ q, q ≠ p → ∀ c, s.pc q ≠ .commit c) (q : P) (c : Stage)
    (hq : (s.goto p (.commit d)).pc q = .commit c) : q = p ∧ c = d := by
  rcases eq_or_ne q p with rfl | hne
  · rw [pc_goto_self] at hq
    exact ⟨rfl, (Pc.commit.inj hq).symm⟩
  · rw [pc_goto_of_ne hne] at hq
    exact absurd hq (hno q hne c)

theorem enter (h : Core s) (hp : s.pc p = .begin) (hc : s.log.committing = false) :
    Core ({ s with log := { s.log with outstanding := s.log.outstanding + 1 } }.goto p .op) := by
  have hpn : p ∉ s.ops := fun hm => by
    simp [mem_ops, hp] at hm
  refine of_no_commit hc (ne_commit_goto (by simp) fun q _ => h.ne_commit hc q) ?_ (fun hops => ?_)
    h.nodup (h.pins hc)
  · rw [ops_enter]
    show s.log.outstanding + 1 = ((insert p s.ops).card : ℤ)
    rw [Finset.card_insert_of_notMem hpn, h.count]
    push_cast
    rfl
  · rw [ops_enter] at hops
    exact absurd hops (Finset.insert_ne_empty _ _)

theorem card_erase (h : Core s) (hp : s.pc p = .op) :
    s.log.outstanding - 1 = ((s.ops.erase p).card : ℤ) := by
  have hm : p ∈ s.ops := mem_ops.2 hp
  have := Finset.card_pos.2 ⟨p, hm⟩
  rw [Finset.card_erase_of_mem hm, h.count]
  omega

theorem leave (h : Core s) (hp : s.pc p = .op) (hl : s.log.outstanding - 1 ≠ 0) :
    Core ({ s with log := { s.log with outstanding := s.log.outstanding - 1 } }.goto p .out) := by
  have hc := h.not_committing hp
  refine of_no_commit hc (ne_commit_goto (by simp) fun q _ => h.ne_commit hc q) ?_ (fun hops => ?_)
    h.nodup (h.pins hc)
  · rw [ops_leave (by simp)]
    exact h.card_erase hp
  · rw [ops_leave (by simp)] at hops
    have := h.card_erase hp
    rw [show s.ops.erase p = ∅ from hops] at this
    exact absurd this hl

/-- The last operation of the group ends, and its process commits. -/
theorem endLast (h : Core s) (hp : s.pc p = .op) (hl : s.log.outstanding - 1 = 0) :
    Core ({ s with log := { s.log with outstanding := s.log.outstanding - 1
                                       committing := true } }.goto p (.commit (.writing 0))) := by
  have hc := h.not_committing hp
  have hempty : s.ops.erase p = ∅ := by
    have := h.card_erase hp
    rw [hl] at this
    exact Finset.card_eq_zero.1 (by omega)
  refine of_commit rfl pc_goto_self (commit_goto fun q _ => h.ne_commit hc q) ?_ (fun q hq => ?_)
    h.nodup (by simp) (h.pins hc)
  · rw [ops_leave (by simp)]
    exact h.card_erase hp
  · have hm := mem_ops.2 hq
    rw [ops_leave (by simp)] at hm
    replace hm : q ∈ s.ops.erase p := hm
    simp [hempty] at hm

/-- The committing process goes on in `commit`. -/
theorem advance (h : Core s) {c : Stage} (hp : s.pc p = .commit c) (c' : Stage) (lh : List ℕ)
    (pins : ℕ → ℕ) (hnd : lh.Nodup) (hd : c' = .done → lh = [])
    (hpins : ∀ b, pins b = if b ∈ c'.pinned lh then 1 else 0) :
    Core ({ s with log := { s.log with lh := lh }, pins := pins }.goto p (.commit c')) := by
  have hcm : s.log.committing = true := h.commit.2 ⟨p, c, hp⟩
  have hops : ({ s with log := { s.log with lh := lh }, pins := pins }.goto p (.commit c')).ops =
      s.ops := ops_same (by simp) (by show s.pc p ≠ .op; rw [hp]; simp)
  refine of_commit hcm pc_goto_self (commit_goto fun q hq d hd => hq (h.one q p d c hd hp)) ?_
    (fun q hq => ?_) hnd hd hpins
  · rw [hops]
    exact h.count
  · have hm := mem_ops.2 hq
    rw [hops] at hm
    exact h.alone p q c hp (mem_ops.1 hm)

theorem finish (h : Core s) (hp : s.pc p = .commit .done) :
    Core ({ s with log := { s.log with committing := false } }.goto p .out) := by
  have hlh := h.done p hp
  have hops : ({ s with log := { s.log with committing := false } }.goto p .out).ops = s.ops :=
    ops_same (by simp) (by show s.pc p ≠ .op; rw [hp]; simp)
  refine of_no_commit rfl (ne_commit_goto (by simp) fun q hq d hd => hq (h.one q p d _ hd hp)) ?_
    (fun _ => hlh) h.nodup fun b => ?_
  · rw [hops]
    exact h.count
  · have := h.pinsCommit p _ hp b
    show s.pins b = if b ∈ s.log.lh then 1 else 0
    rw [this, hlh]
    rfl

omit [DecidableEq P] in
theorem logWrite (h : Core s) (hp : s.pc p = .op) (b : ℕ) : Core (s.logWrite b) := by
  unfold Sys.logWrite
  by_cases hb : b ∈ s.log.lh
  · rwa [if_pos hb]
  rw [if_neg hb]
  have hc := h.not_committing hp
  refine ⟨h.count, h.commit, h.one, h.alone, fun _ hops => ?_, ?_,
    fun q hq => absurd hq (h.ne_commit hc q _),
    fun _ d => ?_, fun q c hq => absurd hq (h.ne_commit hc q c)⟩
  · have : p ∈ s.ops := mem_ops.2 hp
    simp [show s.ops = ∅ from hops] at this
  · exact nodup_append.2 ⟨h.nodup, nodup_singleton b, fun x hx y hy => by
      rw [mem_singleton.1 hy]
      rintro rfl
      exact hb hx⟩
  · have hd := h.pins hc d
    show update s.pins b (s.pins b + 1) d = if d ∈ s.log.lh ++ [b] then 1 else 0
    rcases eq_or_ne d b with rfl | hne
    · rw [update_self, h.pins hc d, if_neg hb]
      simp
    · rw [update_of_ne hne, hd]
      simp [hne]

end Core

/-! ### Steps and runs -/

omit [DecidableEq P] in
/-- A process moves, and the log is as full as before. -/
theorem Inv.of_core (h : Inv s) (hc : Core t)
    (ha : ∀ q, t.pc q = .asleep → s.pc q = .asleep) (hw : s.MustWait → t.MustWait) : Inv t :=
  ⟨hc, fun q hq => hw (h.asleep q (ha q hq))⟩

omit [Fintype P] in
/-- Whoever sleeps after another process has moved has slept before. -/
theorem asleep_goto (hk : k ≠ .asleep) (hpc : t.pc = s.pc) (q : P) (hq : (t.goto p k).pc q = .asleep) :
    s.pc q = .asleep := by
  rcases eq_or_ne q p with rfl | hne
  · rw [pc_goto_self] at hq
    exact absurd hq hk
  · rwa [pc_goto_of_ne hne, hpc] at hq

/-- **One step** keeps the invariant. -/
theorem Step.inv (h : Inv s) (hs : Step s t) : Inv t := by
  have hcore := h.toCore
  cases hs with
  | call p hp =>
    exact h.of_core (hcore.shift (.inl hp) (.inr (.inl rfl))) (asleep_goto (by simp) rfl) id
  | wait p hp hw =>
    refine ⟨hcore.shift (.inr (.inl hp)) (.inr (.inr rfl)), fun q hq => ?_⟩
    exact hw
  | enter p hp hw =>
    have hc : s.log.committing = false := by
      rw [← Bool.not_eq_true]
      exact fun hc => hw (.inl hc)
    refine h.of_core (hcore.enter hp hc) (asleep_goto (by simp) rfl) fun hw' => absurd hw' hw
  | kill p hp =>
    exact h.of_core (hcore.shift (.inr (.inr hp)) (.inr (.inl rfl))) (asleep_goto (by simp) rfl) id
  | logWrite p b hp hn ho =>
    refine h.of_core (hcore.logWrite hp b) ?_ ?_
    · intro q hq
      unfold Sys.logWrite at hq
      split_ifs at hq <;> exact hq
    · -- a longer list leaves less room
      unfold Sys.logWrite
      by_cases hb : b ∈ s.log.lh
      · rw [if_pos hb]
        exact id
      · rw [if_neg hb]
        rintro (hc | hlen)
        · exact .inl hc
        · have hle : (s.log.lh.length : ℤ) ≤ (s.log.lh ++ [b]).length := by simp
          exact .inr (lt_of_lt_of_le hlen (Int.add_le_add_right hle _))
  | endLast p hp hc hl =>
    exact h.of_core (hcore.endLast hp hl) (asleep_goto (by simp) rfl) fun _ => .inl rfl
  | endMore p hp hc hl => exact (hcore.leave hp hl).wakeup
  | empty p hp hn =>
    have hlh : s.log.lh = [] := length_eq_zero_iff.1 hn
    have := hcore.advance hp .done s.log.lh s.pins hcore.nodup (fun _ => hlh)
      fun b => by rw [hcore.pinsCommit p _ hp b, hlh]; rfl
    exact h.of_core this (asleep_goto (by simp) rfl) id
  | writeBlock p n hp hn =>
    have := hcore.advance hp (.writing (n + 1)) s.log.lh s.pins hcore.nodup
      (by simp) (hcore.pinsCommit p (.writing n) hp)
    exact h.of_core this (asleep_goto (by simp) rfl) id
  | writeHead p hp hn =>
    have := hcore.advance hp (.installing 0) s.log.lh s.pins hcore.nodup
      (by simp) (hcore.pinsCommit p (.writing s.log.lh.length) hp)
    exact h.of_core this (asleep_goto (by simp) rfl) id
  | install p n hp hn =>
    have hdrop : s.log.lh.drop n = s.log.lh[n] :: s.log.lh.drop (n + 1) := drop_eq_getElem_cons hn
    have hmem : ∀ b, b ∈ (Stage.installing n).pinned s.log.lh ↔
        b = s.log.lh[n] ∨ b ∈ (Stage.installing (n + 1)).pinned s.log.lh := by
      intro b
      show b ∈ s.log.lh.drop n ↔ _ ∨ b ∈ s.log.lh.drop (n + 1)
      rw [hdrop, mem_cons]
    have hnot : s.log.lh[n] ∉ (Stage.installing (n + 1)).pinned s.log.lh := by
      have hnd : (s.log.lh.drop n).Nodup := hcore.nodup.sublist (drop_sublist n _)
      rw [hdrop] at hnd
      exact (nodup_cons.1 hnd).1
    have hpins := hcore.pinsCommit p _ hp
    have := hcore.advance hp (.installing (n + 1)) s.log.lh
      ((s.unpin (s.log.lh.get ⟨n, hn⟩)).pins) hcore.nodup (by simp) fun b => by
        show update s.pins s.log.lh[n] (s.pins s.log.lh[n] - 1) b = _
        rcases eq_or_ne b s.log.lh[n] with rfl | hne
        · rw [update_self, hpins, if_pos ((hmem _).2 (.inl rfl)), if_neg hnot]
        · rw [update_of_ne hne, hpins b]
          exact if_congr (by rw [hmem]; simp [hne]) rfl rfl
    exact h.of_core this (asleep_goto (by simp) rfl) id
  | clear p hp =>
    have hcm : s.log.committing = true := hcore.commit.2 ⟨p, _, hp⟩
    have := hcore.advance hp .done [] s.pins nodup_nil (fun _ => rfl)
      fun b => by rw [hcore.pinsCommit p _ hp b]; simp [Stage.pinned]
    exact h.of_core this (asleep_goto (by simp) rfl) fun _ => .inl hcm
  | finish p hp => exact (hcore.finish hp).wakeup

/-- Every state of every run satisfies the invariant. -/
theorem Reachable.inv {start size : ℕ} (h : Reachable start size s) : Inv s := by
  induction h with
  | refl => exact inv_initial start size
  | tail _ hs ih => exact hs.inv ih

theorem one_iff_of_eq_ite {n : ℕ} {Q : Prop} [Decidable Q] (h : n = if Q then 1 else 0) :
    n ≤ 1 ∧ (n = 1 ↔ Q) := by
  by_cases hq : Q <;> simp [h, hq]

/-- **The log as a state machine**, in every state of every run of any number of processes:

* `outstanding` is the number of operations between `begin_op` and `end_op`;
* during a commit it is zero, and when it is zero and nobody commits the log is empty;
* no block is listed twice;
* the buffer of a block has one pin if the block is listed and `install_trans` has not installed it yet,
  and none otherwise;
* `end_op` never finds a commit under way;
* whoever sleeps on `&log` in `begin_op` still has to. -/
theorem reachable_log {start size : ℕ} (h : Reachable start size s) :
    s.log.outstanding = s.ops.card ∧
    (s.log.committing = true → s.log.outstanding = 0) ∧
    (s.log.outstanding = 0 → s.log.committing = false → s.log.lh = []) ∧
    s.log.lh.Nodup ∧
    (∀ b, s.pins b ≤ 1 ∧ (s.pins b = 1 ↔ b ∈ s.log.lh ∧
      ∀ p n, s.pc p = .commit (.installing n) → b ∉ s.log.lh.take n)) ∧
    (∀ p, s.pc p = .op → s.log.committing = false) ∧
    (∀ p, s.pc p = .asleep → s.MustWait) := by
  have hi := h.inv
  have hempty : s.log.committing = true → s.ops = ∅ := by
    intro hc
    obtain ⟨q, c, hq⟩ := hi.commit.1 hc
    refine Finset.eq_empty_of_forall_notMem fun p hp => ?_
    exact hi.alone q p c hq (mem_ops.1 hp)
  refine ⟨hi.count, fun hc => ?_, fun ho hc => ?_, hi.nodup, fun b => ?_, fun p => hi.not_committing,
    hi.asleep⟩
  · rw [hi.count, hempty hc]
    rfl
  · refine hi.idle hc (Finset.card_eq_zero.1 ?_)
    have := hi.count
    omega
  · by_cases hc : s.log.committing = true
    · obtain ⟨q, c, hq⟩ := hi.commit.1 hc
      have hone : ∀ p n, s.pc p = .commit (.installing n) → c = .installing n := by
        intro p n hp
        obtain rfl := hi.one p q _ _ hp hq
        exact Pc.commit.inj (hq.symm.trans hp)
      have hb := hi.pinsCommit q c hq b
      refine ⟨(one_iff_of_eq_ite hb).1, (one_iff_of_eq_ite hb).2.trans ?_⟩
      cases c with
      | writing n =>
        refine ⟨fun hb => ⟨hb, fun p m hp => absurd (hone p m hp) (by simp)⟩, And.left⟩
      | installing n =>
        have hsplit : s.log.lh.take n ++ s.log.lh.drop n = s.log.lh := take_append_drop n _
        have hdis : b ∈ s.log.lh.drop n → b ∉ s.log.lh.take n := fun hb hb' => by
          have hnd := hi.nodup
          rw [← hsplit] at hnd
          exact (nodup_append.1 hnd).2.2 b hb' b hb rfl
        constructor
        · intro hb
          refine ⟨mem_of_mem_drop hb, fun p m hp => ?_⟩
          obtain rfl := Stage.installing.inj (hone p m hp)
          exact hdis hb
        · rintro ⟨hb, hno⟩
          rw [← hsplit, mem_append] at hb
          exact hb.resolve_left (hno q n hq)
      | done =>
        have hlh := hi.done q hq
        simp [Stage.pinned, hlh]
    · have hc' : s.log.committing = false := by simpa using hc
      have hb := hi.pins hc' b
      refine ⟨(one_iff_of_eq_ite hb).1, (one_iff_of_eq_ite hb).2.trans
        ⟨fun hb => ⟨hb, fun p n hp => ?_⟩, And.left⟩⟩
      exact absurd hp (hi.ne_commit hc' p _)

/-- One process has logged block 5. -/
theorem reachable_log_oneOp : ∃ s : Sys Unit, Reachable 2 30 s ∧ s.pc () = .op ∧ s.log.lh = [5] ∧
    s.log.committing = false ∧ s.log.outstanding = s.ops.card := by
  have h : Relation.ReflTransGen Step (initial 2 30 : Sys Unit) _ :=
    Relation.ReflTransGen.refl
      |>.tail (.call _ () rfl)
      |>.tail (.enter _ () rfl (by simp [Sys.MustWait, Sys.goto, initial]))
      |>.tail (.logWrite _ () 5 rfl (by simp [Sys.goto, initial]) (by simp [Sys.goto, initial]))
  exact ⟨_, h, rfl, rfl, (reachable_log h).2.2.2.2.2.1 () rfl, (reachable_log h).1⟩

/-- One process has logged block 5 and is in `install_trans`: block 5 is still listed, and its buffer has
no pin any more. -/
theorem reachable_installing : ∃ s : Sys Unit, Reachable 2 30 s ∧
    s.pc () = .commit (.installing 1) ∧ s.log.lh = [5] ∧ s.pins 5 = 0 := by
  have h : Relation.ReflTransGen Step (initial 2 30 : Sys Unit) _ :=
    Relation.ReflTransGen.refl
      |>.tail (.call _ () rfl)
      |>.tail (.enter _ () rfl (by simp [Sys.MustWait, Sys.goto, initial]))
      |>.tail (.logWrite _ () 5 rfl (by simp [Sys.goto, initial]) (by simp [Sys.goto, initial]))
      |>.tail (.endLast _ () rfl rfl rfl)
      |>.tail (.writeBlock _ () 0 rfl (by decide))
      |>.tail (.writeHead _ () rfl (by decide))
      |>.tail (.install _ () 0 rfl (by decide))
  exact ⟨_, h, rfl, rfl, rfl⟩

end LogWait

end Xv6
