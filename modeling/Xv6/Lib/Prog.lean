import Mathlib.Tactic

/-!
# Programs over an explicit state that may stop

A program is a function from a state to a result: it returns a value and the next state, or it
stops, because it waits for another thread or because it has brought the machine down.  A stopped
program still shows the state in which it stopped, since a crash is observed there.

* `Stop`, `Res`, `Prog`, with the monad structure of `Prog σ`;
* `Prog.get`, `Prog.set`, `Prog.modify`, `Prog.panic`, `Prog.sleep`, `Prog.zoom`, `Prog.attempt`,
  `Prog.forRange`;
* `wp x Q A s`: started in `s`, the program `x` returns in a state where `Q` holds of its value,
  or stops in a state where `A` holds of the reason; with one rule for each program former;
* `Keeps v S x`: from any state, `x` leaves what `v` shows as it is and stops for reasons in `S`
  only, with one rule for each program former; `Stops S x` looks at the reasons alone;
* `runs exec es`: the events `es` one after the other, `Along ok exec es s`: each of them starts in
  a state that meets its condition, and the invariant rule `wp_runs` for such runs.
-/

namespace Stateful

/-- Why a program did not return. -/
inductive Stop
  /-- It waits for another thread. -/
  | sleep
  /-- It has halted the machine with a message. -/
  | panic (msg : String)
  deriving DecidableEq

/-- The result of running a program. -/
inductive Res (σ α : Type)
  | ok (a : α) (s : σ)
  | stop (w : Stop) (s : σ)

/-- A program over the state `σ` returning an `α`. -/
def Prog (σ α : Type) : Type := σ → Res σ α

variable {σ τ α β : Type}

/-- The state a run ends in, whether it returned or stopped. -/
def Res.state : Res σ α → σ
  | .ok _ s => s
  | .stop _ s => s

/-- The reason a run stopped, if it did. -/
def Res.stopped : Res σ α → Option Stop
  | .ok _ _ => none
  | .stop w _ => some w

/-- The value a run returned, if it did. -/
def Res.value : Res σ α → Option α
  | .ok a _ => some a
  | .stop _ _ => none

@[simp] theorem Res.state_ok (a : α) (s : σ) : (Res.ok a s).state = s := rfl
@[simp] theorem Res.state_stop (w : Stop) (s : σ) : (Res.stop w s : Res σ α).state = s := rfl
@[simp] theorem Res.stopped_ok (a : α) (s : σ) : (Res.ok a s).stopped = none := rfl
@[simp] theorem Res.stopped_stop (w : Stop) (s : σ) :
    (Res.stop w s : Res σ α).stopped = some w := rfl

/-- A run that did not stop has returned. -/
theorem Res.eq_ok_of_stopped {r : Res σ Unit} (h : r.stopped = none) : r = .ok () r.state := by
  cases r with
  | ok a s => rfl
  | stop w s => cases h

/-- A run with a value has returned it. -/
theorem Res.eq_ok_of_value {r : Res σ α} {a : α} (h : r.value = some a) : r = .ok a r.state := by
  cases r with
  | ok b s =>
    cases h
    rfl
  | stop w s => cases h

/-- A run that stopped. -/
theorem Res.eq_stop_of_stopped {r : Res σ α} {w : Stop} (h : r.stopped = some w) : r = .stop w r.state := by
  cases r with
  | ok a s => cases h
  | stop w' s =>
    cases h
    rfl

namespace Prog

/-- Run a result's value through the rest of a program. -/
def bind (x : Prog σ α) (f : α → Prog σ β) : Prog σ β := fun s =>
  match x s with
  | .ok a s' => f a s'
  | .stop w s' => .stop w s'

instance : Monad (Prog σ) where
  pure a := fun s => .ok a s
  bind := bind

theorem bind_assoc {γ : Type} (x : Prog σ α) (f : α → Prog σ β) (g : β → Prog σ γ) :
    x >>= f >>= g = x >>= fun a => f a >>= g := by
  funext s
  show bind (bind x f) g s = bind x (fun a => bind (f a) g) s
  unfold bind
  cases x s <;> rfl

/-- The current state. -/
def get : Prog σ σ := fun s => .ok s s

/-- Replace the state. -/
def set (s : σ) : Prog σ Unit := fun _ => .ok () s

/-- Apply a function to the state. -/
def modify (f : σ → σ) : Prog σ Unit := fun s => .ok () (f s)

/-- Halt the machine. -/
def panic (msg : String) : Prog σ α := fun s => .stop (.panic msg) s

/-- Wait for another thread. -/
def sleep : Prog σ α := fun s => .stop .sleep s

/-- Run a program on a component of a larger state. -/
def zoom (proj : σ → τ) (put : τ → σ → σ) (x : Prog τ α) : Prog σ α := fun s =>
  match x (proj s) with
  | .ok a t => .ok a (put t s)
  | .stop w t => .stop w (put t s)

/-- Take a step if it does not have to wait; a step that waits is not taken. -/
def attempt (x : Prog σ Unit) : Prog σ Unit := fun s =>
  match x s with
  | .stop .sleep _ => .ok () s
  | r => r

/-- The loop `for i = lo; i < lo + n; i++`. -/
def forRange : ℕ → ℕ → (ℕ → Prog σ Unit) → Prog σ Unit
  | _, 0, _ => pure ()
  | lo, n + 1, f => f lo >>= fun _ => forRange (lo + 1) n f

@[simp] theorem pure_run (a : α) (s : σ) : (pure a : Prog σ α) s = .ok a s := rfl
@[simp] theorem get_run (s : σ) : (get : Prog σ σ) s = .ok s s := rfl
@[simp] theorem set_run (s t : σ) : (set s : Prog σ Unit) t = .ok () s := rfl
@[simp] theorem modify_run (f : σ → σ) (s : σ) : modify f s = .ok () (f s) := rfl
@[simp] theorem panic_run (msg : String) (s : σ) :
    (panic msg : Prog σ α) s = .stop (.panic msg) s := rfl
@[simp] theorem sleep_run (s : σ) : (sleep : Prog σ α) s = .stop .sleep s := rfl

theorem bind_run (x : Prog σ α) (f : α → Prog σ β) (s : σ) :
    (x >>= f) s = match x s with
      | .ok a s' => f a s'
      | .stop w s' => .stop w s' := rfl

theorem bind_of_ok {x : Prog σ α} {s s' : σ} {a : α} (h : x s = .ok a s') (f : α → Prog σ β) :
    (x >>= f) s = f a s' := by
  rw [bind_run, h]

theorem bind_of_stop {x : Prog σ α} {s s' : σ} {w : Stop} (h : x s = .stop w s')
    (f : α → Prog σ β) : (x >>= f) s = .stop w s' := by
  rw [bind_run, h]

/-- A sequence returns exactly when both parts do. -/
theorem bind_eq_ok {x : Prog σ α} {f : α → Prog σ β} {s t : σ} {b : β} :
    (x >>= f) s = .ok b t ↔ ∃ a s', x s = .ok a s' ∧ f a s' = .ok b t := by
  rw [bind_run]
  cases x s with
  | ok a s' => simp
  | stop w s' => simp

end Prog

/-! ### Preconditions -/

/-- Started in `s`, the program returns with `Q` or stops with `A`. -/
def wp (x : Prog σ α) (Q : α → σ → Prop) (A : Stop → σ → Prop) (s : σ) : Prop :=
  match x s with
  | .ok a s' => Q a s'
  | .stop w s' => A w s'

section Rules

variable {Q Q' : α → σ → Prop} {R : β → σ → Prop} {A A' : Stop → σ → Prop} {s : σ}

theorem wp_of_ok {x : Prog σ α} {a : α} {s' : σ} (h : x s = .ok a s') (hq : Q a s') :
    wp x Q A s := by
  unfold wp; rw [h]; exact hq

theorem wp_of_stop {x : Prog σ α} {w : Stop} {s' : σ} (h : x s = .stop w s') (ha : A w s') :
    wp x Q A s := by
  unfold wp; rw [h]; exact ha

theorem wp_ok {x : Prog σ α} {a : α} {s' : σ} (h : wp x Q A s) (hx : x s = .ok a s') :
    Q a s' := by
  unfold wp at h; rw [hx] at h; exact h

theorem wp_stop {x : Prog σ α} {w : Stop} {s' : σ} (h : wp x Q A s) (hx : x s = .stop w s') :
    A w s' := by
  unfold wp at h; rw [hx] at h; exact h

/-- A program that cannot stop returns. -/
theorem wp_returns {x : Prog σ α} (h : wp x Q A s) (hA : ∀ w t, ¬ A w t) :
    ∃ a t, x s = .ok a t ∧ Q a t := by
  cases hx : x s with
  | ok a t => exact ⟨a, t, rfl, wp_ok h hx⟩
  | stop w t => exact absurd (wp_stop h hx) (hA w t)

@[simp] theorem wp_pure (a : α) : wp (pure a : Prog σ α) Q A s ↔ Q a s := Iff.rfl

@[simp] theorem wp_get {Q : σ → σ → Prop} : wp Prog.get Q A s ↔ Q s s := Iff.rfl

@[simp] theorem wp_set {Q : Unit → σ → Prop} (t : σ) : wp (Prog.set t) Q A s ↔ Q () t := Iff.rfl

@[simp] theorem wp_modify {Q : Unit → σ → Prop} (f : σ → σ) :
    wp (Prog.modify f) Q A s ↔ Q () (f s) := Iff.rfl

@[simp] theorem wp_panic (msg : String) :
    wp (Prog.panic msg : Prog σ α) Q A s ↔ A (.panic msg) s := Iff.rfl

@[simp] theorem wp_sleep : wp (Prog.sleep : Prog σ α) Q A s ↔ A .sleep s := Iff.rfl

/-- **Sequencing.** -/
@[simp] theorem wp_bind (x : Prog σ α) (f : α → Prog σ β) :
    wp (x >>= f) R A s ↔ wp x (fun a => wp (f a) R A) A s := by
  unfold wp
  rw [Prog.bind_run]
  cases x s <;> rfl

/-- A component's program needs what it needs there. -/
@[simp] theorem wp_zoom (proj : σ → τ) (put : τ → σ → σ) (x : Prog τ α) :
    wp (Prog.zoom proj put x) Q A s ↔
      wp x (fun a t => Q a (put t s)) (fun w t => A w (put t s)) (proj s) := by
  unfold wp Prog.zoom
  cases x (proj s) <;> rfl

/-- A step that waits leaves the state as it was. -/
theorem wp_attempt {x : Prog σ Unit} {Q : Unit → σ → Prop}
    (h : wp x Q (fun w t => (w = .sleep → Q () s) ∧ (w ≠ .sleep → A w t)) s) :
    wp (Prog.attempt x) Q A s := by
  unfold wp Prog.attempt at *
  cases hx : x s with
  | ok a t => rw [hx] at h; exact h
  | stop w t =>
    rw [hx] at h
    cases w with
    | sleep => exact h.1 rfl
    | panic msg => exact h.2 (by simp)

/-- **Consequence.** -/
theorem wp_mono {x : Prog σ α} (h : wp x Q A s) (hQ : ∀ a t, Q a t → Q' a t)
    (hA : ∀ w t, A w t → A' w t) : wp x Q' A' s := by
  unfold wp at h ⊢
  cases hx : x s with
  | ok a t => rw [hx] at h; exact hQ a t h
  | stop w t => rw [hx] at h; exact hA w t h

/-- Consequence for the postcondition alone. -/
theorem wp_post {x : Prog σ α} (h : wp x Q A s) (hQ : ∀ a t, Q a t → Q' a t) : wp x Q' A s :=
  wp_mono h hQ fun _ _ hw => hw

/-- Sequencing by way of a postcondition of the first part. -/
theorem wp_seq {x : Prog σ α} {f : α → Prog σ β} (h : wp x Q A s)
    (hf : ∀ a t, Q a t → wp (f a) R A t) : wp (x >>= f) R A s :=
  (wp_bind x f).2 (wp_post h hf)

/-- Two facts proved separately about one program hold together. -/
theorem wp_and {x : Prog σ α} (h : wp x Q A s) (h' : wp x Q' A' s) :
    wp x (fun a t => Q a t ∧ Q' a t) (fun w t => A w t ∧ A' w t) s := by
  unfold wp at h h' ⊢
  cases hx : x s with
  | ok a t => rw [hx] at h h'; exact ⟨h, h'⟩
  | stop w t => rw [hx] at h h'; exact ⟨h, h'⟩

/-- The result is the result of the run. -/
theorem wp_result (x : Prog σ α) : wp x (fun a t => x s = .ok a t) (fun w t => x s = .stop w t) s := by
  unfold wp
  cases hx : x s with
  | ok a t => exact rfl
  | stop w t => exact rfl

/-- Whatever the first part does. -/
theorem wp_bind_any {x : Prog σ α} {f : α → Prog σ β} (h : ∀ a t, wp (f a) R (fun _ _ => True) t) :
    wp (x >>= f) R (fun _ _ => True) s := by
  rw [wp_bind]
  unfold wp
  cases x s with
  | ok a t => exact h a t
  | stop w t => trivial

/-- **Loops.** An invariant of the counter and the state that every round carries on holds after
the last round. -/
theorem wp_forRange (I : ℕ → σ → Prop) {f : ℕ → Prog σ Unit} {lo n : ℕ} (h0 : I lo s)
    (hs : ∀ i t, lo ≤ i → i < lo + n → I i t → wp (f i) (fun _ => I (i + 1)) A t) :
    wp (Prog.forRange lo n f) (fun _ => I (lo + n)) A s := by
  induction n generalizing lo s with
  | zero => exact h0
  | succ n ih =>
    unfold Prog.forRange
    refine wp_seq (hs lo s le_rfl (by omega) h0) fun _ t ht => ?_
    rw [show lo + (n + 1) = lo + 1 + n by omega]
    exact ih ht fun i u h1 h2 => hs i u (by omega) (by omega)

end Rules

/-! ### Frames -/

/-- The program does not change what `v` shows of the state, and stops, if it does, for reasons in
`S`, from whatever state it starts. -/
structure Keeps {ν : Type} (v : σ → ν) (S : Stop → Prop) (x : Prog σ α) : Prop where
  wp_keeps : ∀ s, wp x (fun _ t => v t = v s) (fun w _ => S w) s

/-- The program stops, if it does, for reasons in `S`. -/
abbrev Stops (S : Stop → Prop) (x : Prog σ α) : Prop := Keeps (fun _ => ()) S x

section Keeps

variable {ν : Type} {v : σ → ν} {S S' : Stop → Prop}

@[simp] theorem keeps_pure (a : α) : Keeps v S (pure a : Prog σ α) := ⟨fun _ => rfl⟩

@[simp] theorem keeps_get : Keeps v S (Prog.get : Prog σ σ) := ⟨fun _ => rfl⟩

theorem keeps_modify {f : σ → σ} (h : ∀ s, v (f s) = v s) : Keeps v S (Prog.modify f) := ⟨h⟩

theorem keeps_panic {msg : String} (h : S (.panic msg)) : Keeps v S (Prog.panic msg : Prog σ α) :=
  ⟨fun _ => h⟩

@[simp] theorem stops_set (t : σ) : Stops S (Prog.set t) := ⟨fun _ => rfl⟩

@[simp] theorem stops_modify (f : σ → σ) : Stops S (Prog.modify f) := ⟨fun _ => rfl⟩

theorem keeps_bind {x : Prog σ α} {f : α → Prog σ β} (hx : Keeps v S x) (hf : ∀ a, Keeps v S (f a)) :
    Keeps v S (x >>= f) := by
  constructor
  intro s
  rw [wp_bind]
  refine wp_mono (hx.wp_keeps s) (fun a t ht => ?_) fun _ _ h => h
  exact wp_mono ((hf a).wp_keeps t) (fun _ u hu => hu.trans ht) fun _ _ h => h

theorem keeps_ite {c : Prop} [Decidable c] {x y : Prog σ α} (hx : c → Keeps v S x)
    (hy : ¬ c → Keeps v S y) : Keeps v S (if c then x else y) := by
  split_ifs with hc
  · exact hx hc
  · exact hy hc

theorem keeps_when {c : Prop} [Decidable c] {x : Prog σ α} {a : α} (hx : c → Keeps v S x) :
    Keeps v S (if c then x else pure a) := keeps_ite hx fun _ => keeps_pure a

theorem keeps_unless {c : Prop} [Decidable c] {y : Prog σ α} {a : α} (hy : ¬ c → Keeps v S y) :
    Keeps v S (if c then pure a else y) := keeps_ite (fun _ => keeps_pure a) hy

theorem keeps_forRange {f : ℕ → Prog σ Unit} (hf : ∀ i, Keeps v S (f i)) (lo n : ℕ) :
    Keeps v S (Prog.forRange lo n f) := by
  induction n generalizing lo with
  | zero => exact keeps_pure ()
  | succ n ih => exact keeps_bind (hf lo) fun _ => ih (lo + 1)

/-- A program on a component that the view does not show. -/
theorem keeps_zoom {proj : σ → τ} {put : τ → σ → σ} {x : Prog τ α} (hv : ∀ t s, v (put t s) = v s)
    (hx : Stops S x) : Keeps v S (Prog.zoom proj put x) := by
  constructor
  intro s
  rw [wp_zoom]
  exact wp_mono (hx.wp_keeps (proj s)) (fun _ t _ => hv t s) fun _ _ h => h

/-- A program that looks at the state first. -/
theorem keeps_get_bind {f : σ → Prog σ α}
    (h : ∀ s, wp (f s) (fun _ t => v t = v s) (fun w _ => S w) s) : Keeps v S (Prog.get >>= f) := by
  constructor
  intro s
  rw [wp_bind, wp_get]
  exact h s

/-- What the program keeps, used in a proof about a longer program. -/
theorem Keeps.wp_of {x : Prog σ α} {Q : α → σ → Prop} {A : Stop → σ → Prop} {s : σ}
    (hx : Keeps v S x) (hQ : ∀ a t, v t = v s → Q a t) (hA : ∀ w t, S w → A w t) : wp x Q A s :=
  wp_mono (hx.wp_keeps s) hQ hA

theorem Keeps.wp_post {x : Prog σ α} {Q : α → σ → Prop} {s : σ} (hx : Keeps v S x)
    (hQ : ∀ a t, v t = v s → Q a t) : wp x Q (fun w _ => S w) s :=
  hx.wp_of hQ fun _ _ hw => hw

theorem Keeps.wp_seq {x : Prog σ α} {f : α → Prog σ β} {R : β → σ → Prop} {s : σ} (hx : Keeps v S x)
    (hf : ∀ a t, v t = v s → wp (f a) R (fun w _ => S w) t) : wp (x >>= f) R (fun w _ => S w) s :=
  Stateful.wp_seq (hx.wp_keeps s) hf

/-- The same where it does not matter why a program stops. -/
theorem Keeps.wp_seq_any {x : Prog σ α} {f : α → Prog σ β} {R : β → σ → Prop} {s : σ} (hx : Keeps v S x)
    (hf : ∀ a t, v t = v s → wp (f a) R (fun _ _ => True) t) : wp (x >>= f) R (fun _ _ => True) s :=
  (wp_bind x f).2 (hx.wp_of hf fun _ _ _ => trivial)

theorem Keeps.mono {x : Prog σ α} (hx : Keeps v S x) (h : ∀ w, S w → S' w) : Keeps v S' x :=
  ⟨fun s => wp_mono (hx.wp_keeps s) (fun _ _ ht => ht) fun w _ => h w⟩

end Keeps

/-! ### Runs -/

section Runs

variable {ε : Type}

/-- Execute a list of events one after the other. -/
def runs (exec : ε → Prog σ Unit) : List ε → Prog σ Unit
  | [] => pure ()
  | e :: es => exec e >>= fun _ => runs exec es

/-- Every event of the run is executed in a state that meets its condition. -/
def Along (ok : σ → ε → Prop) (exec : ε → Prog σ Unit) : List ε → σ → Prop
  | [], _ => True
  | e :: es, s => ok s e ∧ ∀ s', exec e s = .ok () s' → Along ok exec es s'

/-- **Invariants of runs.** What every event preserves, when its condition is met, holds after a
run all of whose events meet their conditions. -/
theorem wp_runs {exec : ε → Prog σ Unit} {ok : σ → ε → Prop} {I : σ → Prop}
    {A : Stop → σ → Prop} (hs : ∀ e s, I s → ok s e → wp (exec e) (fun _ => I) A s)
    {es : List ε} {s : σ} (h0 : I s) (hok : Along ok exec es s) :
    wp (runs exec es) (fun _ => I) A s := by
  induction es generalizing s with
  | nil => exact h0
  | cons e es ih =>
    unfold runs
    rw [wp_bind]
    have he := hs e s h0 hok.1
    unfold wp at he ⊢
    cases hx : exec e s with
    | ok a t => rw [hx] at he; exact ih he (hok.2 t hx)
    | stop w t => rw [hx] at he; exact he

/-- A condition that always holds is met along every run. -/
theorem along_of_forall {exec : ε → Prog σ Unit} {ok : σ → ε → Prop} (h : ∀ s e, ok s e)
    (es : List ε) (s : σ) : Along ok exec es s := by
  induction es generalizing s with
  | nil => trivial
  | cons e es ih => exact ⟨h s e, fun s' _ => ih s'⟩

theorem Along.mono {exec : ε → Prog σ Unit} {ok ok' : σ → ε → Prop} (h : ∀ s e, ok s e → ok' s e)
    {es : List ε} {s : σ} (hs : Along ok exec es s) : Along ok' exec es s := by
  induction es generalizing s with
  | nil => trivial
  | cons e es ih => exact ⟨h s e hs.1, fun s' hs' => ih (hs.2 s' hs')⟩

/-- Check a condition along one run. -/
def alongB (ok : σ → ε → Bool) (exec : ε → Prog σ Unit) : List ε → σ → Bool
  | [], _ => true
  | e :: es, s => ok s e && match exec e s with
    | .ok _ s' => alongB ok exec es s'
    | .stop _ _ => true

theorem along_of_alongB {exec : ε → Prog σ Unit} {ok : σ → ε → Bool} {es : List ε} {s : σ}
    (h : alongB ok exec es s = true) : Along (fun s e => ok s e = true) exec es s := by
  induction es generalizing s with
  | nil => trivial
  | cons e es ih =>
    rw [alongB, Bool.and_eq_true] at h
    refine ⟨h.1, fun s' hs' => ih ?_⟩
    have h2 := h.2
    rwa [hs'] at h2

/-- A run stops where one of its events does. -/
theorem runs_stopped_iff {exec : ε → Prog σ Unit} {es : List ε} {s : σ} {w : Stop} :
    (runs exec es s).stopped = some w ↔ ∃ es₁ e es₂ t, es = es₁ ++ e :: es₂ ∧
      runs exec es₁ s = .ok () t ∧ (exec e t).stopped = some w := by
  induction es generalizing s with
  | nil =>
    constructor
    · intro h
      cases h
    · rintro ⟨es₁, e, es₂, t, h, -⟩
      simp at h
  | cons e es ih =>
    have hcons : ∀ es', runs exec (e :: es') s = (exec e >>= fun _ => runs exec es') s := fun _ => rfl
    cases he : exec e s with
    | stop v t =>
      rw [hcons, Prog.bind_of_stop he]
      constructor
      · intro h
        exact ⟨[], e, es, s, rfl, rfl, by rwa [he]⟩
      · rintro ⟨es₁, e', es₂, u, h1, h2, h3⟩
        cases es₁ with
        | nil =>
          obtain ⟨rfl, rfl⟩ := List.cons.inj h1
          cases h2
          rwa [he] at h3
        | cons e'' es₁ =>
          obtain ⟨rfl, -⟩ := List.cons.inj h1
          rw [show runs exec (e :: es₁) s = _ from Prog.bind_of_stop he _] at h2
          cases h2
    | ok a t =>
      rw [hcons, Prog.bind_of_ok he, ih]
      constructor
      · rintro ⟨es₁, e', es₂, u, rfl, h2, h3⟩
        exact ⟨e :: es₁, e', es₂, u, rfl, (Prog.bind_of_ok he _).trans h2, h3⟩
      · rintro ⟨es₁, e', es₂, u, h1, h2, h3⟩
        cases es₁ with
        | nil =>
          obtain ⟨rfl, rfl⟩ := List.cons.inj h1
          cases h2
          rw [he] at h3
          cases h3
        | cons e'' es₁ =>
          obtain ⟨rfl, rfl⟩ := List.cons.inj h1
          rw [show runs exec (e :: es₁) s = _ from Prog.bind_of_ok he _] at h2
          exact ⟨es₁, e', es₂, u, rfl, h2, h3⟩

/-- A run that returns has returned from every event on the way. -/
theorem runs_append_eq_ok {exec : ε → Prog σ Unit} {es fs : List ε} {s t : σ}
    (h : runs exec (es ++ fs) s = .ok () t) : ∃ u, runs exec es s = .ok () u ∧
    runs exec fs u = .ok () t := by
  induction es generalizing s with
  | nil => exact ⟨s, rfl, h⟩
  | cons e es ih =>
    obtain ⟨⟨⟩, u, hu, hrest⟩ := Prog.bind_eq_ok.1 (show (exec e >>= fun _ => runs exec (es ++ fs)) s
      = _ from h)
    obtain ⟨v, hv, ht⟩ := ih hrest
    exact ⟨v, (Prog.bind_of_ok hu _).trans hv, ht⟩

end Runs

end Stateful
