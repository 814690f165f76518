import Xv6.Log.GroupCommit

/-!
# The space an operation may use

`begin_op` admits an operation when the header has room for `MAXOPBLOCKS` blocks of every admitted
operation, counted against `LOGSIZE`; `log_write` refuses a block when `log.size - 1` blocks are
listed.  The log that `mkfs` lays out has `LOGSIZE` blocks, one of them for the header, so the
reservation promises one block more than there is: three operations of `MAXOPBLOCKS` blocks each
bring the machine down (`three_full_operations`), operations of at most `MAXOPBLOCKS - 1` blocks
never do (`log_space`).
-/

namespace Xv6

open Stateful Bio List

/-- The number of log blocks `mkfs` lays out. -/
abbrev nlog : ℕ := LOGSIZE

/-- The distinct blocks an operation of the current group has logged. -/
def History.logged (h : History) (o : ℕ) : Finset ℕ :=
  ((h.cur.filter fun r => r.op = o).map LogRec.block).toFinset

/-- The distinct blocks the current group has logged. -/
def History.listed (h : History) : Finset ℕ := (h.cur.map LogRec.block).toFinset

/-- Whether with this step the operation has logged at most `n` distinct blocks. -/
def Machine.withinLimit (n : ℕ) (m : Machine) : Event → Bool
  | .logWrite p b =>
    match m.op p, m.held p b with
    | some o, some _ => (insert b (m.hist.logged o)).card ≤ n
    | _, _ => true
  | _ => true

namespace Machine

variable {g : Log} {d : ℕ → Block} {st : Option (ℕ × CommitPc)} {m m' : Machine} {p b : ℕ}

/-- What an operation may still log, with `MAXOPBLOCKS - 1` for each. -/
def spare (h : History) (o : ℕ) : ℕ := MAXOPBLOCKS - 1 - (h.logged o).card

/-- The listed blocks and what the active operations may still log fit the log, with one block to
spare. -/
structure Space (m : Machine) : Prop where
  idle : m.sys.log.committing = false → m.hist.active = [] → m.sys.log.lh = []
  used : ∀ o ∈ m.hist.active, (m.hist.logged o).card ≤ MAXOPBLOCKS - 1
  room : m.sys.log.lh.length + ∑ o ∈ m.hist.active.toFinset, spare m.hist o ≤ LOGSIZE - 2

theorem Space.congr (h : Space m) (hc : m'.sys.log.committing = m.sys.log.committing)
    (hl : m'.sys.log.lh = m.sys.log.lh) (hh : m'.hist = m.hist) : Space m' where
  idle := by rw [hc, hl, hh]; exact h.idle
  used := by rw [hh]; exact h.used
  room := by rw [hl, hh]; exact h.room

theorem logged_nextOp (h : m.hist.Ok) : m.hist.logged m.hist.nextOp = ∅ := by
  rw [History.logged, filter_eq_nil_iff.2, map_nil, toFinset_nil]
  intro r hr
  have := (h.cur r hr).2.1
  simp only [decide_eq_true_eq]
  omega

theorem spare_le (h : History) (o : ℕ) : spare h o ≤ MAXOPBLOCKS - 1 := Nat.sub_le _ _

/-- **Admission**: `begin_op` keeps the reservation. -/
theorem Space.begin (h : Space m) (hh : m.hist.Ok)
    (hout : m.sys.log.outstanding = m.hist.active.length) (hc : m.sys.log.committing = false)
    (hlt : ¬ (m.sys.log.lh.length : ℤ) + (m.sys.log.outstanding + 1) * MAXOPBLOCKS > LOGSIZE)
    (hl' : m'.sys.log.lh = m.sys.log.lh) (hh' : m'.hist = m.hist.begin) : Space m' := by
  have hactive : m.hist.begin.active = m.hist.active ++ [m.hist.nextOp] := rfl
  have hlogged : ∀ o, m.hist.begin.logged o = m.hist.logged o := fun o => rfl
  refine ⟨fun _ hnil => ?_, fun o ho => ?_, ?_⟩
  · rw [hh', hactive] at hnil
    simp at hnil
  · rw [hh', hlogged]
    rw [hh', hactive, mem_append, mem_singleton] at ho
    rcases ho with ho | rfl
    · exact h.used o ho
    · rw [logged_nextOp hh]
      simp
  · rw [hl', hh', hactive]
    -- each operation gets at most its whole share
    have hsum : ∑ o ∈ (m.hist.active ++ [m.hist.nextOp]).toFinset, spare m.hist.begin o ≤
        (m.hist.active.length + 1) * (MAXOPBLOCKS - 1) := by
      refine (Finset.sum_le_card_nsmul _ _ _ fun o _ => spare_le _ o).trans ?_
      rw [smul_eq_mul]
      refine Nat.mul_le_mul_right _ ((toFinset_card_le _).trans ?_)
      simp
    rw [hout] at hlt
    have hM : MAXOPBLOCKS = 10 := rfl
    have hL : LOGSIZE = 30 := rfl
    rw [hM, hL] at hlt
    rw [hM] at hsum
    rw [hL]
    rcases Nat.eq_zero_or_pos m.hist.active.length with h0 | hpos
    · have hlh := h.idle hc (length_eq_zero_iff.1 h0)
      rw [hlh, length_nil]
      rw [h0] at hsum
      omega
    · push_cast at hlt
      omega

theorem mem_listed_of_logged {h : History} {o : ℕ} (hb : b ∈ h.logged o) : b ∈ h.listed := by
  rw [History.logged, mem_toFinset, mem_map] at hb
  obtain ⟨r, hr, rfl⟩ := hb
  exact mem_toFinset.2 (mem_map_of_mem (mem_of_mem_filter hr))

theorem logged_log (h : History) (o : ℕ) (r : LogRec) :
    (h.log r).logged o = if r.op = o then insert r.block (h.logged o) else h.logged o := by
  ext c
  simp only [History.logged, History.log, filter_append, map_append, mem_toFinset,
    mem_append]
  split_ifs with hr
  · simp [hr, or_comm]
  · simp [hr]

/-- A block that is new to the operation costs it one of its share, and takes at most one more
entry of the header. -/
theorem Space.log (h : Space m) {o : ℕ} (ho : o ∈ m.hist.active) {v : Block}
    (hmem : ∀ c, c ∈ m.sys.log.lh ↔ c ∈ m.hist.cur.map LogRec.block)
    (hlimit : (insert b (m.hist.logged o)).card ≤ MAXOPBLOCKS - 1)
    (hl' : m'.sys.log.lh = if b ∈ m.sys.log.lh then m.sys.log.lh else m.sys.log.lh ++ [b])
    (hh' : m'.hist = m.hist.log ⟨o, b, v⟩) : Space m' := by
  have hactive : (m.hist.log ⟨o, b, v⟩).active = m.hist.active := rfl
  refine ⟨fun _ hnil => ?_, fun o' ho' => ?_, ?_⟩
  · rw [hh', hactive] at hnil
    rw [hnil] at ho
    cases ho
  · rw [hh', logged_log]
    rw [hh', hactive] at ho'
    split_ifs with heq
    · rwa [← heq]
    · exact h.used o' ho'
  · have hother : ∑ o' ∈ m.hist.active.toFinset.erase o, spare (m.hist.log ⟨o, b, v⟩) o' =
        ∑ o' ∈ m.hist.active.toFinset.erase o, spare m.hist o' := by
      refine Finset.sum_congr rfl fun o' ho' => ?_
      rw [spare, spare, logged_log, if_neg (Finset.ne_of_mem_erase ho').symm]
    have hin : o ∈ m.hist.active.toFinset := mem_toFinset.2 ho
    have hroom := h.room
    rw [← Finset.add_sum_erase _ _ hin] at hroom
    rw [hh', hactive, ← Finset.add_sum_erase _ _ hin, hother, hl']
    have hspare : spare (m.hist.log ⟨o, b, v⟩) o =
        MAXOPBLOCKS - 1 - (insert b (m.hist.logged o)).card := by
      rw [spare, logged_log, if_pos rfl]
    by_cases hb : b ∈ m.hist.logged o
    · -- logged before by the same operation: nothing changes
      have hlh : b ∈ m.sys.log.lh := (hmem b).2 (mem_toFinset.1 (mem_listed_of_logged hb))
      rwa [if_pos hlh, hspare, Finset.insert_eq_of_mem hb]
    · rw [Finset.card_insert_of_notMem hb] at hspare hlimit
      rw [hspare]
      rw [show spare m.hist o = MAXOPBLOCKS - 1 - (m.hist.logged o).card from rfl] at hroom
      split_ifs
      · omega
      · rw [length_append, length_singleton]
        omega

theorem Space.finish (h : Space m) {o : ℕ} (hlast : m.hist.active.erase o ≠ [])
    (hl' : m'.sys.log.lh = m.sys.log.lh)
    (hh' : m'.hist = m.hist.finish o) : Space m' := by
  have hactive : (m.hist.finish o).active = m.hist.active.erase o := rfl
  have hspare : ∀ o', spare (m.hist.finish o) o' = spare m.hist o' := fun _ => rfl
  refine ⟨fun _ hnil => ?_, fun o' ho' => ?_, ?_⟩
  · rw [hh', hactive] at hnil
    exact absurd hnil hlast
  · rw [hh', hactive] at ho'
    rw [hh']
    exact h.used o' (mem_of_mem_erase ho')
  · have hsub : (m.hist.active.erase o).toFinset ⊆ m.hist.active.toFinset := fun x hx =>
      mem_toFinset.2 (mem_of_mem_erase (mem_toFinset.1 hx))
    have := Finset.sum_le_sum_of_subset (f := spare m.hist) hsub
    rw [hl', hh', hactive]
    simp only [hspare]
    exact (Nat.add_le_add_left this _).trans h.room

theorem Space.of_no_active (hactive : m'.hist.active = [])
    (hidle : m'.sys.log.committing = false → m'.sys.log.lh = [])
    (hlen : m'.sys.log.lh.length ≤ LOGSIZE - 2) : Space m' where
  idle := fun hc _ => hidle hc
  used := by rw [hactive]; simp
  room := by
    rw [hactive]
    simpa using hlen

/-- The panic that says the log is full. -/
abbrev full : Stop := .panic "too big a transaction"

/-- A step that keeps the reservation and does not find the log full. -/
def SpaceOk (m : Machine) (x : Prog Machine Unit) : Prop :=
  wp x (fun _ m' => Space m → Space m') (fun w _ => w ≠ full) m

theorem space_beginOp (h : MachineInv g d st m) (p : ℕ) : SpaceOk m (m.step (.beginOp p)) := by
  rw [step]
  split_ifs with hp
  swap
  · exact id
  unfold SpaceOk
  rw [wp_bind, wp_call, beginOp, wp_bind, wp_get]
  split_ifs with hc hfull
  · rw [wp_sleep]
    decide
  · rw [wp_sleep]
    decide
  · rw [wp_set, wp_modify]
    intro hs
    exact hs.begin h.hist h.outstanding (by simpa using hc) hfull rfl rfl

/-- The in-memory header lists the distinct blocks of the group. -/
theorem length_lh (h : MachineInv g d none m) : m.sys.log.lh.length = m.hist.listed.card := by
  rw [← toFinset_card_of_nodup h.head.nodup, History.listed]
  congr 1
  ext c
  rw [mem_toFinset, mem_toFinset]
  exact h.stage.2.2 c

/-- `log_write` keeps the reservation within the limit, and finds the log full when `nlog - 1`
distinct blocks are logged. -/
theorem space_logWrite (h : MachineInv g d st m) (hsize : g.size = nlog) {o : ℕ} {i : Fin NBUF}
    (ho : m.op p = some o) (hi : m.held p b = some i) :
    wp (m.step (.logWrite p b))
      (fun _ m' => (m.withinLimit (MAXOPBLOCKS - 1) (.logWrite p b) = true → Space m → Space m') ∧
        ¬ nlog - 1 ≤ m.hist.listed.card)
      (fun w _ => w = full ∧ nlog - 1 ≤ m.hist.listed.card) m := by
  obtain rfl := h.stage_of_op ho
  obtain ⟨hat, hl⟩ := h.of_held hi
  have hlen := length_lh h
  have hL : LOGSIZE = 30 := rfl
  have hN : nlog = 30 := rfl
  have hz : m.sys.log.size = 30 := h.size.trans hsize
  rw [step, ho, hi]
  simp only
  rw [wp_bind, wp_call]
  refine wp_mono (wp_logWrite h.inv hat) ?_ ?_
  · rintro - t ⟨hroom, -, -, h3, -⟩
    rw [wp_modify]
    refine ⟨fun hlimit hs => ?_, ?_⟩
    · refine hs.log (h.op p o ho) h.stage.2.2 (by simpa [withinLimit, ho, hi] using hlimit) ?_ rfl
      show t.log.lh = _
      rw [h3]
    · rw [hz] at hroom
      omega
  · rintro w t ⟨-, hwhy⟩
    rcases hwhy with ⟨rfl, hfull⟩ | ⟨-, hout⟩
    · refine ⟨rfl, ?_⟩
      rw [hz] at hfull
      omega
    · -- an operation is active
      have hpos := length_pos_of_mem (h.op p o ho)
      rw [h.outstanding] at hout
      omega

theorem space_endOp (h : MachineInv g d st m) (p : ℕ) : SpaceOk m (m.step (.endOp p)) := by
  rw [step]
  cases ho : m.op p with
  | none => exact id
  | some o =>
    cases hun : m.unlogged p with
    | true => exact id
    | false =>
      obtain rfl := h.stage_of_op ho
      have hcom : m.sys.log.committing = false := h.committing
      have hlen := length_erase_active h ho
      unfold SpaceOk
      simp only [Bool.false_eq_true, if_false]
      rw [wp_bind, wp_call, endOp, wp_bind, wp_get, wp_bind, wp_set, hcom]
      simp only [Bool.false_eq_true, if_false]
      by_cases hlast : m.sys.log.outstanding - 1 = 0
      · rw [if_pos hlast, wp_bind, wp_modify, wp_pure, wp_bind, wp_modify]
        simp only [if_true]
        rw [goto, wp_modify]
        intro hs
        have hnil : m.hist.active.erase o = [] := by
          rw [hlast] at hlen
          exact length_eq_zero_iff.1 (by exact_mod_cast hlen)
        refine Space.of_no_active hnil (fun hc => ?_) ((Nat.le_add_right _ _).trans hs.room)
        cases hc
      · rw [if_neg hlast, wp_pure, wp_bind, wp_modify]
        simp only [Bool.false_eq_true, if_false]
        rw [wp_pure]
        intro hs
        refine hs.finish (fun hnil => hlast ?_) rfl rfl
        rw [← hlen, hnil]
        rfl

/-- A function that leaves the log structure alone and does not find the log full. -/
def Local {α : Type} (x : Prog LogSys α) : Prop :=
  ∀ s, wp x (fun _ t => t.log = s.log) (fun w _ => w ≠ full) s

namespace Local

variable {α β : Type}

theorem bind {x : Prog LogSys α} {f : α → Prog LogSys β} (hx : Local x) (hf : ∀ a, Local (f a)) :
    Local (x >>= f) := by
  intro s
  refine wp_seq (hx s) fun a t ht => ?_
  exact wp_post (hf a t) fun _ u hu => hu.trans ht

theorem get : Local Prog.get := fun _ => rfl

theorem io {x : Prog Bio α} (hx : ∀ s, wp x (fun _ _ => True) (fun w _ => w ≠ full) s) :
    Local (io x) := by
  intro s
  rw [wp_io]
  exact wp_post (hx s.bio) fun _ _ _ => rfl

theorem bread (pid dev b : ℕ) : Local (Xv6.io (bread pid dev b)) := by
  refine io fun s => ?_
  have hlock : ∀ i s, wp (acquiresleep pid i) (fun _ _ => True) (fun w _ => w ≠ full) s := by
    intro i s
    rw [acquiresleep, wp_bind, wp_get]
    cases (s.buf i).locked with
    | none => trivial
    | some q => exact (by decide : Stop.sleep ≠ full)
  rw [Xv6.bread, wp_bind, bget, wp_bind, wp_get]
  have hrest : ∀ i t, wp (do
      let s ← Prog.get
      if !(s.buf i).valid then
        virtioDiskRw i false
        Prog.modify fun s => s.upd i fun b => { b with valid := true }
      return i) (fun (_ : Fin NBUF) _ => True) (fun w _ => w ≠ full) t := by
    intro i t
    rw [wp_bind, wp_get]
    split_ifs
    · trivial
    · trivial
  cases s.cached dev b with
  | some i =>
    simp only [wp_bind, wp_set]
    exact wp_post (hlock i _) fun _ t _ => hrest i t
  | none =>
    cases s.unused with
    | some i =>
      simp only [wp_bind, wp_set]
      exact wp_post (hlock i _) fun _ t _ => hrest i t
    | none => exact (by decide : Stop.panic "bget: no buffers" ≠ full)

theorem bwrite (pid : ℕ) (i : Fin NBUF) : Local (Xv6.io (bwrite pid i)) := by
  refine io fun s => ?_
  rw [Xv6.bwrite, wp_bind, wp_get]
  split_ifs
  · exact (by decide : Stop.panic "bwrite" ≠ full)
  · trivial

theorem brelse (pid : ℕ) (i : Fin NBUF) : Local (Xv6.io (brelse pid i)) := by
  refine io fun s => ?_
  rw [Xv6.brelse, wp_bind, wp_get]
  split_ifs
  · exact (by decide : Stop.panic "brelse" ≠ full)
  · dsimp only
    split_ifs <;> trivial

theorem setData (i : Fin NBUF) (v : Block) : Local (Xv6.io (setData i v)) := io fun _ => trivial

theorem bunpin (i : Fin NBUF) : Local (Xv6.io (bunpin i)) := io fun _ => trivial

theorem writeOne (pid tail : ℕ) : Local (writeOne pid tail) :=
  get.bind fun _ => (bread _ _ _).bind fun _ => (bread _ _ _).bind fun _ => get.bind fun _ =>
    (setData _ _).bind fun _ => (bwrite _ _).bind fun _ => (brelse _ _).bind fun _ => brelse _ _

theorem installOne (pid tail : ℕ) : Local (installOne pid false tail) :=
  get.bind fun _ => (bread _ _ _).bind fun _ => (bread _ _ _).bind fun _ => get.bind fun _ =>
    (setData _ _).bind fun _ => (bwrite _ _).bind fun _ => (bunpin _).bind fun _ =>
    (brelse _ _).bind fun _ => brelse _ _

theorem writeHead (pid : ℕ) : Local (writeHead pid) :=
  get.bind fun _ => (bread _ _ _).bind fun _ => get.bind fun _ => (setData _ _).bind fun _ =>
    (bwrite _ _).bind fun _ => brelse _ _

end Local

theorem SpaceOk.of_local {x : Prog LogSys Unit} (hx : Local x) (f : Machine → Machine)
    (hf : ∀ m, (f m).sys = m.sys ∧ (f m).hist = m.hist) :
    SpaceOk m (call x >>= fun _ => Prog.modify f) := by
  unfold SpaceOk
  rw [wp_bind, wp_call]
  refine wp_post (hx m.sys) fun _ t ht => ?_
  rw [wp_modify]
  intro hs
  obtain ⟨h1, h2⟩ := hf { m with sys := t }
  exact hs.congr (by rw [h1, ht]) (by rw [h1, ht]) h2

theorem space_commitStep (h : MachineInv g d st m) (p : ℕ) :
    SpaceOk m (m.step (.commitStep p)) := by
  rw [step]
  cases hc : m.pc p with
  | none => exact id
  | some c =>
    have hst : st ≠ none := by
      rintro rfl
      rw [h.pc] at hc
      cases hc
    have hactive := (h.alone hst).1
    cases c with
    | writing tail =>
      unfold SpaceOk
      simp only
      rw [commitStep, wp_bind, wp_get]
      dsimp only
      split_ifs
      · exact fun hs => hs.congr rfl rfl rfl
      · exact SpaceOk.of_local (Local.writeOne p tail) _ fun _ => ⟨rfl, rfl⟩
      · exact SpaceOk.of_local (Local.writeHead p) _ fun _ => ⟨rfl, rfl⟩
    | installing tail =>
      unfold SpaceOk
      simp only
      rw [commitStep, wp_bind, wp_get]
      dsimp only
      split_ifs
      · exact SpaceOk.of_local (Local.installOne p tail) _ fun _ => ⟨rfl, rfl⟩
      · rw [wp_bind, wp_call, clearHead, wp_modify, wp_bind, wp_call]
        refine wp_post (Local.writeHead p _) fun _ t ht => ?_
        rw [goto, wp_modify]
        exact fun _ => Space.of_no_active hactive (fun _ => by rw [ht]) (by rw [ht]; simp)
    | done =>
      unfold SpaceOk
      simp only
      rw [commitStep, wp_bind, wp_call, endCommit, wp_modify, goto, wp_modify]
      intro hs
      refine Space.of_no_active hactive (fun _ => ?_) ((Nat.le_add_right _ _).trans hs.room)
      cases st with
      | none => exact absurd rfl hst
      | some qc =>
        obtain ⟨q, c'⟩ := qc
        rw [h.pc] at hc
        simp only [pcAt] at hc
        split_ifs at hc with hpq
        cases hc
        obtain ⟨gs, grp, l, -, -, h3, -⟩ := h.stage
        exact h3

/-- Every step but a `log_write` keeps the reservation and does not find the log full. -/
theorem space_step (h : MachineInv g d st m) {e : Event} (he : ∀ p b, e ≠ .logWrite p b) :
    SpaceOk m (m.step e) := by
  cases e with
  | beginOp p => exact space_beginOp h p
  | bread p b =>
    rw [step]
    split_ifs
    · unfold SpaceOk
      rw [wp_bind, wp_call]
      exact wp_post (Local.bread p ROOTDEV b m.sys)
        fun _ t ht hs => hs.congr (by rw [ht]) (by rw [ht]) rfl
    · exact id
  | modify p b v =>
    rw [step]
    split
    · exact SpaceOk.of_local (Local.setData _ v) _ fun _ => ⟨rfl, rfl⟩
    · exact id
  | logWrite p b => exact absurd rfl (he p b)
  | brelse p b =>
    rw [step]
    split
    · split_ifs
      · exact id
      · unfold SpaceOk
        rw [wp_call]
        exact wp_post (Local.brelse p _ m.sys)
          fun _ t ht hs => hs.congr (by rw [ht]) (by rw [ht]) rfl
    · exact id
  | endOp p => exact space_endOp h p
  | commitStep p => exact space_commitStep h p

/-- A `log_write` of a process that holds no such block in an operation is no step. -/
theorem step_logWrite_skip (h : m.op p = none ∨ m.held p b = none) :
    m.step (.logWrite p b) = pure () := by
  rw [step]
  rcases h with h | h
  · rw [h]
  · rw [h]
    cases m.op p <;> rfl

/-- **One step**: the log is found full by a `log_write` in an operation, exactly when `nlog - 1`
distinct blocks are logged in its group; and a step within the limit keeps the reservation. -/
theorem wp_exec_space (h : MachineInv g d st m) (hsize : g.size = nlog) (e : Event) :
    wp (exec e)
      (fun _ m' => (m.withinLimit (MAXOPBLOCKS - 1) e = true → Space m → Space m') ∧
        ¬ ∃ p b, e = .logWrite p b ∧ m.op p ≠ none ∧ m.held p b ≠ none ∧
          nlog - 1 ≤ m.hist.listed.card)
      (fun w _ => w = full ↔ ∃ p b, e = .logWrite p b ∧ m.op p ≠ none ∧ m.held p b ≠ none ∧
          nlog - 1 ≤ m.hist.listed.card) m := by
  refine wp_attempt ?_
  rw [wp_bind, wp_get]
  by_cases he : ∃ p b, e = .logWrite p b ∧ m.op p ≠ none ∧ m.held p b ≠ none
  · obtain ⟨p, b, rfl, ho, hi⟩ := he
    obtain ⟨o, ho⟩ := Option.ne_none_iff_exists'.1 ho
    obtain ⟨i, hi⟩ := Option.ne_none_iff_exists'.1 hi
    refine wp_mono (space_logWrite h hsize ho hi) ?_ ?_
    · rintro - m' ⟨h1, h2⟩
      refine ⟨h1, ?_⟩
      rintro ⟨p', b', -, -, -, hfull⟩
      exact h2 hfull
    · rintro w m' ⟨rfl, hfull⟩
      refine ⟨fun hs => absurd hs (by decide), fun _ => ⟨fun _ => ?_, fun _ => rfl⟩⟩
      exact ⟨p, b, rfl, by rw [ho]; simp, by rw [hi]; simp, hfull⟩
  · have hno : ¬ ∃ p b, e = .logWrite p b ∧ m.op p ≠ none ∧ m.held p b ≠ none ∧
        nlog - 1 ≤ m.hist.listed.card := by
      rintro ⟨p, b, h1, h2, h3, -⟩
      exact he ⟨p, b, h1, h2, h3⟩
    have hstep : SpaceOk m (m.step e) := by
      by_cases hlw : ∃ p b, e = .logWrite p b
      · obtain ⟨p, b, rfl⟩ := hlw
        rw [step_logWrite_skip]
        · exact id
        · by_contra hc
          rw [not_or] at hc
          exact he ⟨p, b, rfl, hc.1, hc.2⟩
      · exact space_step h fun p b hpb => hlw ⟨p, b, hpb⟩
    refine wp_mono hstep (fun _ m' hs => ⟨fun _ => hs, hno⟩) fun w m' hw => ?_
    exact ⟨fun _ => ⟨fun _ => id, hno⟩, fun _ => ⟨fun hf => absurd hf hw, fun hf => absurd hf hno⟩⟩

theorem boot_space (start : ℕ) (d : ℕ → Block) : Space (boot start nlog d) :=
  Space.of_no_active rfl (fun _ => rfl) (Nat.zero_le _)

theorem runs_within_limit {start : ℕ} (hd : decodeHead (d start) = []) {es : List Event}
    (h : Along (fun m e => m.withinLimit (MAXOPBLOCKS - 1) e = true) exec es (boot start nlog d)) :
    (runs exec es (boot start nlog d)).stopped ≠ some full := by
  have key : wp (runs exec es)
      (fun _ m => (∃ st, MachineInv (boot start nlog d).sys.log d st m) ∧ Space m)
      (fun w _ => w ≠ full) (boot start nlog d) := by
    refine wp_runs ?_ ⟨⟨none, boot_inv (by decide) hd⟩, boot_space start d⟩ h
    rintro e m ⟨⟨st, hinv⟩, hs⟩ hlimit
    refine wp_mono (wp_and (wp_exec hinv e) (wp_exec_space hinv rfl e)) ?_ ?_
    · rintro - m' ⟨⟨h1, -⟩, h2, -⟩
      exact ⟨h1, h2 hlimit hs⟩
    · -- a full log would hold one block more than the reservation allows
      rintro w m' ⟨-, hiff⟩ hw
      obtain ⟨p, b, -, ho, -, hfull⟩ := hiff.1 hw
      obtain ⟨o, ho⟩ := Option.ne_none_iff_exists'.1 ho
      obtain rfl := hinv.stage_of_op ho
      have hroom := hs.room
      have hlen := length_lh hinv
      have hL : LOGSIZE = 30 := rfl
      have hN : nlog = 30 := rfl
      omega
  cases hrun : runs exec es (boot start nlog d) with
  | ok a m => simp
  | stop w m =>
    have := wp_stop key hrun
    simpa using this

end Machine

open Machine in
/-- **The log space.** On the log that `mkfs` lays out, a run of any number of processes in any
interleaving panics with `too big a transaction` exactly when some `log_write` in an operation
comes after `nlog - 1` distinct blocks have been logged in its group; and this never happens when
every operation logs at most `MAXOPBLOCKS - 1` distinct blocks. -/
theorem log_space (start : ℕ) (d : ℕ → Block) (hd : decodeHead (d start) = []) (es : List Event) :
    ((runs exec es (boot start nlog d)).stopped = some (.panic "too big a transaction") ↔
      ∃ es₁ p b es₂ m, es = es₁ ++ .logWrite p b :: es₂ ∧
        runs exec es₁ (boot start nlog d) = .ok () m ∧ m.op p ≠ none ∧ m.held p b ≠ none ∧
        nlog - 1 ≤ m.hist.listed.card) ∧
    (Along (fun m e => m.withinLimit (MAXOPBLOCKS - 1) e = true) exec es (boot start nlog d) →
      (runs exec es (boot start nlog d)).stopped ≠ some (.panic "too big a transaction")) := by
  refine ⟨?_, runs_within_limit hd⟩
  rw [runs_stopped_iff]
  constructor
  · rintro ⟨es₁, e, es₂, m, rfl, hrun, hstop⟩
    obtain ⟨st, hinv⟩ := wp_ok (wp_runs_exec (by decide) hd es₁) hrun
    cases he : exec e m with
    | ok a m' =>
      rw [he] at hstop
      cases hstop
    | stop w m' =>
      rw [he] at hstop
      obtain rfl := Option.some.inj hstop
      obtain ⟨p, b, rfl, ho, hi, hfull⟩ := (wp_stop (wp_exec_space hinv rfl e) he).1 rfl
      exact ⟨es₁, p, b, es₂, m, rfl, hrun, ho, hi, hfull⟩
  · rintro ⟨es₁, p, b, es₂, m, rfl, hrun, ho, hi, hfull⟩
    obtain ⟨st, hinv⟩ := wp_ok (wp_runs_exec (by decide) hd es₁) hrun
    refine ⟨es₁, .logWrite p b, es₂, m, rfl, hrun, ?_⟩
    cases he : exec (.logWrite p b) m with
    | ok a m' =>
      have := (wp_ok (wp_exec_space hinv rfl (.logWrite p b)) he).2
      exact absurd ⟨p, b, rfl, ho, hi, hfull⟩ this
    | stop w m' =>
      have := (wp_stop (wp_exec_space hinv rfl (.logWrite p b)) he).2 ⟨p, b, rfl, ho, hi, hfull⟩
      rw [this]
      rfl

theorem log_space_oneOp :
    decodeHead (fun _ => 0) = [] ∧
    (runs Machine.exec oneOpEvents (boot 2 nlog fun _ _ => 0)).stopped ≠
      some (.panic "too big a transaction") :=
  ⟨by decide, (log_space 2 (fun _ _ => 0) (by decide) oneOpEvents).2
    (along_of_alongB (by decide +kernel))⟩

/-- Three operations that log `MAXOPBLOCKS` distinct blocks each. -/
def threeOps : List Event :=
  [.beginOp 0, .beginOp 1, .beginOp 2] ++ (List.range 30).flatMap fun k =>
    [.bread (k / 10) (100 + k), .logWrite (k / 10) (100 + k), .brelse (k / 10) (100 + k)]

/-- **The reservation is one block short**: three operations of `MAXOPBLOCKS` blocks are admitted
together, and their last `log_write` panics. -/
theorem three_full_operations :
    Along (fun m e => m.withinLimit MAXOPBLOCKS e = true) Machine.exec threeOps
      (boot 2 nlog fun _ _ => 0) ∧
    (runs Machine.exec threeOps (boot 2 nlog fun _ _ => 0)).stopped =
      some (.panic "too big a transaction") :=
  ⟨along_of_alongB (by decide +kernel), by decide +kernel⟩

end Xv6
