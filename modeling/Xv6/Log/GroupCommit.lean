import Xv6.Log.Machine
import Xv6.Log.Recovery

/-!
# Group commit: an invariant of every interleaving

`MachineInv` ties the log, the cache, the disk and the history of the operations together, at every
point of every run.  Outside a commit the disk holds the groups handed to `commit` so far, the cache
shows in addition what the current group has logged, and the in-memory header lists exactly the
blocks of the current group, each pinned.  During a commit no operation is active, and the store is
in one of the phases of the commit of the last group.

From it follow the two results of the module: what a crash leaves (`group_commit_atomic`), and what
a reader sees and when a home block is written (`cache_log_one_array`).
-/

namespace Xv6

open Stateful Bio Function List

/-! ### Histories -/

/-- The operations of a group have numbers of their own: a group is whole operations. -/
structure History.Ok (h : History) : Prop where
  base_le : h.base ≤ h.nextOp
  nodup : h.active.Nodup
  active : ∀ o ∈ h.active, h.base ≤ o ∧ o < h.nextOp
  cur : ∀ r ∈ h.cur, h.base ≤ r.op ∧ r.op < h.nextOp ∧ (r.op ∈ h.active ∨ r.op ∈ h.ended)
  groups : ∀ g ∈ h.groups, ∀ r ∈ g, r.op < h.base ∧ r.op ∈ h.ended
  sorted : h.groups.Pairwise fun g g' => ∀ r ∈ g, ∀ r' ∈ g', r.op < r'.op

namespace History.Ok

variable {h : History}

theorem begin (H : h.Ok) : h.begin.Ok where
  base_le := by
    have := H.base_le
    simp only [History.begin]
    omega
  nodup := by
    refine nodup_append.2 ⟨H.nodup, by simp, ?_⟩
    intro o ho o' ho'
    have := (H.active o ho).2
    rw [mem_singleton] at ho'
    omega
  active := by
    intro o ho
    have := H.base_le
    simp only [History.begin, mem_append, mem_singleton] at ho ⊢
    rcases ho with ho | rfl
    · have := H.active o ho
      omega
    · omega
  cur := by
    intro r hr
    obtain ⟨h1, h2, h3⟩ := H.cur r hr
    refine ⟨h1, Nat.lt_succ_of_lt h2, ?_⟩
    rcases h3 with h3 | h3
    · exact Or.inl (mem_append_left _ h3)
    · exact Or.inr h3
  groups := H.groups
  sorted := H.sorted

theorem log (H : h.Ok) {r : LogRec} (hr : r.op ∈ h.active) : (h.log r).Ok where
  base_le := H.base_le
  nodup := H.nodup
  active := H.active
  cur := by
    intro r' hr'
    rcases mem_append.1 hr' with hr' | hr'
    · exact H.cur r' hr'
    · obtain rfl := mem_singleton.1 hr'
      exact ⟨(H.active _ hr).1, (H.active _ hr).2, Or.inl hr⟩
  groups := H.groups
  sorted := H.sorted

theorem finish (H : h.Ok) (o : ℕ) : (h.finish o).Ok where
  base_le := H.base_le
  nodup := H.nodup.erase o
  active := fun o' ho' => H.active o' (mem_of_mem_erase ho')
  cur := by
    intro r hr
    obtain ⟨h1, h2, h3⟩ := H.cur r hr
    refine ⟨h1, h2, ?_⟩
    by_cases hro : r.op = o
    · exact Or.inr (mem_append_right _ (by simp [hro]))
    · rcases h3 with h3 | h3
      · exact Or.inl ((mem_erase_of_ne hro).2 h3)
      · exact Or.inr (mem_append_left _ h3)
  groups := by
    intro g hg r hr
    obtain ⟨h1, h2⟩ := H.groups g hg r hr
    exact ⟨h1, mem_append_left _ h2⟩
  sorted := H.sorted

/-- A group may be handed to `commit` when no operation is active. -/
theorem close (H : h.Ok) (hnil : h.active = []) : h.close.Ok where
  base_le := le_rfl
  nodup := H.nodup
  active := by
    intro o ho
    rw [show h.close.active = [] from hnil] at ho
    cases ho
  cur := by
    intro r hr
    cases hr
  groups := by
    intro g hg r hr
    rcases mem_append.1 hg with hg | hg
    · obtain ⟨h1, h2⟩ := H.groups g hg r hr
      exact ⟨lt_of_lt_of_le h1 H.base_le, h2⟩
    · obtain rfl := mem_singleton.1 hg
      obtain ⟨-, h2, h3⟩ := H.cur r hr
      rw [hnil] at h3
      exact ⟨h2, h3.resolve_left (by simp)⟩
  sorted := by
    refine pairwise_append.2 ⟨H.sorted, pairwise_singleton _ _, ?_⟩
    intro g hg g' hg' r hr r' hr'
    obtain rfl := mem_singleton.1 hg'
    exact lt_of_lt_of_le (H.groups g hg r hr).1 (H.cur r' hr').1

/-- An operation in one of the first `k` groups has ended, and all it has logged is in those. -/
theorem whole (H : h.Ok) (k : ℕ) {r : LogRec} (hr : r ∈ (h.groups.take k).flatten) :
    r.op ∈ h.ended ∧ ∀ r' ∈ (h.groups.drop k).flatten ++ h.cur, r'.op ≠ r.op := by
  obtain ⟨g, hg, hrg⟩ := mem_flatten.1 hr
  obtain ⟨hlt, hend⟩ := H.groups g (mem_of_mem_take hg) r hrg
  refine ⟨hend, fun r' hr' => ?_⟩
  rcases mem_append.1 hr' with hr' | hr'
  · obtain ⟨g', hg', hrg'⟩ := mem_flatten.1 hr'
    have hsorted := H.sorted
    rw [← take_append_drop k h.groups, pairwise_append] at hsorted
    have := hsorted.2.2 g hg g' hg' r hrg r' hrg'
    omega
  · have := (H.cur r' hr').1
    omega

end History.Ok

theorem groupWrites_concat (gs : List (List LogRec)) (g : List LogRec) :
    groupWrites (gs ++ [g]) = groupWrites gs ++ g.map fun r => (r.block, r.data) := by
  simp [groupWrites]

/-- Blocks that a group has not logged keep their contents. -/
theorem applyWrites_groupWrites_of_not_mem {d : ℕ → Block} (gs : List (List LogRec))
    {g : List LogRec} {b : ℕ} (hb : b ∉ g.map LogRec.block) :
    applyWrites d (groupWrites (gs ++ [g])) b = applyWrites d (groupWrites gs) b := by
  rw [groupWrites_concat, applyWrites_append, applyWrites_of_not_mem]
  simpa using hb

/-! ### The invariant -/

/-- The blocks pinned on behalf of the log. -/
def pinnedAt : Option CommitPc → List ℕ → List ℕ
  | some (.installing t), lh => lh.drop t
  | some .done, _ => []
  | _, lh => lh

/-- Where the processes are in `commit`: at most one is. -/
def pcAt (st : Option (ℕ × CommitPc)) (p : ℕ) : Option CommitPc :=
  match st with
  | some (q, c) => if p = q then some c else none
  | none => none

/-- The disk, the cache and the history, outside and inside a commit. -/
def Stage (g : Log) (d : ℕ → Block) (lh : List ℕ) (a : Store) (h : History) :
    Option CommitPc → Prop
  | none =>
      g.area.listed a.disk = [] ∧
      (∀ b, g.area.Home b → a.disk b = applyWrites d (groupWrites h.groups) b) ∧
      ∀ b, b ∈ lh ↔ b ∈ h.cur.map LogRec.block
  | some c =>
      ∃ gs grp l, h.groups = gs ++ [grp] ∧ g.HeadOk l ∧ lh = (if c = .done then [] else l) ∧
        (∀ b ∈ grp.map LogRec.block, b ∈ l) ∧
        Phase g (applyWrites d (groupWrites gs)) (applyWrites d (groupWrites h.groups)) l a c

/-- The invariant of the machine that started with the log `g` on the disk `d`, when `st` says who
is where in `commit`. -/
structure MachineInv (g : Log) (d : ℕ → Block) (st : Option (ℕ × CommitPc)) (m : Machine) :
    Prop where
  start : m.sys.log.start = g.start
  size : m.sys.log.size = g.size
  dev : m.sys.log.dev = ROOTDEV
  inv : m.sys.bio.Inv
  head : g.HeadOk m.sys.log.lh
  hist : m.hist.Ok
  pc : m.pc = pcAt st
  committing : m.sys.log.committing = st.isSome
  outstanding : m.sys.log.outstanding = m.hist.active.length
  op : ∀ p o, m.op p = some o → o ∈ m.hist.active
  op_inj : ∀ p q o, m.op p = some o → m.op q = some o → p = q
  /-- During a commit no operation is active. -/
  alone : st ≠ none → m.hist.active = [] ∧ m.hist.cur = []
  /-- The processes hold home blocks only. -/
  held : ∀ b, m.sys.bio.abs.holder b ≠ none → g.area.Home b ∧ b < 2 ^ 32
  /-- A modified block that is not logged is held by an operation. -/
  dirty : ∀ b, m.dirty b = true → ∃ p o, m.sys.bio.abs.holder b = some p ∧ m.op p = some o
  /-- A holder and a pin are two references. -/
  refs : ∀ b, (if m.sys.bio.abs.holder b = none then 0 else 1) +
    (if b ∈ pinnedAt (st.map Prod.snd) m.sys.log.lh then 1 else 0) ≤ m.sys.bio.abs.refs b
  /-- The cache shows what has been logged. -/
  view : ∀ b, g.area.Home b → m.dirty b = false →
    m.sys.bio.abs.view b = applyWrites d m.hist.trace b
  stage : Stage g d m.sys.log.lh m.sys.bio.abs m.hist (st.map Prod.snd)

/-- A stage depends on the contents of the blocks only. -/
theorem Stage.congr {g : Log} {d : ℕ → Block} {lh : List ℕ} {a a' : Store} {h : History}
    {c : Option CommitPc} (hs : Stage g d lh a h c) (hd : a'.disk = a.disk)
    (hv : a'.view = a.view) : Stage g d lh a' h c := by
  cases c with
  | none => simpa only [Stage, hd] using hs
  | some c =>
    obtain ⟨gs, grp, l, h1, h2, h3, h4, h5⟩ := hs
    exact ⟨gs, grp, l, h1, h2, h3, h4, h5.congr hd hv⟩

namespace MachineInv

variable {g : Log} {d : ℕ → Block} {st : Option (ℕ × CommitPc)} {m : Machine} {p b : ℕ}

/-- A home block without a pin has its logged contents on the disk. -/
theorem disk_of_not_pinned (h : MachineInv g d st m) (hb : g.area.Home b)
    (hp : b ∉ pinnedAt (st.map Prod.snd) m.sys.log.lh) :
    m.sys.bio.disk b = applyWrites d m.hist.trace b := by
  have hstage := h.stage
  cases st with
  | none =>
    obtain ⟨-, h2, h3⟩ := hstage
    have hcur : b ∉ m.hist.cur.map LogRec.block := fun hm => hp ((h3 b).2 hm)
    rw [History.trace, applyWrites_groupWrites_of_not_mem _ hcur]
    exact h2 b hb
  | some qc =>
    obtain ⟨q, c⟩ := qc
    obtain ⟨gs, grp, l, h1, h2, h3, h4, h5⟩ := hstage
    have htrace : applyWrites d m.hist.trace = applyWrites d (groupWrites m.hist.groups) := by
      rw [History.trace, (h.alone (by simp)).2, groupWrites_concat]
      simp
    have hold : b ∉ l → applyWrites d (groupWrites m.hist.groups) b =
        applyWrites d (groupWrites gs) b := fun hm => by
      rw [h1]
      exact applyWrites_groupWrites_of_not_mem gs fun hc => hm (h4 b hc)
    rw [htrace]
    cases c with
    | writing t =>
      rw [hold (by simpa [pinnedAt, h3] using hp)]
      exact h5.2.1 b hb
    | installing t =>
      -- what is left of the list after `t` blocks is what still has a pin
      obtain ⟨-, k2, -, -, k5⟩ := h5
      have hp' : b ∉ l.drop t := by simpa [pinnedAt, h3] using hp
      by_cases hm : b ∈ l
      · obtain ⟨j, hj, rfl⟩ := getElem_of_mem hm
        refine k5 j hj ?_
        by_contra hle
        refine hp' (mem_iff_getElem.2 ⟨j - t, by simp; omega, ?_⟩)
        simp only [getElem_drop]
        congr 1
        omega
      · rw [hold hm]
        exact k2 b hb hm
    | done =>
      obtain ⟨-, k2⟩ := h5
      have := k2 b hb
      rw [abs_disk] at this
      rw [this]
      split_ifs with hm
      · rfl
      · exact (hold hm).symm

theorem of_held (h : MachineInv g d st m) {i : Fin NBUF} (hi : m.held p b = some i) :
    m.sys.bio.At i b ∧ m.sys.bio.abs.holder b = some p := by
  rw [Machine.held, Option.filter_eq_some_iff] at hi
  obtain ⟨hc, hl⟩ := hi
  have hat := (cached_eq_some h.inv).1 hc
  refine ⟨hat, ?_⟩
  rw [holder_at h.inv hat]
  simpa [holdingsleep] using hl

theorem stage_of_op (h : MachineInv g d st m) {o : ℕ} (ho : m.op p = some o) : st = none := by
  by_contra hst
  have := h.op p o ho
  rw [(h.alone hst).1] at this
  cases this

/-- **What a crash leaves**: the groups handed to `commit`, all of them, or all but the one whose
commit has not reached its header. -/
theorem crash (h : MachineInv g d st m) :
    g.area.Fits (g.area.listed m.sys.bio.disk) ∧
    ∃ k, (k = m.hist.groups.length ∨
        k + 1 = m.hist.groups.length ∧ m.sys.log.committing = true) ∧
      ∀ b, g.area.Home b → g.area.redo m.sys.bio.disk b =
        applyWrites d (groupWrites (m.hist.groups.take k)) b := by
  have hstage := h.stage
  cases st with
  | none =>
    obtain ⟨h1, h2, -⟩ := hstage
    rw [abs_disk] at h1
    refine ⟨?_, _, Or.inl rfl, fun b hb => ?_⟩
    · rw [h1]
      exact Area.Fits.nil (by have := h.head.room; omega)
    · rw [Area.redo_of_listed_nil h1, take_length]
      exact h2 b hb
  | some qc =>
    obtain ⟨q, c⟩ := qc
    obtain ⟨gs, grp, l, h1, h2, -, h4, h5⟩ := hstage
    refine ⟨h5.fits h2, if c.committed then m.hist.groups.length else gs.length, ?_, fun b hb => ?_⟩
    · split_ifs with hc
      · exact Or.inl rfl
      · refine Or.inr ⟨by simp [h1], by rw [h.committing]; rfl⟩
    · have hredo := h5.redo h2 hb
      rw [abs_disk] at hredo
      rw [hredo]
      cases hc : c.committed with
      | false => simp [h1]
      | true =>
        by_cases hm : b ∈ l
        · simp [hm]
        · simp only [hm, and_false, if_false, if_true, take_length]
          rw [h1]
          exact (applyWrites_groupWrites_of_not_mem gs fun hc => hm (h4 b hc)).symm

end MachineInv

/-! ### The steps -/

/-- A home block is written only when the header on the disk lists it, that header is the one of
the transaction, and what is written is what was logged. -/
def WriteAhead (g : Log) (d : ℕ → Block) (m m' : Machine) : Prop :=
  ∃ ws, m'.sys.bio.writes = m.sys.bio.writes ++ ws ∧
    ∀ w ∈ ws, g.area.Home w.1 → w.1 ∈ g.area.listed m.sys.bio.disk ∧
      g.area.listed m.sys.bio.disk = m.sys.log.lh ∧ w.2 = applyWrites d m.hist.trace w.1

/-- A step that brought the machine down has written nothing. -/
structure Halted (m m' : Machine) : Prop where
  disk : m'.sys.bio.disk = m.sys.bio.disk
  writes : m'.sys.bio.writes = m.sys.bio.writes
  hist : m'.hist = m.hist
  committing : m'.sys.log.committing = m.sys.log.committing

/-- What every step does. -/
def StepOk (g : Log) (d : ℕ → Block) (m : Machine) (x : Prog Machine Unit) : Prop :=
  wp x (fun _ m' => (∃ st, MachineInv g d st m') ∧ WriteAhead g d m m')
    (fun w m' => w ≠ .sleep → Halted m m') m

namespace Machine

variable {g : Log} {d : ℕ → Block} {st : Option (ℕ × CommitPc)} {m : Machine} {p b : ℕ}

@[simp] theorem wp_call {α : Type} (x : Prog LogSys α) (Q : α → Machine → Prop)
    (A : Stop → Machine → Prop) :
    wp (call x) Q A m ↔
      wp x (fun a t => Q a { m with sys := t }) (fun w t => A w { m with sys := t }) m.sys :=
  wp_zoom _ _ _

theorem WriteAhead.of_writes_eq {m' : Machine} (h : m'.sys.bio.writes = m.sys.bio.writes) :
    WriteAhead g d m m' := ⟨[], by rw [h, append_nil], by simp⟩

section

variable (h : MachineInv g d st m)
include h

theorem StepOk.skip : StepOk g d m (pure ()) :=
  ⟨⟨st, h⟩, WriteAhead.of_writes_eq rfl⟩

theorem step_beginOp (p : ℕ) : StepOk g d m (m.step (.beginOp p)) := by
  rw [step]
  split_ifs with hp
  swap
  · exact StepOk.skip h
  unfold StepOk
  rw [wp_bind, wp_call, beginOp, wp_bind, wp_get]
  split_ifs with hc hfull
  · rw [wp_sleep]
    exact fun hne => absurd rfl hne
  · rw [wp_sleep]
    exact fun hne => absurd rfl hne
  rw [wp_set, wp_modify]
  have hst : st = none := by
    rw [h.committing] at hc
    simpa using hc
  subst hst
  have hfresh : m.hist.nextOp ∉ m.hist.active := fun hm => by
    have := (h.hist.active _ hm).2
    omega
  refine ⟨⟨none, ?_⟩, WriteAhead.of_writes_eq rfl⟩
  refine { h with
    hist := h.hist.begin
    outstanding := ?_, op := ?_, op_inj := ?_, alone := fun hn => absurd rfl hn, dirty := ?_ }
  · show m.sys.log.outstanding + 1 = _
    rw [h.outstanding]
    simp [History.begin]
  · intro q o hq
    by_cases hqp : q = p
    · subst hqp
      simp only [update_self, Option.some.injEq] at hq
      simp [History.begin, hq]
    · simp only [update_of_ne hqp] at hq
      exact mem_append_left _ (h.op q o hq)
  · intro q q' o hq hq'
    -- the new number is nobody else's
    simp only [update_apply] at hq hq'
    split_ifs at hq hq' with h1 h2 h2
    · rw [h1, h2]
    · cases hq
      exact absurd (h.op _ _ hq') hfresh
    · cases hq'
      exact absurd (h.op _ _ hq) hfresh
    · exact h.op_inj q q' o hq hq'
  · intro c hc
    obtain ⟨q, o, hq, ho⟩ := h.dirty c hc
    refine ⟨q, o, hq, ?_⟩
    show update m.op p _ q = some o
    rw [update_of_ne, ho]
    rintro rfl
    rw [hp.1] at ho
    cases ho

theorem step_bread (p b : ℕ) : StepOk g d m (m.step (.bread p b)) := by
  rw [step]
  split_ifs with hp
  swap
  · exact StepOk.skip h
  unfold StepOk
  rw [wp_bind, wp_call, wp_io]
  have hhome : g.area.Home b := by
    have := hp.2.1
    rwa [h.start, h.size] at this
  refine wp_mono (wp_bread h.inv p b) ?_ ?_
  · rintro i t ⟨h1, h2, -, h4, -⟩
    rw [wp_pure]
    refine ⟨⟨st, ?_⟩, WriteAhead.of_writes_eq (congrArg Store.writes h2)⟩
    refine { h with inv := h1, held := ?_, dirty := ?_, refs := ?_, view := ?_, stage := ?_ }
    · intro c hc
      by_cases hcb : c = b
      · subst hcb
        exact ⟨hhome, hp.2.2⟩
      · refine h.held c ?_
        simpa [h2, hcb] using hc
    · intro c hc
      obtain ⟨q, o, hq, ho⟩ := h.dirty c hc
      refine ⟨q, o, ?_, ho⟩
      have hcb : c ≠ b := by
        rintro rfl
        rw [h4] at hq
        cases hq
      simp [h2, hcb, hq]
    · intro c
      have := h.refs c
      by_cases hcb : c = b
      · subst hcb
        rw [h4, if_pos rfl] at this
        simp [h2]
        omega
      · simpa [h2, hcb] using this
    · intro c hc hd
      rw [show (t.abs.view c) = m.sys.bio.abs.view c by rw [h2]; rfl]
      exact h.view c hc hd
    · exact h.stage.congr (by rw [h2]; rfl) (by rw [h2]; rfl)
  · rintro w t ⟨hd, hw, -⟩ -
    exact ⟨hd, hw, rfl, rfl⟩

/-- A process modifies a block it holds, inside an operation. -/
theorem step_modify (p b : ℕ) (v : Block) :
    StepOk g d m (m.step (.modify p b v)) := by
  rw [step]
  cases ho : m.op p with
  | none => exact StepOk.skip h
  | some o =>
    cases hi : m.held p b with
    | none => exact StepOk.skip h
    | some i =>
      obtain rfl := h.stage_of_op ho
      obtain ⟨hat, hl⟩ := h.of_held hi
      have hpos : 0 < m.sys.bio.abs.refs b := by
        have := h.refs b
        rw [if_neg (by rw [hl]; simp)] at this
        omega
      unfold StepOk
      rw [wp_bind, wp_call, wp_io]
      refine wp_post (wp_setData h.inv hat hpos v) ?_
      rintro - t ⟨h1, h2, -⟩
      rw [wp_modify]
      refine ⟨⟨none, ?_⟩, WriteAhead.of_writes_eq (congrArg Store.writes h2)⟩
      refine { h with inv := h1, held := ?_, dirty := ?_, refs := ?_, view := ?_, stage := ?_ }
      · intro c hc
        exact h.held c (by simpa [h2] using hc)
      · intro c hc
        by_cases hcb : c = b
        · subst hcb
          exact ⟨p, o, by simpa [h2] using hl, ho⟩
        · obtain ⟨q, o', hq, ho'⟩ := h.dirty c (by simpa [hcb] using hc)
          exact ⟨q, o', by simpa [h2] using hq, ho'⟩
      · intro c
        simpa [h2] using h.refs c
      · intro c hc hd
        have hcb : c ≠ b := by
          rintro rfl
          simp at hd
        have hview : t.abs.view c = m.sys.bio.abs.view c := by simp [h2, hcb]
        exact hview.trans (h.view c hc (by simpa [hcb] using hd))
      · obtain ⟨k1, k2, k3⟩ := h.stage
        refine ⟨?_, fun c hc => ?_, k3⟩
        · simpa [h2] using k1
        · simpa [h2] using k2 c hc

theorem step_logWrite (p b : ℕ) :
    StepOk g d m (m.step (.logWrite p b)) := by
  rw [step]
  cases ho : m.op p with
  | none => exact StepOk.skip h
  | some o =>
    cases hi : m.held p b with
    | none => exact StepOk.skip h
    | some i =>
      obtain rfl := h.stage_of_op ho
      obtain ⟨hat, hl⟩ := h.of_held hi
      obtain ⟨hhome, hword⟩ := h.held b (by rw [hl]; simp)
      unfold StepOk
      rw [wp_bind, wp_call]
      refine wp_mono (wp_logWrite h.inv hat) ?_ ?_
      swap
      · rintro w t ⟨rfl, -⟩ -
        exact ⟨rfl, rfl, rfl, rfl⟩
      rintro - t ⟨hroom, h1, h2, h3, h4⟩
      rw [wp_modify]
      have hview : t.bio.abs.view = m.sys.bio.abs.view := by rw [h4]; split_ifs <;> rfl
      have hdisk : t.bio.abs.disk = m.sys.bio.abs.disk := by rw [h4]; split_ifs <;> rfl
      have hholder : t.bio.abs.holder = m.sys.bio.abs.holder := by rw [h4]; split_ifs <;> rfl
      have hdata : (t.bio.buf i).data = m.sys.bio.abs.view b := by rw [← view_at h1 h2, hview]
      have hmem : ∀ c, c ∈ t.log.lh ↔ c ∈ m.sys.log.lh ∨ c = b := by
        intro c
        rw [h3]
        split_ifs with hb
        · constructor
          · exact Or.inl
          · rintro (hc | rfl)
            · exact hc
            · exact hb
        · simp
      have hlog : t.log.start = m.sys.log.start ∧ t.log.size = m.sys.log.size ∧
          t.log.dev = m.sys.log.dev ∧ t.log.committing = m.sys.log.committing ∧
          t.log.outstanding = m.sys.log.outstanding := by
        rw [h3]
        exact ⟨rfl, rfl, rfl, rfl, rfl⟩
      have htrace : applyWrites d (m.hist.log ⟨o, b, (t.bio.buf i).data⟩).trace =
          update (applyWrites d m.hist.trace) b (m.sys.bio.abs.view b) := by
        rw [History.trace, History.trace, groupWrites_concat, groupWrites_concat, History.log, hdata]
        simp only [map_append, map_cons, map_nil, ← append_assoc]
        rw [applyWrites_concat]
      refine ⟨⟨none, ?_⟩, WriteAhead.of_writes_eq ?_⟩
      swap
      · rw [← abs_writes, h4]
        split_ifs <;> rfl
      refine
        { start := hlog.1.trans h.start, size := hlog.2.1.trans h.size
          dev := hlog.2.2.1.trans h.dev, inv := h1, head := ?_, hist := h.hist.log (h.op p o ho)
          pc := h.pc, committing := hlog.2.2.2.1.trans h.committing
          outstanding := hlog.2.2.2.2.trans h.outstanding, op := h.op, op_inj := h.op_inj
          alone := fun hn => absurd rfl hn, held := ?_, dirty := ?_, refs := ?_, view := ?_
          stage := ?_ }
      · show g.HeadOk t.log.lh
        rw [h3]
        split_ifs with hb
        · exact h.head
        · have hz := h.size
          exact h.head.concat hb hhome hword hroom.1 (by omega)
      · intro c hc
        exact h.held c (by rwa [← hholder])
      · intro c hc
        have hcb : c ≠ b := by
          rintro rfl
          simp at hc
        obtain ⟨q, o', hq, ho'⟩ := h.dirty c (by simpa [hcb] using hc)
        exact ⟨q, o', (congrFun hholder c).trans hq, ho'⟩
      · intro c
        show (if t.bio.abs.holder c = none then 0 else 1) + (if c ∈ t.log.lh then 1 else 0) ≤
          t.bio.abs.refs c
        have hold : (if m.sys.bio.abs.holder c = none then 0 else 1) +
          (if c ∈ m.sys.log.lh then 1 else 0) ≤ m.sys.bio.abs.refs c := h.refs c
        rw [hholder]
        by_cases hb : b ∈ m.sys.log.lh
        · rw [h4, if_pos hb]
          rwa [show t.log.lh = m.sys.log.lh by rw [h3, if_pos hb]]
        · rw [h4, if_neg hb]
          by_cases hcb : c = b
          · subst hcb
            rw [if_neg hb] at hold
            simp only [Store.pin_refs, update_self]
            split_ifs at hold ⊢ <;> omega
          · have : c ∈ t.log.lh ↔ c ∈ m.sys.log.lh := by simp [hmem, hcb]
            simp only [Store.pin_refs, update_of_ne hcb, this]
            exact hold
      · intro c hc hd
        show t.bio.abs.view c = applyWrites d (m.hist.log ⟨o, b, (t.bio.buf i).data⟩).trace c
        rw [htrace, hview]
        by_cases hcb : c = b
        · subst hcb
          rw [update_self]
        · rw [update_of_ne hcb]
          exact h.view c hc (by simpa [hcb] using hd)
      · obtain ⟨k1, k2, k3⟩ := h.stage
        refine ⟨?_, fun c hc => ?_, fun c => ?_⟩
        · show g.area.listed t.bio.abs.disk = []
          rwa [hdisk]
        · show t.bio.abs.disk c = _
          rw [hdisk]
          exact k2 c hc
        · show c ∈ t.log.lh ↔ c ∈ (m.hist.cur ++ [_]).map LogRec.block
          rw [hmem, k3]
          simp

/-- A process releases a block whose modifications, if any, are logged. -/
theorem step_brelse (p b : ℕ) : StepOk g d m (m.step (.brelse p b)) := by
  rw [step]
  cases hi : m.held p b with
  | none => exact StepOk.skip h
  | some i =>
    obtain ⟨hat, hl⟩ := h.of_held hi
    obtain ⟨hhome, -⟩ := h.held b (by rw [hl]; simp)
    have hrefs := h.refs b
    rw [if_neg (by rw [hl]; simp)] at hrefs
    cases hdirty : m.dirty b with
    | true => exact StepOk.skip h
    | false =>
      unfold StepOk
      simp only [Bool.false_eq_true, if_false]
      rw [wp_call, wp_io]
      refine wp_post (wp_brelse h.inv hat hl ?_) ?_
      · -- the last reference is the holder's, so the log has no pin on the block
        intro hone
        have hp : b ∉ pinnedAt (st.map Prod.snd) m.sys.log.lh := by
          intro hm
          rw [if_pos hm] at hrefs
          omega
        rw [h.disk_of_not_pinned hhome hp]
        exact h.view b hhome hdirty
      rintro - t ⟨h1, h2, -⟩
      refine ⟨⟨st, ?_⟩, WriteAhead.of_writes_eq (congrArg Store.writes h2)⟩
      refine { h with inv := h1, held := ?_, dirty := ?_, refs := ?_, view := ?_, stage := ?_ }
      · intro c hc
        by_cases hcb : c = b
        · subst hcb
          simp [h2] at hc
        · exact h.held c (by simpa [h2, hcb] using hc)
      · intro c hc
        have hcb : c ≠ b := by
          rintro rfl
          exact absurd (hdirty.symm.trans hc) (by decide)
        obtain ⟨q, o, hq, ho⟩ := h.dirty c hc
        exact ⟨q, o, by simpa [h2, hcb] using hq, ho⟩
      · intro c
        by_cases hcb : c = b
        · subst hcb
          simp only [h2, Store.give_holder, Store.give_refs, update_self, if_true]
          omega
        · simpa [h2, hcb] using h.refs c
      · intro c hc hd
        rw [show (t.abs.view c) = m.sys.bio.abs.view c by rw [h2]; rfl]
        exact h.view c hc hd
      · exact h.stage.congr (by rw [h2]; rfl) (by rw [h2]; rfl)

/-- A process that has logged all its modifications holds no dirty block. -/
theorem not_dirty_of_unlogged (hp : m.unlogged p = false)
    (hb : m.sys.bio.abs.holder b = some p) : m.dirty b = false := by
  have hpos : 0 < m.sys.bio.abs.refs b := by
    have := h.refs b
    rw [if_neg (by rw [hb]; simp)] at this
    omega
  obtain ⟨i, hi⟩ := exists_at_of_refs h.inv hpos
  rw [holder_at h.inv hi] at hb
  rw [unlogged, any_eq_false] at hp
  have := hp i (mem_finRange i)
  simpa [holdingsleep, hb, hi.2] using this

/-- One operation fewer is outstanding after one ends. -/
theorem length_erase_active {p o : ℕ} (ho : m.op p = some o) :
    ((m.hist.active.erase o).length : ℤ) = m.sys.log.outstanding - 1 := by
  have hmem := h.op p o ho
  have hpos := length_pos_of_mem hmem
  rw [h.outstanding, length_erase_of_mem hmem]
  omega

/-- An operation ends; the last one of its group starts the commit. -/
theorem step_endOp (p : ℕ) : StepOk g d m (m.step (.endOp p)) := by
  rw [step]
  cases ho : m.op p with
  | none => exact StepOk.skip h
  | some o =>
    cases hun : m.unlogged p with
    | true => exact StepOk.skip h
    | false =>
      obtain rfl := h.stage_of_op ho
      have hcom : m.sys.log.committing = false := h.committing
      have hlen := length_erase_active h ho
      -- whoever holds a dirty block is in another operation
      have hother : ∀ c, m.dirty c = true → ∃ q o', m.sys.bio.abs.holder c = some q ∧
          m.op q = some o' ∧ q ≠ p := by
        intro c hc
        obtain ⟨q, o', hq, ho'⟩ := h.dirty c hc
        refine ⟨q, o', hq, ho', ?_⟩
        rintro rfl
        have := not_dirty_of_unlogged h hun hq
        rw [hc] at this
        cases this
      have hops : ∀ q o', update m.op p none q = some o' → m.op q = some o' ∧ q ≠ p := by
        intro q o' hq
        have hqp : q ≠ p := by
          rintro rfl
          simp at hq
        rw [update_of_ne hqp] at hq
        exact ⟨hq, hqp⟩
      have hop : ∀ q o', update m.op p none q = some o' → o' ∈ m.hist.active.erase o := by
        intro q o' hq
        obtain ⟨hq, hqp⟩ := hops q o' hq
        refine (mem_erase_of_ne ?_).2 (h.op q o' hq)
        rintro rfl
        exact hqp (h.op_inj q p o' hq ho)
      have hinj : ∀ q q' o', update m.op p none q = some o' →
          update m.op p none q' = some o' → q = q' := fun q q' o' hq hq' =>
        h.op_inj q q' o' (hops q o' hq).1 (hops q' o' hq').1
      have hdirty : ∀ c, m.dirty c = true → ∃ q o', m.sys.bio.abs.holder c = some q ∧
          update m.op p none q = some o' := by
        intro c hc
        obtain ⟨q, o', hq, ho', hqp⟩ := hother c hc
        exact ⟨q, o', hq, by rw [update_of_ne hqp, ho']⟩
      unfold StepOk
      simp only [Bool.false_eq_true, if_false]
      rw [wp_bind, wp_call, endOp, wp_bind, wp_get, wp_bind, wp_set, hcom]
      simp only [Bool.false_eq_true, if_false]
      by_cases hlast : m.sys.log.outstanding - 1 = 0
      · rw [if_pos hlast, wp_bind, wp_modify, wp_pure, wp_bind, wp_modify]
        simp only [if_true]
        rw [goto, wp_modify]
        have hnil : m.hist.active.erase o = [] := by
          rw [hlast] at hlen
          exact length_eq_zero_iff.1 (by exact_mod_cast hlen)
        have hclean : ∀ c, m.dirty c = false := by
          intro c
          by_contra hc
          obtain ⟨q, o', -, hq⟩ := hdirty c (by simpa using hc)
          have := hop q o' hq
          rw [hnil] at this
          cases this
        obtain ⟨k1, k2, k3⟩ := h.stage
        refine ⟨⟨some (p, .writing 0), ?_⟩, WriteAhead.of_writes_eq rfl⟩
        refine { h with
          hist := (h.hist.finish o).close hnil, pc := ?_, committing := rfl
          outstanding := hlen.symm, op := hop, op_inj := hinj
          alone := fun _ => ⟨hnil, rfl⟩, dirty := hdirty, view := ?_, stage := ?_ }
        · show update m.pc p _ = _
          rw [h.pc]
          funext q
          simp [update_apply, pcAt]
        · intro c hc hd
          have htrace : ((m.hist.finish o).close).trace = m.hist.trace := by
            simp [History.trace, History.close, History.finish, groupWrites]
          exact (h.view c hc hd).trans (by rw [htrace])
        · refine ⟨m.hist.groups, m.hist.cur, m.sys.log.lh, rfl, h.head, rfl,
            fun c hc => (k3 c).2 hc, k1, k2, fun c hc => ?_, ?_⟩
          · exact h.view c (h.head.home c hc) (hclean c)
          · intro j _ hj
            exact absurd hj (Nat.not_lt_zero j)
      · rw [if_neg hlast, wp_pure, wp_bind, wp_modify]
        simp only [Bool.false_eq_true, if_false]
        rw [wp_pure]
        refine ⟨⟨none, ?_⟩, WriteAhead.of_writes_eq rfl⟩
        exact { h with
          hist := h.hist.finish o, outstanding := hlen.symm, op := hop, op_inj := hinj
          committing := hcom, alone := fun hn => absurd rfl hn, dirty := hdirty }

end

/-- The write of a commit step, as a change of the store: it goes to the log area, or to a home
block with the contents it has already in the cache. -/
theorem commit_write (c' : CommitPc) {q : ℕ} {c : CommitPc} {t : LogSys} {x : ℕ} {v : Block}
    (h : MachineInv g d (some (q, c)) m) (hinv : t.bio.Inv)
    (hlog : t.log = { m.sys.log with lh := t.log.lh }) (hhead : g.HeadOk t.log.lh)
    (hholder : t.bio.abs.holder = m.sys.bio.abs.holder)
    (hview : t.bio.abs.view = update m.sys.bio.abs.view x v)
    (hx : g.area.Home x → v = applyWrites d m.hist.trace x)
    (hrefs : ∀ b, (if b ∈ pinnedAt (some c') t.log.lh then 1 else 0) + m.sys.bio.abs.refs b ≤
      (if b ∈ pinnedAt (some c) m.sys.log.lh then 1 else 0) + t.bio.abs.refs b)
    (hstage : Stage g d t.log.lh t.bio.abs m.hist (some c')) :
    MachineInv g d (some (q, c')) { m with sys := t, pc := update m.pc q (some c') } where
  start := (congrArg Log.start hlog).trans h.start
  size := (congrArg Log.size hlog).trans h.size
  dev := (congrArg Log.dev hlog).trans h.dev
  inv := hinv
  head := hhead
  hist := h.hist
  pc := by
    funext p
    simp only [h.pc, update_apply, pcAt]
    split_ifs <;> rfl
  committing := (congrArg Log.committing hlog).trans h.committing
  outstanding := (congrArg Log.outstanding hlog).trans h.outstanding
  op := h.op
  op_inj := h.op_inj
  alone := fun _ => h.alone (by simp)
  held := fun b hb => h.held b (by rwa [← hholder])
  dirty := by
    intro b hb
    obtain ⟨p, o, hp, ho⟩ := h.dirty b hb
    exact ⟨p, o, (congrFun hholder b).trans hp, ho⟩
  refs := by
    intro b
    have h1 := h.refs b
    have h2 := hrefs b
    simp only [Option.map_some] at h1 ⊢
    rw [hholder]
    omega
  view := by
    intro b hb hd
    show t.bio.abs.view b = _
    rw [hview]
    by_cases hbx : b = x
    · subst hbx
      rw [update_self]
      exact hx hb
    · rw [update_of_ne hbx]
      exact h.view b hb hd
  stage := hstage

/-- While a group is committed, everything logged is in the groups handed to `commit`. -/
theorem trace_of_commit {qc : ℕ × CommitPc} (h : MachineInv g d (some qc) m) :
    applyWrites d m.hist.trace = applyWrites d (groupWrites m.hist.groups) := by
  rw [History.trace, (h.alone (by simp)).2, groupWrites_concat]
  simp

theorem Halted.of_idle {w : Stop} {t : LogSys} (h : Idle m.sys w t) : Halted m { m with sys := t } :=
  ⟨h.disk, h.writes, rfl, by rw [h.log]⟩

theorem WriteAhead.of_log {m' : Machine} {x : ℕ} {v : Block}
    (hw : m'.sys.bio.writes = m.sys.bio.writes ++ [(x, v)]) (hx : ¬ g.area.Home x) :
    WriteAhead g d m m' := by
  refine ⟨_, hw, ?_⟩
  intro w hw hhome
  rw [mem_singleton.1 hw] at hhome
  exact absurd hhome hx

/-- One round of `write_log`, or the `write_head` that commits. -/
theorem step_writing {tail : ℕ} (h : MachineInv g d (some (p, .writing tail)) m) :
    StepOk g d m (commitStep p (.writing tail)) := by
  obtain ⟨gs, grp, l, h1, h2, h3, h4, h5⟩ := h.stage
  rw [if_neg (by simp)] at h3
  unfold StepOk
  rw [commitStep, wp_bind, wp_get, h3]
  by_cases hn : l.length = 0
  · -- `commit` has nothing to do
    rw [if_pos hn, goto, wp_modify]
    have hl : l = [] := length_eq_zero_iff.1 hn
    refine ⟨⟨_, commit_write (m := m) .done (x := g.start) (v := m.sys.bio.abs.view g.start) h h.inv
      rfl h.head rfl (update_eq_self _ _).symm
      (fun hx => absurd rfl (home_ne_start h2 hx)) (fun b => by simp [pinnedAt]) ?_⟩,
      WriteAhead.of_writes_eq rfl⟩
    refine ⟨gs, grp, l, h1, h2, by rw [h3, hl]; rfl, h4, h5.1, fun b hb => ?_⟩
    rw [if_neg (by simp [hl])]
    exact h5.2.1 b hb
  rw [if_neg hn]
  by_cases ht : tail < l.length
  · rw [if_pos ht, wp_bind, wp_call]
    have hhome := h2.home _ (getElem_mem ht)
    have hlog : ¬ g.area.Home (g.start + 1 + tail) := fun hx => absurd rfl (home_ne_log h2 hx ht)
    refine wp_mono (wp_writeOne (L := g.start + 1 + tail) (b := l[tail]) h.inv h.dev
      (by rw [h3]; simp [ht]) (by rw [h.start]; omega) (home_ne_log h2 hhome ht)) ?_
      (fun _ t hidle _ => Halted.of_idle hidle)
    rintro - t ⟨g1, g2, -, g4⟩
    rw [goto, wp_modify]
    have hw : t.bio.writes = _ := (abs_writes t.bio).symm.trans (congrArg Store.writes g4)
    refine ⟨⟨_, commit_write (m := m) (.writing (tail + 1)) (x := g.start + 1 + tail)
      (v := m.sys.bio.abs.view l[tail]) h g1 (by rw [g2]) (by rw [g2]; exact h.head)
      (by rw [g4]; rfl) (by rw [g4]; rfl)
      (fun hx => absurd hx hlog) (fun b => by rw [g2, g4]; exact le_rfl) ?_⟩, ?_⟩
    · refine ⟨gs, grp, l, h1, h2, by rw [g2, h3]; rfl, h4, ?_⟩
      rw [g4]
      exact h5.writeOne h2 ht
    · exact WriteAhead.of_log (by rw [hw, Store.write_writes, abs_writes]) hlog
  · rw [if_neg ht, wp_bind, wp_call]
    have hlog : ¬ g.area.Home g.start := fun hx => absurd rfl (home_ne_start h2 hx)
    refine wp_mono (wp_writeHead h.inv h.dev) ?_ (fun _ t hidle _ => Halted.of_idle hidle)
    rintro - t ⟨g1, g2, -, g4⟩
    rw [h.start, h3] at g4
    rw [goto, wp_modify]
    have hw : t.bio.writes = _ := (abs_writes t.bio).symm.trans (congrArg Store.writes g4)
    refine ⟨⟨_, commit_write (m := m) (.installing 0) (x := g.start)
      (v := encodeHead (m.sys.bio.abs.view g.start) l) h g1 (by rw [g2]) (by rw [g2]; exact h.head)
      (by rw [g4]; rfl) (by rw [g4]; rfl)
      (fun hx => absurd hx hlog) (fun b => by rw [g2, g4]; exact le_rfl) ?_⟩, ?_⟩
    · refine ⟨gs, grp, l, h1, h2, by rw [g2, h3]; rfl, h4, ?_⟩
      rw [g4]
      refine Phase.writeHead h2 ⟨h5.1, h5.2.1, h5.2.2.1, fun j hj _ => ?_⟩ _
      exact h5.2.2.2 j hj (by omega)
    · exact WriteAhead.of_log (by rw [hw, Store.write_writes, abs_writes]) hlog

/-- One round of `install_trans`, or the `write_head` that clears the header. -/
theorem step_installing {tail : ℕ} (h : MachineInv g d (some (p, .installing tail)) m) :
    StepOk g d m (commitStep p (.installing tail)) := by
  obtain ⟨gs, grp, l, h1, h2, h3, h4, h5⟩ := h.stage
  rw [if_neg (by simp)] at h3
  unfold StepOk
  rw [commitStep, wp_bind, wp_get, h3]
  by_cases ht : tail < l.length
  · rw [if_pos ht, wp_bind, wp_call]
    have hhome := h2.home _ (getElem_mem ht)
    have hdrop := drop_eq_getElem_cons ht
    have hpin : 0 < m.sys.bio.abs.refs l[tail] := by
      have hr := h.refs l[tail]
      have hin : l[tail] ∈ pinnedAt ((some (p, CommitPc.installing tail)).map Prod.snd)
          m.sys.log.lh := by
        simp only [Option.map_some, pinnedAt, h3, hdrop]
        exact mem_cons_self
      rw [if_pos hin] at hr
      omega
    have hval : m.sys.bio.abs.view (g.start + 1 + tail) = applyWrites d m.hist.trace l[tail] := by
      rw [(h5.2.2.2.1 tail ht).2, trace_of_commit h]
    refine wp_mono (wp_installOne (L := g.start + 1 + tail) (b := l[tail]) h.inv h.dev false
      (by rw [h3]; simp [ht]) (by rw [h.start]; omega) (home_ne_log h2 hhome ht) fun _ => hpin) ?_
      (fun _ t hidle _ => Halted.of_idle hidle)
    rintro - t ⟨g1, g2, -, g4⟩
    rw [if_neg (by decide)] at g4
    rw [goto, wp_modify]
    have hw : t.bio.writes = _ := (abs_writes t.bio).symm.trans (congrArg Store.writes g4)
    refine ⟨⟨_, commit_write (m := m) (.installing (tail + 1)) (x := l[tail])
      (v := m.sys.bio.abs.view (g.start + 1 + tail)) h g1 (by rw [g2]) (by rw [g2]; exact h.head)
      (by rw [g4]; rfl) (by rw [g4]; rfl)
      (fun _ => hval) (fun b => ?_) ?_⟩, ?_⟩
    · -- the pin that goes is the one of the block just installed
      have hnodup : (l.drop tail).Nodup := h2.nodup.sublist (drop_sublist _ _)
      rw [hdrop, nodup_cons] at hnodup
      rw [g2, g4]
      simp only [pinnedAt, h3, hdrop, Store.unpin_refs, Store.write_refs]
      by_cases hb : b = l[tail]
      · subst hb
        rw [if_neg hnodup.1, if_pos mem_cons_self, update_self]
        omega
      · simp only [mem_cons, hb, false_or, update_of_ne hb]
        exact le_rfl
    · refine ⟨gs, grp, l, h1, h2, by rw [g2, h3]; rfl, h4, ?_⟩
      exact (h5.installOne h2 ht).congr (by rw [g4]; rfl) (by rw [g4]; rfl)
    · refine ⟨[(l[tail], m.sys.bio.abs.view (g.start + 1 + tail))],
        by rw [hw, Store.unpin_writes, Store.write_writes, abs_writes], ?_⟩
      intro w hw' _
      obtain rfl := mem_singleton.1 hw'
      have hlisted : g.area.listed m.sys.bio.disk = l := h5.1
      exact ⟨by rw [hlisted]; exact getElem_mem ht, by rw [hlisted, h3], hval⟩
  · rw [if_neg ht, wp_bind, wp_call, clearHead, wp_modify, wp_bind, wp_call]
    have hlog : ¬ g.area.Home g.start := fun hx => absurd rfl (home_ne_start h2 hx)
    refine wp_mono (wp_writeHead h.inv h.dev) ?_ ?_
    swap
    · rintro w t hidle -
      exact ⟨hidle.disk, hidle.writes, rfl, by rw [hidle.log]⟩
    rintro - t ⟨g1, g2, -, g4⟩
    dsimp only at g2 g4
    rw [h.start] at g4
    rw [goto, wp_modify]
    have hw : t.bio.writes = _ := (abs_writes t.bio).symm.trans (congrArg Store.writes g4)
    have hroom := h2.room
    refine ⟨⟨_, commit_write (m := m) .done (x := g.start)
      (v := encodeHead (m.sys.bio.abs.view g.start) []) h g1 (by rw [g2]) ?_
      (by rw [g4]; rfl) (by rw [g4]; rfl)
      (fun hx => absurd hx hlog) (fun b => by rw [g4]; simp [pinnedAt]) ?_⟩, ?_⟩
    · rw [g2]
      exact ⟨Area.Fits.nil (by omega), by simp, by simp⟩
    · refine ⟨gs, grp, l, h1, h2, by rw [g2]; rfl, h4, ?_⟩
      rw [g4]
      refine Phase.clear h2 ⟨h5.1, h5.2.1, h5.2.2.1, h5.2.2.2.1, fun j hj _ => ?_⟩ _
      exact h5.2.2.2.2 j hj (by omega)
    · exact WriteAhead.of_log (by rw [hw, Store.write_writes, abs_writes]) hlog

/-- The end of `end_op`, when the commit is done. -/
theorem step_done (h : MachineInv g d (some (p, .done)) m) :
    StepOk g d m (commitStep p .done) := by
  obtain ⟨gs, grp, l, h1, h2, h3, h4, h5⟩ := h.stage
  obtain ⟨hact, hcur⟩ := h.alone (by simp)
  rw [if_pos rfl] at h3
  unfold StepOk
  rw [commitStep, wp_bind, wp_call, endCommit, wp_modify, goto, wp_modify]
  refine ⟨⟨none, ?_⟩, WriteAhead.of_writes_eq rfl⟩
  refine { h with
    pc := ?_, committing := rfl, alone := fun hn => absurd rfl hn, refs := ?_, stage := ?_ }
  · show update m.pc p none = pcAt none
    rw [h.pc]
    funext q
    simp only [update_apply, pcAt]
    split_ifs <;> rfl
  · intro b
    simpa [pinnedAt, h3] using h.refs b
  · refine ⟨h5.1, fun b hb => ?_, fun b => by simp [h3, hcur]⟩
    refine (h5.2 b hb).trans ?_
    split_ifs with hm
    · rfl
    · rw [h1]
      exact (applyWrites_groupWrites_of_not_mem gs fun hc => hm (h4 b hc)).symm

theorem step_commitStep (h : MachineInv g d st m) (p : ℕ) :
    StepOk g d m (m.step (.commitStep p)) := by
  rw [step]
  cases hc : m.pc p with
  | none => exact StepOk.skip h
  | some c =>
    rw [h.pc] at hc
    cases st with
    | none => cases hc
    | some qc =>
      obtain ⟨q, c'⟩ := qc
      simp only [pcAt] at hc
      split_ifs at hc with hpq
      subst hpq
      cases hc
      cases c with
      | writing t => exact step_writing h
      | installing t => exact step_installing h
      | done => exact step_done h

/-- **Every step of every process** keeps the invariant, and writes home blocks only behind the
header; a step that brings the machine down writes nothing. -/
theorem wp_exec (h : MachineInv g d st m) (e : Event) :
    wp (exec e) (fun _ m' => (∃ st, MachineInv g d st m') ∧ WriteAhead g d m m')
      (fun _ m' => Halted m m') m := by
  have key : StepOk g d m (m.step e) := by
    cases e with
    | beginOp p => exact step_beginOp h p
    | bread p b => exact step_bread h p b
    | modify p b v => exact step_modify h p b v
    | logWrite p b => exact step_logWrite h p b
    | brelse p b => exact step_brelse h p b
    | endOp p => exact step_endOp h p
    | commitStep p => exact step_commitStep h p
  refine wp_attempt ?_
  rw [wp_bind, wp_get]
  refine wp_mono key (fun _ _ hQ => hQ) fun w m' hA => ⟨fun _ => ?_, hA⟩
  exact ⟨⟨st, h⟩, WriteAhead.of_writes_eq rfl⟩

theorem boot_inv {start size : ℕ} (hsize : 0 < size) (hd : decodeHead (d start) = []) :
    MachineInv (boot start size d).sys.log d none (boot start size d) where
  start := rfl
  size := rfl
  dev := rfl
  inv := binit_inv d
  head := ⟨Area.Fits.nil hsize, by simp [boot, initlog], by simp [boot, initlog]⟩
  hist := ⟨le_rfl, by simp [boot], by simp [boot], by simp [boot], by simp [boot], by simp [boot]⟩
  pc := rfl
  committing := rfl
  outstanding := rfl
  op := fun _ _ h => by cases h
  op_inj := fun _ _ _ h => by cases h
  alone := fun hn => absurd rfl hn
  held := by
    intro b hb
    rw [show (boot start size d).sys.bio.abs = _ from binit_abs d] at hb
    exact absurd rfl hb
  dirty := fun _ h => by cases h
  refs := by
    intro b
    rw [show (boot start size d).sys.bio.abs = _ from binit_abs d]
    simp [pinnedAt, boot, initlog]
  view := by
    intro b _ _
    rw [show (boot start size d).sys.bio.abs = _ from binit_abs d]
    rfl
  stage := by
    refine ⟨?_, fun b _ => ?_, fun b => by simp [boot, initlog]⟩
    · rwa [show (boot start size d).sys.bio.abs = _ from binit_abs d, Log.listed_eq]
    · rw [show (boot start size d).sys.bio.abs = _ from binit_abs d]
      rfl

/-- **Every run** of the machine from a disk with an empty log. -/
theorem wp_runs_exec {start size : ℕ} (hsize : 0 < size) (hd : decodeHead (d start) = [])
    (es : List Event) :
    wp (runs exec es) (fun _ m => ∃ st, MachineInv (boot start size d).sys.log d st m)
      (fun _ m => ∃ m₀ st, MachineInv (boot start size d).sys.log d st m₀ ∧ Halted m₀ m)
      (boot start size d) := by
  have halong : Along (fun (_ : Machine) (_ : Event) => True) exec es (boot start size d) :=
    along_of_forall (fun _ _ => trivial) es _
  refine wp_runs ?_ ⟨none, boot_inv hsize hd⟩ halong
  rintro e m ⟨st, h⟩ -
  exact wp_mono (wp_exec h e) (fun _ _ hQ => hQ.1) fun _ m' hA => ⟨m, st, h, hA⟩

theorem crash_state {start size : ℕ} (hsize : 0 < size) (hd : decodeHead (d start) = [])
    (es : List Event) {m : Machine} (hm : m = (runs exec es (boot start size d)).state) :
    m.hist.Ok ∧ (initlog start size d).log.area.Fits
        ((initlog start size d).log.area.listed m.sys.bio.disk) ∧
    ∃ k, (k = m.hist.groups.length ∨
        k + 1 = m.hist.groups.length ∧ m.sys.log.committing = true) ∧
      ∀ b, (initlog start size d).log.area.Home b →
        (initlog start size d).log.area.redo m.sys.bio.disk b =
          applyWrites d (groupWrites (m.hist.groups.take k)) b := by
  have h := wp_runs_exec hsize hd es
  cases hrun : runs exec es (boot start size d) with
  | ok a m' =>
    obtain rfl : m = m' := by rw [hm, hrun, Res.state_ok]
    obtain ⟨st, hinv⟩ := wp_ok h hrun
    exact ⟨hinv.hist, hinv.crash⟩
  | stop w m' =>
    obtain rfl : m = m' := by rw [hm, hrun, Res.state_stop]
    obtain ⟨m₀, st, hinv, hhalt⟩ := wp_stop h hrun
    rw [hhalt.hist, hhalt.disk, hhalt.committing]
    exact ⟨hinv.hist, hinv.crash⟩

end Machine

/-- **All-or-nothing operations under group commit.** However the steps of the processes interleave
and wherever the machine stops, recovery (itself interrupted any number of times) returns with the
home blocks as the log writes of the first `k` groups leave the initial disk: all groups handed to
`commit`, or all but the last one if that is still being committed.  An operation that has a log
write in these groups has reached its `end_op`, and has no log write outside them. -/
theorem group_commit_atomic (start size : ℕ) (d : ℕ → Block) (hsize : 0 < size)
    (hd : decodeHead (d start) = []) (es : List Event) {m : Machine}
    (hm : m = (runs Machine.exec es (boot start size d)).state) {d' : ℕ → Block}
    (hcrash : Interrupted start size m.sys.bio.disk d') (pid : ℕ) :
    ∃ t k, recoverFromLog pid (initlog start size d') = .ok () t ∧
      (k = m.hist.groups.length ∨ k + 1 = m.hist.groups.length ∧ m.sys.log.committing = true) ∧
      (∀ b, b < start ∨ start + size ≤ b →
        t.bio.disk b = applyWrites d (groupWrites (m.hist.groups.take k)) b) ∧
      ∀ r ∈ (m.hist.groups.take k).flatten,
        r.op ∈ m.hist.ended ∧ ∀ r' ∈ (m.hist.groups.drop k).flatten ++ m.hist.cur, r'.op ≠ r.op := by
  obtain ⟨hhist, hfits, k, hk, hredo⟩ := Machine.crash_state hsize hd es hm
  obtain ⟨t, hrun, -, hhome⟩ :=
    recover_interrupted (g := (initlog start size d).log) hcrash hfits pid
  refine ⟨t, k, hrun, hk, fun b hb => ?_, fun r hr => hhist.whole k hr⟩
  rw [hhome b hb, hredo b hb]

/-- An operation that logs one block, and the first write of its commit. -/
def oneOpEvents : List Event :=
  [.beginOp 1, .bread 1 100, .modify 1 100 fun _ => 1, .logWrite 1 100, .brelse 1 100, .endOp 1,
    .commitStep 1]

/-- The machine after these steps. -/
def oneOp : Machine := (runs Machine.exec oneOpEvents (boot 2 30 fun _ _ => 0)).state

theorem oneOp_atomic :
    ∃ t k, recoverFromLog 0 (initlog 2 30 oneOp.sys.bio.disk) = .ok () t ∧
      (k = oneOp.hist.groups.length ∨
        k + 1 = oneOp.hist.groups.length ∧ oneOp.sys.log.committing = true) ∧
      (∀ b, b < 2 ∨ 2 + 30 ≤ b → t.bio.disk b =
        applyWrites (fun _ _ => 0) (groupWrites (oneOp.hist.groups.take k)) b) ∧
      ∀ r ∈ (oneOp.hist.groups.take k).flatten, r.op ∈ oneOp.hist.ended ∧
        ∀ r' ∈ (oneOp.hist.groups.drop k).flatten ++ oneOp.hist.cur, r'.op ≠ r.op :=
  group_commit_atomic 2 30 (fun _ _ => 0) (by decide) (by decide) oneOpEvents
    (by unfold oneOp; rfl) .refl 0

/-- **The cache and the log behave as one array of blocks.** In every state of every run, a `bread`
of a home block that returns finds what was logged last for the block; and whatever step is taken
next, the home block it writes, if any, is listed by the header on the disk, which is the header of
the transaction, and gets what was logged for it. -/
theorem cache_log_one_array (start size : ℕ) (d : ℕ → Block) (hsize : 0 < size)
    (hd : decodeHead (d start) = []) (es : List Event) {m : Machine}
    (hm : runs Machine.exec es (boot start size d) = .ok () m) :
    (∀ p b i t, b < start ∨ start + size ≤ b → bread p ROOTDEV b m.sys.bio = .ok i t →
      (t.buf i).data = m.hist.lastLogged d b) ∧
    ∀ e, ∃ ws, (Machine.exec e m).state.sys.bio.writes = m.sys.bio.writes ++ ws ∧
      ∀ w ∈ ws, w.1 < start ∨ start + size ≤ w.1 →
        w.1 ∈ decodeHead (m.sys.bio.disk start) ∧
        decodeHead (m.sys.bio.disk start) = m.sys.log.lh ∧ w.2 = m.hist.lastLogged d w.1 := by
  obtain ⟨st, h⟩ := wp_ok (Machine.wp_runs_exec hsize hd es) hm
  have hlast : ∀ b, m.hist.lastLogged d b = applyWrites d m.hist.trace b := fun b =>
    (applyWrites_eq_last d m.hist.trace b).symm
  constructor
  · intro p b i t hb hread
    obtain ⟨h1, h2, h3, h4, -⟩ := wp_ok (wp_bread h.inv p b) hread
    have hclean : m.dirty b = false := by
      by_contra hc
      obtain ⟨q, o, hq, -⟩ := h.dirty b (by simpa using hc)
      rw [h4] at hq
      cases hq
    rw [← view_at h1 h3, h2, Store.take_view, hlast]
    exact h.view b hb hclean
  · intro e
    have hstep := Machine.wp_exec h e
    simp only [hlast]
    cases hrun : Machine.exec e m with
    | ok a m' =>
      obtain ⟨-, hahead⟩ := wp_ok hstep hrun
      exact hahead
    | stop w m' =>
      have hhalt := wp_stop hstep hrun
      exact ⟨[], by rw [Res.state_stop, hhalt.writes, append_nil], by simp⟩

theorem oneOp_one_array :
    runs Machine.exec oneOpEvents (boot 2 30 fun _ _ => 0) = .ok () oneOp ∧
    (∀ p b i t, b < 2 ∨ 2 + 30 ≤ b → bread p ROOTDEV b oneOp.sys.bio = .ok i t →
      (t.buf i).data = oneOp.hist.lastLogged (fun _ _ => 0) b) ∧
    ∀ e, ∃ ws, (Machine.exec e oneOp).state.sys.bio.writes = oneOp.sys.bio.writes ++ ws ∧
      ∀ w ∈ ws, w.1 < 2 ∨ 2 + 30 ≤ w.1 → w.1 ∈ decodeHead (oneOp.sys.bio.disk 2) ∧
        decodeHead (oneOp.sys.bio.disk 2) = oneOp.sys.log.lh ∧
        w.2 = oneOp.hist.lastLogged (fun _ _ => 0) w.1 := by
  have hrun : runs Machine.exec oneOpEvents (boot 2 30 fun _ _ => 0) = .ok () oneOp := by
    unfold oneOp
    exact Res.eq_ok_of_stopped (by decide +kernel)
  exact ⟨hrun, cache_log_one_array 2 30 (fun _ _ => 0) (by decide) (by decide) oneOpEvents hrun⟩

end Xv6
