import Xv6.Log.Phase

/-!
# Crash atomicity of a commit

The disk performs the block writes of `commit` in the order in which they are issued, each one
atomically, and the machine may stop after any number of them; then `recover_from_log` runs, and
may itself be stopped after any number of its writes, any number of times.  Whenever it completes,
the transaction is on the disk as a whole or not at all (`commit_crash_atomic`).

The writes of a program are followed through `Trail`, which says what holds of every one of their
initial segments.  For `commit` this is what the phases give; for recovery it is that each write
leaves what `Area.redo` makes of the disk.
-/

namespace Xv6

open Stateful Bio Function List

/-- The writes to the disk a program issues, whether it returns or stops. -/
def issued (x : Prog LogSys Unit) (s : LogSys) : List (ℕ × Block) :=
  (x s).state.bio.writes.drop s.bio.writes.length

/-- The disks that runs of `recover_from_log`, each stopped after some of its writes, can leave. -/
inductive Interrupted (start size : ℕ) (d : ℕ → Block) : (ℕ → Block) → Prop
  | refl : Interrupted start size d d
  | crash {d' : ℕ → Block} (pid k : ℕ) (h : Interrupted start size d d') :
      Interrupted start size d
        (applyWrites d' ((issued (recoverFromLog pid) (initlog start size d')).take k))

/-- Between `s` and `t` the writes `ws` were issued, and `P` holds of each of their initial
segments. -/
structure Trail (P : List (ℕ × Block) → Prop) (s t : LogSys) (ws : List (ℕ × Block)) : Prop where
  writes : t.bio.writes = s.bio.writes ++ ws
  disk : t.bio.disk = applyWrites s.bio.disk ws
  safe : ∀ k, P (ws.take k)

namespace Trail

variable {P : List (ℕ × Block) → Prop} {s t u : LogSys} {ws : List (ℕ × Block)} {b : ℕ} {v : Block}

theorem nil (h : P []) : Trail P s s [] := ⟨by simp, rfl, fun k => by simpa using h⟩

theorem write (h : Trail P s t ws) (hw : u.bio.writes = t.bio.writes ++ [(b, v)])
    (hd : u.bio.disk = update t.bio.disk b v) (hP : P (ws ++ [(b, v)])) :
    Trail P s u (ws ++ [(b, v)]) where
  writes := by rw [hw, h.writes, append_assoc]
  disk := by rw [hd, h.disk, applyWrites_concat]
  safe := by
    intro k
    rcases Nat.lt_or_ge ws.length k with hk | hk
    · rwa [take_of_length_le (by simp; omega)]
    · rw [take_append_of_le_length hk]
      exact h.safe k

theorem idle {w : Stop} (h : Trail P s t ws) (hu : Idle t w u) : Trail P s u ws :=
  ⟨hu.writes.trans h.writes, hu.disk.trans h.disk, h.safe⟩

/-- A program that leaves a trail, however it ends, has issued the writes of the trail. -/
theorem issued_take {x : Prog LogSys Unit}
    (h : wp x (fun _ t => ∃ ws, Trail P s t ws) (fun _ t => ∃ ws, Trail P s t ws) s) (k : ℕ) :
    P ((issued x s).take k) := by
  have key : ∃ ws, Trail P s (x s).state ws := by
    unfold wp at h
    cases hx : x s with
    | ok a t => rw [hx] at h; exact h
    | stop w t => rw [hx] at h; exact h
  obtain ⟨ws, hws⟩ := key
  have : issued x s = ws := by rw [issued, hws.writes, drop_left]
  rw [this]
  exact hws.safe k

end Trail

/-! ### The writes of `commit` -/

section Commit

variable {s t : LogSys} {pid : ℕ}

/-- A transaction ready to be committed: the header on the disk is empty, and the blocks the
in-memory header lists are pinned in the cache. -/
structure Pending (s : LogSys) : Prop where
  inv : s.bio.Inv
  dev : s.log.dev = ROOTDEV
  clear : s.log.area.listed s.bio.disk = []
  head : s.log.HeadOk s.log.lh
  pinned : ∀ b ∈ s.log.lh, 0 < s.bio.abs.refs b

/-- What recovery makes of the disk once the writes `ws` of a commit have reached it. -/
def Outcome (s : LogSys) (ws : List (ℕ × Block)) : Prop :=
  s.log.area.Fits (s.log.area.listed (applyWrites s.bio.disk ws)) ∧
  ∀ b, s.log.area.Home b → s.log.area.redo (applyWrites s.bio.disk ws) b =
    if s.log.start ∈ ws.map Prod.fst ∧ b ∈ s.log.lh then s.bio.abs.view b else s.bio.disk b

/-- The state at a point of the commit that started in `s`; the blocks in `pins` are still
pinned. -/
structure Committing (s : LogSys) (pc : CommitPc) (pins : List ℕ) (t : LogSys) : Prop where
  inv : t.bio.Inv
  log : t.log = s.log
  phase : Phase s.log s.bio.disk s.bio.abs.view s.log.lh t.bio.abs pc
  pinned : ∀ b ∈ pins, 0 < t.bio.abs.refs b
  trail : ∃ ws, Trail (Outcome s) s t ws ∧ (s.log.start ∈ ws.map Prod.fst ↔ pc.committed = true)

theorem Committing.start (h : Pending s) : Committing s (.writing 0) s.log.lh s where
  inv := h.inv
  log := rfl
  phase := ⟨h.clear, fun _ _ => rfl, fun _ _ => rfl, fun j _ hj => absurd hj (Nat.not_lt_zero j)⟩
  pinned := h.pinned
  trail := by
    refine ⟨[], Trail.nil ⟨?_, fun b _ => ?_⟩, by simp [CommitPc.committed]⟩
    · rw [applyWrites_nil, h.clear]
      exact Area.Fits.nil (by have := h.head.room; omega)
    · rw [applyWrites_nil, Area.redo_of_listed_nil h.clear, if_neg (by simp)]

/-- One write takes a commit from one point to the next. -/
theorem Committing.write {u : LogSys} {pc pc' : CommitPc} {pins : List ℕ} {b : ℕ} {v : Block}
    (h : Pending s) (ht : Committing s pc pins t)
    (hd : u.bio.abs.disk = (t.bio.abs.write b v).disk)
    (hw : u.bio.abs.writes = (t.bio.abs.write b v).writes)
    (hphase : Phase s.log s.bio.disk s.bio.abs.view s.log.lh u.bio.abs pc')
    (hpc : pc'.committed = true ↔ pc.committed = true ∨ s.log.start = b) :
    ∃ ws, Trail (Outcome s) s u ws ∧ (s.log.start ∈ ws.map Prod.fst ↔ pc'.committed = true) := by
  obtain ⟨ws, hws, hc⟩ := ht.trail
  rw [Store.write_disk, abs_disk, abs_disk] at hd
  rw [Store.write_writes, abs_writes, abs_writes] at hw
  have hmem : s.log.start ∈ (ws ++ [(b, v)]).map Prod.fst ↔ pc'.committed = true := by
    rw [hpc, ← hc]
    simp
  have hdisk : applyWrites s.bio.disk (ws ++ [(b, v)]) = u.bio.abs.disk := by
    rw [applyWrites_concat, ← hws.disk, abs_disk, hd]
  refine ⟨ws ++ [(b, v)], hws.write hw hd ⟨?_, fun c hc => ?_⟩, hmem⟩
  · rw [hdisk]
    exact hphase.fits h.head
  · rw [hdisk, hphase.redo h.head hc]
    simp only [hmem]

/-- `Committing` is left with its trail when a round stops. -/
theorem Committing.stopped {u : LogSys} {pc : CommitPc} {pins : List ℕ}
    {w : Stop} (ht : Committing s pc pins t) (hu : Idle t w u) : ∃ ws, Trail (Outcome s) s u ws := by
  obtain ⟨ws, hws, -⟩ := ht.trail
  exact ⟨ws, hws.idle hu⟩

theorem wp_writeOne_committing (h : Pending s) {tail : ℕ} (hj : tail < s.log.lh.length)
    (ht : Committing s (.writing tail) s.log.lh t) :
    wp (writeOne pid tail) (fun _ => Committing s (.writing (tail + 1)) s.log.lh)
      (fun _ u => ∃ ws, Trail (Outcome s) s u ws) t := by
  have hhome := h.head.home _ (getElem_mem hj)
  refine wp_mono (wp_writeOne ht.inv (by rw [ht.log, h.dev]) (b := s.log.lh[tail])
    (by rw [ht.log]; simp [hj])
    (L := s.log.start + 1 + tail) (by rw [ht.log]; omega) (home_ne_log h.head hhome hj)) ?_
    (fun _ u hu => ht.stopped hu)
  rintro - u ⟨h1, h2, -, h4⟩
  have hphase := ht.phase.writeOne h.head hj
  rw [← h4] at hphase
  refine ⟨h1, h2.trans ht.log, hphase, by rw [h4]; exact ht.pinned, ?_⟩
  refine ht.write h (congrArg Store.disk h4) (congrArg Store.writes h4) hphase ?_
  simp [CommitPc.committed]
  omega

theorem wp_installOne_committing (h : Pending s) {tail : ℕ} (hj : tail < s.log.lh.length)
    (ht : Committing s (.installing tail) (s.log.lh.drop tail) t) :
    wp (installOne pid false tail)
      (fun _ => Committing s (.installing (tail + 1)) (s.log.lh.drop (tail + 1)))
      (fun _ u => ∃ ws, Trail (Outcome s) s u ws) t := by
  have hhome := h.head.home _ (getElem_mem hj)
  have hdrop := drop_eq_getElem_cons hj
  refine wp_mono (wp_installOne ht.inv (by rw [ht.log, h.dev]) false (b := s.log.lh[tail])
    (by rw [ht.log]; simp [hj])
    (L := s.log.start + 1 + tail) (by rw [ht.log]; omega) (home_ne_log h.head hhome hj)
    (fun _ => ht.pinned _ (by rw [hdrop]; exact mem_cons_self))) ?_
    (fun _ u hu => ht.stopped hu)
  rintro - u ⟨h1, h2, -, h4⟩
  rw [if_neg (by decide)] at h4
  have hphase : Phase s.log s.bio.disk s.bio.abs.view s.log.lh u.bio.abs (.installing (tail + 1)) :=
    (ht.phase.installOne h.head hj).congr (by rw [h4]; rfl) (by rw [h4]; rfl)
  refine ⟨h1, h2.trans ht.log, hphase, ?_, ?_⟩
  · -- the block just installed does not come again, so its pin is not needed any more
    intro c hc
    have hnodup : (s.log.lh.drop tail).Nodup := h.head.nodup.sublist (drop_sublist _ _)
    rw [hdrop, nodup_cons] at hnodup
    have hne : c ≠ s.log.lh[tail] := by
      rintro rfl
      exact hnodup.1 hc
    rw [h4, Store.unpin_refs, update_of_ne hne, Store.write_refs]
    exact ht.pinned c (by rw [hdrop]; exact mem_cons_of_mem _ hc)
  · refine ht.write h (b := s.log.lh[tail]) (v := t.bio.abs.view (s.log.start + 1 + tail))
      (by rw [h4, Store.unpin_disk]) (by rw [h4, Store.unpin_writes]) hphase ?_
    simp [CommitPc.committed]

/-- **Every initial segment of the writes of `commit`** leaves a disk that recovery takes to the
old blocks, or from the first `write_head` on to the new ones. -/
theorem wp_commit (pid : ℕ) (h : Pending s) :
    wp (commit pid) (fun _ t => ∃ ws, Trail (Outcome s) s t ws)
      (fun _ t => ∃ ws, Trail (Outcome s) s t ws) s := by
  have h0 := Committing.start h
  unfold commit
  rw [wp_bind, wp_get]
  split_ifs with hn
  · rw [wp_bind, writeLog, wp_bind, wp_get]
    refine wp_post (wp_forRange (fun i => Committing s (.writing i) s.log.lh) h0
      fun i t _ hi ht => wp_writeOne_committing h (by omega) ht) ?_
    rintro - t ht
    rw [Nat.zero_add] at ht
    rw [wp_bind]
    refine wp_mono (wp_writeHead ht.inv (by rw [ht.log, h.dev])) ?_ (fun _ u hu => ht.stopped hu)
    rintro - u ⟨h1, h2, -, h4⟩
    rw [ht.log] at h4
    have hphase := ht.phase.writeHead h.head (t.bio.abs.view s.log.start)
    rw [← h4] at hphase
    have hu : Committing s (.installing 0) (s.log.lh.drop 0) u :=
      ⟨h1, h2.trans ht.log, hphase, by rw [h4]; exact ht.pinned,
        ht.write h (congrArg Store.disk h4) (congrArg Store.writes h4) hphase
          (by simp [CommitPc.committed])⟩
    rw [wp_bind, installTrans, wp_bind, wp_get, hu.log]
    refine wp_post (wp_forRange (fun i => Committing s (.installing i) (s.log.lh.drop i)) hu
      fun i t _ hi ht => wp_installOne_committing h (by omega) ht) ?_
    rintro - v hv
    rw [Nat.zero_add] at hv
    rw [wp_bind, clearHead, wp_modify]
    refine wp_mono (wp_writeHead hv.inv (by rw [hv.log, h.dev])) ?_ ?_
    · rintro - w ⟨g1, g2, -, g4⟩
      rw [hv.log] at g4
      have hphase := hv.phase.clear h.head (v.bio.abs.view s.log.start)
      rw [← g4] at hphase
      obtain ⟨ws, hws, -⟩ := hv.write h (congrArg Store.disk g4) (congrArg Store.writes g4) hphase
        (by simp [CommitPc.committed])
      exact ⟨ws, hws⟩
    · rintro w u' hw
      obtain ⟨ws, hws, -⟩ := hv.trail
      exact ⟨ws, ⟨hw.writes.trans hws.writes, hw.disk.trans hws.disk, hws.safe⟩⟩
  · obtain ⟨ws, hws, -⟩ := h0.trail
    exact ⟨ws, hws⟩

end Commit

/-! ### The writes of recovery -/

section Recover

variable {s t : LogSys} {pid : ℕ}

/-- The writes `ws` leave what recovery makes of the disk. -/
def Harmless (s : LogSys) (ws : List (ℕ × Block)) : Prop :=
  s.log.area.Fits (s.log.area.listed (applyWrites s.bio.disk ws)) ∧
  ∀ b, s.log.area.Home b →
    s.log.area.redo (applyWrites s.bio.disk ws) b = s.log.area.redo s.bio.disk b

/-- The state in `recover_from_log`, started in `s`, when `tail` of the blocks `l` are installed. -/
structure Recovering (s : LogSys) (l : List ℕ) (tail : ℕ) (t : LogSys) : Prop where
  inv : t.bio.Inv
  quiet : t.bio.abs.Quiet
  log : t.log = { s.log with lh := l }
  listed : s.log.area.listed t.bio.disk = l
  installed : ∀ j (hj : j < l.length), j < tail →
    t.bio.disk l[j] = t.bio.disk (s.log.start + 1 + j)
  trail : ∃ ws, Trail (Harmless s) s t ws

/-- A write that leaves what recovery makes of the disk extends a trail of such writes. -/
theorem Harmless.write {u : LogSys} {ws : List (ℕ × Block)} {b : ℕ} {v : Block}
    (h : Trail (Harmless s) s t ws) (habs : u.bio.abs = t.bio.abs.write b v)
    (hf : s.log.area.Fits (s.log.area.listed (update t.bio.disk b v)))
    (hr : ∀ c, s.log.area.Home c → s.log.area.redo (update t.bio.disk b v) c =
      s.log.area.redo t.bio.disk c) : ∃ ws, Trail (Harmless s) s u ws := by
  have hd : u.bio.disk = update t.bio.disk b v := by
    rw [← abs_disk u.bio, habs, Store.write_disk, abs_disk]
  have hw : u.bio.writes = t.bio.writes ++ [(b, v)] := by
    rw [← abs_writes u.bio, habs, Store.write_writes, abs_writes]
  have hall := h.safe ws.length
  rw [take_length, Harmless, ← h.disk] at hall
  refine ⟨_, h.write hw hd ⟨?_, fun c hc => ?_⟩⟩
  · rwa [applyWrites_concat, ← h.disk]
  · rw [applyWrites_concat, ← h.disk, hr c hc]
    exact hall.2 c hc

theorem Quiet.of_write {a b : Store} {c : ℕ} {v : Block} (h : a.Quiet) (hb : b = a.write c v) :
    b.Quiet := by
  subst hb
  exact ⟨h.refs, h.holder⟩

theorem wp_installOne_recovering {l : List ℕ} {tail : ℕ} (hl : s.log.area.Fits l)
    (hdev : s.log.dev = ROOTDEV) (hj : tail < l.length) (ht : Recovering s l tail t) :
    wp (installOne pid true tail) (fun _ => Recovering s l (tail + 1)) (fun _ _ => False) t := by
  have hroom := hl.room
  have hhome := hl.home _ (getElem_mem hj)
  have hL : l[tail] ≠ s.log.start + 1 + tail := hhome.ne_log (a := s.log.area) (by omega)
  have hview := view_eq_disk ht.inv (ht.quiet.refs (s.log.start + 1 + tail))
  refine wp_mono (wp_installOne ht.inv (by rwa [ht.log]) true (b := l[tail])
    (by rw [ht.log]; simp [hj]) (L := s.log.start + 1 + tail) (by rw [ht.log]; simp; omega) hL
    (fun h => absurd h (by decide))) ?_ (fun _ u hu => hu.busy ht.quiet)
  rintro - u ⟨h1, h2, -, h4⟩
  rw [if_pos rfl, hview] at h4
  have hd : u.bio.disk = update t.bio.disk l[tail] (t.bio.disk (s.log.start + 1 + tail)) := by
    rw [← abs_disk u.bio, h4, Store.write_disk, abs_disk]
  have hlisted : s.log.area.listed u.bio.disk = l := by
    rw [hd, Area.listed_update_of_ne _ (hhome.ne_start (by omega)), ht.listed]
  refine ⟨h1, Quiet.of_write ht.quiet h4, h2.trans ht.log, hlisted, fun j hj' hlt => ?_, ?_⟩
  · have hne : s.log.start + 1 + j ≠ l[tail] := (hhome.ne_log (a := s.log.area) (by omega)).symm
    rw [hd, update_of_ne hne]
    by_cases hjt : j = tail
    · subst hjt
      rw [update_self]
    · rw [update_of_ne, ht.installed j hj' (by omega)]
      intro heq
      exact hjt ((hl.nodup.getElem_inj_iff).1 heq)
  · obtain ⟨ws, hws⟩ := ht.trail
    refine Harmless.write hws h4 ?_ fun c hc => ?_
    · rwa [← hd, hlisted]
    · have := Area.redo_install (d := t.bio.disk) (by rwa [ht.listed])
        (j := tail) (by rwa [ht.listed]) hc
      simp only [ht.listed] at this
      exact this

/-- When everything is installed, clearing the header leaves what recovery makes of the disk. -/
theorem Recovering.clear {u : LogSys} {l : List ℕ} {v : Block} (hl : s.log.area.Fits l)
    (ht : Recovering s l l.length t) (habs : u.bio.abs = t.bio.abs.write s.log.start v)
    (hn : v.getLE 4 0 = 0) :
    (u.bio.disk s.log.start).getLE 4 0 = 0 ∧
      (∀ b, s.log.area.Home b → u.bio.disk b = s.log.area.redo s.bio.disk b) ∧
      ∃ ws, Trail (Harmless s) s u ws := by
  have hsize : 0 < s.log.area.size := by have := hl.room; omega
  have hv := decodeHead_of_zero hn
  have hd : u.bio.disk = update t.bio.disk s.log.start v := by
    rw [← abs_disk u.bio, habs, Store.write_disk, abs_disk]
  have hnil : s.log.area.listed u.bio.disk = [] := by
    rw [hd, Log.listed_eq, update_self, hv]
  have hredo : ∀ c, s.log.area.Home c →
      s.log.area.redo u.bio.disk c = s.log.area.redo t.bio.disk c := by
    intro c hc
    rw [hd, ← Log.area_start]
    refine Area.redo_clear (by rw [Log.area_head, hv]) (by rw [ht.listed]; exact hl.nodup) ?_
      (hc.ne_start hsize)
    intro j hj
    simp only [ht.listed] at hj ⊢
    exact ht.installed j hj hj
  obtain ⟨ws, hws⟩ := ht.trail
  have hall := hws.safe ws.length
  rw [take_length, Harmless, ← hws.disk] at hall
  refine ⟨by rwa [hd, update_self], fun b hb => ?_, Harmless.write hws habs ?_ ?_⟩
  · rw [← hall.2 b hb, ← hredo b hb, Area.redo_of_listed_nil hnil]
  · rw [← hd, hnil]
    exact Area.Fits.nil hsize
  · rwa [← hd]

/-- After `read_head` nothing is installed yet. -/
theorem Recovering.start (hinv : s.bio.Inv) (hquiet : s.bio.abs.Quiet)
    (hf : s.log.area.Fits (s.log.area.listed s.bio.disk)) (h1 : t.bio.Inv)
    (h2 : t.log = { s.log with lh := decodeHead (s.bio.abs.view s.log.start) })
    (h3 : t.bio.abs = s.bio.abs) : Recovering s (s.log.area.listed s.bio.disk) 0 t := by
  rw [view_eq_disk hinv (hquiet.refs _), ← Log.listed_eq] at h2
  have hdisk : t.bio.disk = s.bio.disk := by rw [← abs_disk t.bio, h3, abs_disk]
  have hwrites : t.bio.writes = s.bio.writes := by rw [← abs_writes t.bio, h3, abs_writes]
  refine ⟨h1, by rwa [h3], h2, by rw [hdisk], ?_, [], ?_⟩
  · intro j _ hj
    exact absurd hj (Nat.not_lt_zero j)
  · refine ⟨by rw [hwrites, append_nil], by rw [hdisk, applyWrites_nil], fun k => ?_⟩
    rw [take_nil, Harmless, applyWrites_nil]
    exact ⟨hf, fun b _ => rfl⟩

/-- **Recovery** on a disk whose header the log can serve always completes, makes of the home
blocks what the header says, and leaves an empty header. -/
theorem wp_recoverFromLog (pid : ℕ) (hinv : s.bio.Inv) (hquiet : s.bio.abs.Quiet)
    (hdev : s.log.dev = ROOTDEV) (hf : s.log.area.Fits (s.log.area.listed s.bio.disk)) :
    wp (recoverFromLog pid)
      (fun _ t => (t.bio.disk s.log.start).getLE 4 0 = 0 ∧
        (∀ b, s.log.area.Home b → t.bio.disk b = s.log.area.redo s.bio.disk b) ∧
        ∃ ws, Trail (Harmless s) s t ws)
      (fun _ _ => False) s := by
  unfold recoverFromLog
  rw [wp_bind]
  refine wp_mono (wp_readHead hinv hdev) ?_ (fun _ u hu => hu.busy hquiet)
  rintro - t ⟨h1, h2, h3⟩
  have h0 := Recovering.start hinv hquiet hf h1 h2 h3
  rw [wp_bind, installTrans, wp_bind, wp_get, h0.log]
  refine wp_post (wp_forRange (Recovering s (s.log.area.listed s.bio.disk)) h0 fun i u _ hi hu =>
    wp_installOne_recovering hf hdev (by simpa using hi) hu) ?_
  rintro - u hu
  simp only [Nat.zero_add] at hu
  rw [wp_bind, clearHead, wp_modify, hu.log]
  refine wp_mono (wp_writeHead hu.inv hdev) ?_ (fun _ w hw => hw.busy hu.quiet)
  rintro - v ⟨-, -, -, h4⟩
  dsimp only at h4
  exact hu.clear hf h4 (getLE_encodeHead_nil _)

theorem initlog_quiet (start size : ℕ) (d : ℕ → Block) :
    (initlog start size d).bio.abs.Quiet := by
  rw [show (initlog start size d).bio = binit d from rfl, binit_abs]
  exact ⟨fun _ => rfl, fun _ => rfl⟩

theorem initlog_area (g : Log) (d : ℕ → Block) :
    (initlog g.start g.size d).log.area = g.area := rfl

/-- **Recovery of a machine that starts** on a disk whose header the log can serve. -/
theorem wp_recoverFromLog_initlog (pid : ℕ) {g : Log} {d : ℕ → Block}
    (hf : g.area.Fits (g.area.listed d)) :
    wp (recoverFromLog pid)
      (fun _ t => (t.bio.disk g.start).getLE 4 0 = 0 ∧
        (∀ b, g.area.Home b → t.bio.disk b = g.area.redo d b) ∧
        ∃ ws, Trail (Harmless (initlog g.start g.size d)) (initlog g.start g.size d) t ws)
      (fun _ _ => False) (initlog g.start g.size d) := by
  have hdisk : (initlog g.start g.size d).bio.disk = d := rfl
  have h := wp_recoverFromLog (s := initlog g.start g.size d) pid (binit_inv d)
    (initlog_quiet g.start g.size d) rfl (by rwa [initlog_area, hdisk])
  rwa [initlog_area, hdisk] at h

/-- Interrupted recoveries leave what recovery makes of the disk. -/
theorem Interrupted.redo {g : Log} {d d' : ℕ → Block} (h : Interrupted g.start g.size d d')
    (hf : g.area.Fits (g.area.listed d)) :
    g.area.Fits (g.area.listed d') ∧ ∀ b, g.area.Home b → g.area.redo d' b = g.area.redo d b := by
  induction h with
  | refl => exact ⟨hf, fun _ _ => rfl⟩
  | @crash d' pid k _ ih =>
    obtain ⟨ih1, ih2⟩ := ih
    have key := Trail.issued_take
      (wp_mono (wp_recoverFromLog_initlog pid ih1) (fun _ _ h => h.2.2) fun _ _ h => h.elim) k
    have hdisk : (initlog g.start g.size d').bio.disk = d' := rfl
    rw [Harmless, initlog_area, hdisk] at key
    exact ⟨key.1, fun b hb => (key.2 b hb).trans (ih2 b hb)⟩

/-- **Recovery after interrupted recoveries** completes, and makes of the home blocks what the
header on the first disk says. -/
theorem recover_interrupted {g : Log} {d d' : ℕ → Block} (h : Interrupted g.start g.size d d')
    (hf : g.area.Fits (g.area.listed d)) (pid : ℕ) :
    ∃ t, recoverFromLog pid (initlog g.start g.size d') = .ok () t ∧
      (t.bio.disk g.start).getLE 4 0 = 0 ∧ ∀ b, g.area.Home b → t.bio.disk b = g.area.redo d b := by
  obtain ⟨hfit, hredo⟩ := h.redo hf
  obtain ⟨⟨⟩, t, hrun, hnil, hhome, -⟩ := wp_returns (wp_recoverFromLog_initlog pid hfit) fun _ _ hf => hf
  exact ⟨t, hrun, hnil, fun b hb => (hhome b hb).trans (hredo b hb)⟩

end Recover

/-! ### Crash atomicity -/

/-- **Crash atomicity of the redo log.** Stop `commit` after any number `k` of its block writes,
stop recovery any number of times after any number of its own: the recovery that is not stopped
returns, with `n = 0` in the header and no home block outside the transaction changed, and the blocks of
the transaction are all new if the first `write_head` had reached the disk, and all old if not. -/
theorem commit_crash_atomic {s : LogSys} (h : Pending s) (pid k : ℕ) {d : ℕ → Block}
    (hd : Interrupted s.log.start s.log.size
      (applyWrites s.bio.disk ((issued (commit pid) s).take k)) d) (pid' : ℕ) :
    ∃ t, recoverFromLog pid' (initlog s.log.start s.log.size d) = .ok () t ∧
      (t.bio.disk s.log.start).getLE 4 0 = 0 ∧
      (∀ b, s.log.area.Home b → b ∉ s.log.lh → t.bio.disk b = s.bio.disk b) ∧
      ((s.log.start ∈ ((issued (commit pid) s).take k).map Prod.fst ∧
          ∀ b ∈ s.log.lh, t.bio.disk b = s.bio.abs.view b) ∨
        (s.log.start ∉ ((issued (commit pid) s).take k).map Prod.fst ∧
          ∀ b ∈ s.log.lh, t.bio.disk b = s.bio.disk b)) := by
  have hout := Trail.issued_take (wp_commit pid h) k
  obtain ⟨t, hrun, hnil, hhome⟩ := recover_interrupted hd hout.1 pid'
  have hval := fun b hb => (hhome b hb).trans (hout.2 b hb)
  refine ⟨t, hrun, hnil, fun b hb hm => ?_, ?_⟩
  · rw [hval b hb, if_neg fun hc => hm hc.2]
  · by_cases hstart : s.log.start ∈ ((issued (commit pid) s).take k).map Prod.fst
    · refine Or.inl ⟨hstart, fun b hb => ?_⟩
      rw [hval b (h.head.home b hb), if_pos ⟨hstart, hb⟩]
    · refine Or.inr ⟨hstart, fun b hb => ?_⟩
      rw [hval b (h.head.home b hb), if_neg fun hc => hstart hc.1]

/-- A block of ones is put into a buffer, and pinned. -/
def pinned (s : Bio) (i : Fin NBUF) (b : ℕ) : Bio :=
  (s.upd i fun _ => s.fresh 1 b).upd i fun x => { x with locked := none, data := fun _ => 1 }

theorem pinned_inv {s : Bio} {i : Fin NBUF} {b : ℕ} (h : s.Inv) (hn : ∀ j, ¬ s.At j b)
    (hi : (s.buf i).refcnt = 0) : (pinned s i b).Inv := by
  refine inv_upd (i := i) (f := fun x => { x with locked := none, data := fun _ => 1 })
    (fun _ => ⟨rfl, rfl⟩) (inv_recycle 1 h hn hi) (at_recycle.2 (Or.inl ⟨rfl, rfl⟩)) (fun _ => rfl) ?_ ?_
  · intro hz
    exact absurd hz (by rw [upd_buf_self]; simp [fresh])
  · intro hn
    exact absurd rfl hn

theorem at_pinned {s : Bio} {i j : Fin NBUF} {b c : ℕ} :
    (pinned s i b).At j c ↔ (j = i ∧ c = b) ∨ (j ≠ i ∧ s.At j c) :=
  (at_upd (f := fun x => { x with locked := none, data := fun _ => 1 }) fun _ => ⟨rfl, rfl⟩).trans
    at_recycle

/-- A zero disk, with two logged and pinned blocks in the cache. -/
def twoBlocks : LogSys where
  bio := pinned (pinned (binit fun _ _ => 0) 0 100) 1 101
  log := ⟨2, 30, 0, true, ROOTDEV, [100, 101]⟩

theorem twoBlocks_inv : twoBlocks.bio.Inv := by
  have hnone : ∀ j b, ¬ (binit fun _ _ => 0).At j b := fun j b hj => absurd hj.1 (by simp [binit])
  refine pinned_inv (pinned_inv (binit_inv _) (fun j => hnone j 100) rfl) (fun j hj => ?_) rfl
  rcases at_pinned.1 hj with ⟨-, heq⟩ | ⟨-, hj'⟩
  · cases heq
  · exact hnone j 101 hj'

theorem twoBlocks_pending : Pending twoBlocks where
  inv := twoBlocks_inv
  dev := rfl
  clear := by
    show decodeHead (fun _ => 0) = []
    decide
  head := ⟨⟨by decide, by simp [twoBlocks, Log.area, Area.Home], by decide⟩, by decide, by decide⟩
  pinned := by
    intro b hb
    have hb' : b = 100 ∨ b = 101 := by simpa [twoBlocks] using hb
    rcases hb' with rfl | rfl
    · rw [refs_at twoBlocks_inv (i := 0) (at_pinned.2 (Or.inr
        ⟨by decide, at_pinned.2 (Or.inl ⟨rfl, rfl⟩)⟩))]
      decide
    · rw [refs_at twoBlocks_inv (i := 1) (at_pinned.2 (Or.inl ⟨rfl, rfl⟩))]
      decide

/-- The machine stops after the three writes up to the header. -/
theorem twoBlocks_crash_atomic :
    Pending twoBlocks ∧ ∃ t, recoverFromLog 0 (initlog 2 30
        (applyWrites twoBlocks.bio.disk ((issued (commit 0) twoBlocks).take 3))) = .ok () t ∧
      (t.bio.disk 2).getLE 4 0 = 0 ∧
      (∀ b, twoBlocks.log.area.Home b → b ∉ [100, 101] → t.bio.disk b = twoBlocks.bio.disk b) ∧
      ((2 ∈ ((issued (commit 0) twoBlocks).take 3).map Prod.fst ∧
          ∀ b ∈ [100, 101], t.bio.disk b = twoBlocks.bio.abs.view b) ∨
        (2 ∉ ((issued (commit 0) twoBlocks).take 3).map Prod.fst ∧
          ∀ b ∈ [100, 101], t.bio.disk b = twoBlocks.bio.disk b)) :=
  ⟨twoBlocks_pending, commit_crash_atomic twoBlocks_pending 0 3 .refl 0⟩

end Xv6
