import Xv6.Lib.Ring

/-!
# The disk driver (`virtio_disk.c`)

Any number of processes call `virtio_disk_rw`, each on a buffer whose sleep lock it holds, the device
takes the chains that were submitted and completes them in any order, and `virtio_disk_intr` looks at the
completions.  `disk.vdisk_lock` is held over a step of a process; the loop of the interrupt handler is one
step a turn, so that the device works on between the turns.  A process that sleeps may go on at any time:
`wakeup` and `kill` lead there, and every call of `sleep` stands in a loop.

Of the device this is assumed: it completes a chain it has taken once, and writes status 0.

* `Virtio.allocDesc`, `Virtio.freeDesc`, `Virtio.alloc3Desc`, `Virtio.freeChain`: the descriptors, with
  the panics of `free_desc`;
* `Virtio.Inv`: the chains of the requests in flight, and where each one is on its way through the rings;
* `Virtio.reachable_matched`: requests are matched to completions, however often the indices wrap.
-/

namespace Xv6

open Function List

namespace Virtio

/-- The number of descriptors, and of the cells of the rings. -/
def NUM : ℕ := 8

instance : NeZero NUM := ⟨by decide⟩

/-- The fields of a descriptor that the driver reads again: `flags` and `next`. -/
structure Desc where
  flags : BitVec 16
  next : ℕ
  deriving DecidableEq

def VRING_DESC_F_NEXT : BitVec 16 := 1
def VRING_DESC_F_WRITE : BitVec 16 := 2

/-- `disk.info`. -/
structure Info (B : Type) where
  b : Option B
  status : UInt8

/-- `struct disk`, without the rings. -/
structure Disk (B : Type) where
  free : ℕ → Bool
  desc : ℕ → Desc
  info : ℕ → Info B

section

variable {B : Type}

/-- `alloc_desc`. -/
def allocDesc (d : Disk B) : Option (ℕ × Disk B) :=
  match (List.range NUM).find? d.free with
  | none => none
  | some i => some (i, { d with free := update d.free i false })

/-- `free_desc`. -/
def freeDesc (i : ℕ) (d : Disk B) : Except String (Disk B) :=
  if NUM ≤ i then .error "free_desc 1"
  else if d.free i then .error "free_desc 2"
  else .ok { d with desc := update d.desc i ⟨0, 0⟩, free := update d.free i true }

/-- `free_chain`; a longer chain would come to a free descriptor. -/
def freeChain : ℕ → ℕ → Disk B → Except String (Disk B)
  | 0, _, _ => .error "free_desc 2"
  | fuel + 1, i, d =>
    let flag := (d.desc i).flags
    let nxt := (d.desc i).next
    match freeDesc i d with
    | .error m => .error m
    | .ok d => if flag &&& VRING_DESC_F_NEXT ≠ 0 then freeChain fuel nxt d else .ok d

/-- `alloc3_desc`: what it took is given back when a descriptor is missing. -/
def alloc3Desc (d : Disk B) : Except String (Option (ℕ × ℕ × ℕ) × Disk B) :=
  match allocDesc d with
  | none => .ok (none, d)
  | some (i, d) =>
    match allocDesc d with
    | none => (freeDesc i d).map fun d => (none, d)
    | some (j, d) =>
      match allocDesc d with
      | none => (freeDesc i d >>= freeDesc j).map fun d => (none, d)
      | some (k, d) => .ok (some (i, j, k), d)

/-- `virtio_disk_rw` formats the three descriptors and records the buffer. -/
def format (b : B) (write : Bool) (i j k : ℕ) (d : Disk B) : Disk B where
  free := d.free
  desc := update (update (update d.desc i ⟨VRING_DESC_F_NEXT, j⟩) j
    ⟨(if write then 0 else VRING_DESC_F_WRITE) ||| VRING_DESC_F_NEXT, k⟩) k ⟨VRING_DESC_F_WRITE, 0⟩
  info := update d.info i ⟨some b, 0xff⟩

end

/-- Where a process is. -/
inductive Pc (B : Type)
  | idle
  /-- In `virtio_disk_rw`, about to allocate descriptors. -/
  | alloc (b : B) (write : Bool)
  /-- In `virtio_disk_rw`, waiting for `b->disk` to be 0. -/
  | wait (b : B) (i j k : ℕ)

/-- The buffer of the call a process is in. -/
def Pc.buf? {B : Type} : Pc B → Option B
  | .idle => none
  | .alloc b _ | .wait b _ _ _ => some b

/-- The driver, the device and the processes. -/
structure Sys (P B : Type) where
  disk : Disk B
  /-- The ring of submitted chains; the device reads it. -/
  avail : RingBuffer ℕ 16 NUM
  /-- The ring of completed chains; the driver reads it, up to `disk.used_idx`. -/
  used : RingBuffer ℕ 16 NUM
  /-- The chains the device has taken and not completed. -/
  device : List ℕ
  /-- `b->disk`. -/
  busy : B → Bool
  /-- `virtio_disk_intr` holds `disk.vdisk_lock`. -/
  intr : Bool
  pc : P → Pc B
  panic : Option String

variable {P B : Type} [DecidableEq P] [DecidableEq B]

namespace Sys

/-- Process `p` goes on at `k`. -/
def goto (s : Sys P B) (p : P) (k : Pc B) : Sys P B := { s with pc := update s.pc p k }

/-- The first part of `virtio_disk_rw`, up to the wait. -/
def submit (s : Sys P B) (p : P) (b : B) (write : Bool) : Sys P B :=
  match alloc3Desc s.disk with
  | .error m => { s with panic := some m }
  | .ok (none, d) => { s with disk := d }
  | .ok (some (i, j, k), d) =>
    { s.goto p (.wait b i j k) with
      disk := format b write i j k d
      busy := update s.busy b true
      avail := s.avail.push i }

/-- The last part of `virtio_disk_rw`, after the wait. -/
def complete (s : Sys P B) (p : P) (i : ℕ) : Sys P B :=
  match freeChain (NUM + 1) i { s.disk with
      info := update s.disk.info i { s.disk.info i with b := none } } with
  | .error m => { s with panic := some m }
  | .ok d => { s.goto p .idle with disk := d }

/-- One turn of the loop of `virtio_disk_intr`, for the completion of chain `id`. -/
def turn (s : Sys P B) (id : ℕ) : Sys P B :=
  if (s.disk.info id).status ≠ 0 then { s with panic := some "virtio_disk_intr status" }
  else
    match (s.disk.info id).b with
    | none => { s with panic := some "kerneltrap" }
    | some b => { s with busy := update s.busy b false, used := s.used.pop }

end Sys

/-- What a step does, as far as completions go. -/
inductive Act
  /-- `virtio_disk_rw` puts a chain in the ring. -/
  | submit
  /-- `virtio_disk_intr` handles the completion of a chain. -/
  | turn (id : ℕ)
  | other

/-- One step. -/
inductive Step : Sys P B → Act → Sys P B → Prop
  /-- `virtio_disk_rw` is called with `b->lock` held, so nobody else is in a call on `b`. -/
  | call (s : Sys P B) (p : P) (b : B) (write : Bool) (hp : s.pc p = .idle)
      (hb : ∀ q, (s.pc q).buf? ≠ some b) : Step s .other (s.goto p (.alloc b write))
  | submit (s : Sys P B) (p : P) (b : B) (write : Bool) (hp : s.pc p = .alloc b write)
      (hl : s.intr = false) : Step s .submit (s.submit p b write)
  | complete (s : Sys P B) (p : P) (b : B) (i j k : ℕ) (hp : s.pc p = .wait b i j k)
      (hl : s.intr = false) (hb : s.busy b = false) : Step s .other (s.complete p i)
  -- the device
  | take (s : Sys P B) (h : s.avail.empty = false) :
      Step s .other { s with avail := s.avail.pop, device := s.avail.front :: s.device }
  | finish (s : Sys P B) (i : ℕ) (h : i ∈ s.device) :
      Step s .other { s with
        device := s.device.erase i
        used := s.used.push i
        disk := { s.disk with
          info := update s.disk.info i { s.disk.info i with status := 0 } } }
  -- `virtio_disk_intr`
  | enter (s : Sys P B) (hl : s.intr = false) : Step s .other { s with intr := true }
  | turn (s : Sys P B) (hl : s.intr = true) (h : s.used.empty = false) :
      Step s (.turn s.used.front) (s.turn s.used.front)
  | leave (s : Sys P B) (hl : s.intr = true) (h : s.used.empty = true) :
      Step s .other { s with intr := false }

/-- `virtio_disk_init`. -/
def init : Sys P B where
  disk := ⟨fun i => i < NUM, fun _ => ⟨0, 0⟩, fun _ => ⟨none, 0⟩⟩
  avail := ⟨fun _ => 0, 0, 0⟩
  used := ⟨fun _ => 0, 0, 0⟩
  device := []
  busy _ := false
  intr := false
  pc _ := .idle
  panic := none

/-- The states of the runs; a panic ends the run. -/
inductive Reachable : Sys P B → Prop
  | init : Reachable init
  | step {s t : Sys P B} {a : Act} (h : Reachable s) (hs : s.panic = none) (hst : Step s a t) : Reachable t

/-! ### Descriptors -/

section

variable {d d' : Disk B} {i j k : ℕ}

section

omit [DecidableEq B]

theorem allocDesc_eq_some (h : allocDesc d = some (i, d')) :
    i < NUM ∧ d.free i = true ∧ d' = { d with free := update d.free i false } := by
  unfold allocDesc at h
  cases hf : (List.range NUM).find? d.free with
  | none => simp [hf] at h
  | some x =>
    simp only [hf, Option.some.injEq, Prod.mk.injEq] at h
    obtain ⟨rfl, rfl⟩ := h
    exact ⟨mem_range.1 (mem_of_find?_eq_some hf), find?_some hf, rfl⟩

theorem freeDesc_eq (hi : i < NUM) (hf : d.free i = false) :
    freeDesc i d = .ok { d with
      desc := update d.desc i ⟨0, 0⟩, free := update d.free i true } := by
  unfold freeDesc
  rw [if_neg (by omega), if_neg (by simp [hf])]

theorem update_free {f : ℕ → Bool} (hf : f i = true) :
    update (update f i false) i true = f := by
  rw [update_idem, ← hf, update_eq_self]

/-- **`alloc3_desc`** takes three different free descriptors, or leaves the free ones as they were; it does
not panic. -/
theorem alloc3Desc_cases (d : Disk B) :
    (∃ d', alloc3Desc d = .ok (none, d') ∧ d'.free = d.free ∧ d'.info = d.info ∧
      ∀ x, d.free x = false → d'.desc x = d.desc x) ∨
    ∃ i j k d', alloc3Desc d = .ok (some (i, j, k), d') ∧ (i < NUM ∧ j < NUM ∧ k < NUM) ∧
      (i ≠ j ∧ i ≠ k ∧ j ≠ k) ∧ (d.free i = true ∧ d.free j = true ∧ d.free k = true) ∧
      d' = { d with
        free := update (update (update d.free i false) j false) k false } := by
  have hne : ∀ {f : ℕ → Bool} {x y : ℕ}, update f x false y = true → x ≠ y := by
    rintro f x y hy rfl
    simp [update_self] at hy
  unfold alloc3Desc
  cases h1 : allocDesc d with
  | none => exact .inl ⟨d, rfl, rfl, rfl, fun _ _ => rfl⟩
  | some r1 =>
    obtain ⟨i, d1⟩ := r1
    obtain ⟨hi, hfi, rfl⟩ := allocDesc_eq_some h1
    have hdesc : ∀ x, d.free x = false → update d.desc i ⟨0, 0⟩ x = d.desc x := by
      intro x hx
      refine update_of_ne ?_ _ _
      rintro rfl
      simp [hfi] at hx
    dsimp only
    cases h2 : allocDesc { d with free := update d.free i false } with
    | none =>
      left
      rw [freeDesc_eq hi (update_self _ _ _)]
      exact ⟨_, rfl, update_free hfi, rfl, hdesc⟩
    | some r2 =>
      obtain ⟨j, d2⟩ := r2
      obtain ⟨hj, hfj, rfl⟩ := allocDesc_eq_some h2
      have hij : i ≠ j := hne hfj
      have hfj' : d.free j = true := (update_of_ne (Ne.symm hij) _ _).symm.trans hfj
      dsimp only
      cases h3 : allocDesc { d with
          free := update (update d.free i false) j false } with
      | none =>
        left
        have hfree : update (update d.free i false) j false i = false := by
          rw [update_of_ne hij, update_self]
        have hfree' : update (update (update d.free i false) j false) i true j =
            false := by
          rw [update_of_ne (Ne.symm hij), update_self]
        have hboth : (freeDesc i { d with
            free := update (update d.free i false) j false } >>= freeDesc j) =
            .ok { d with
              desc := update (update d.desc i ⟨0, 0⟩) j ⟨0, 0⟩
              free := update (update (update (update d.free i false) j
                false) i true) j true } := by
          rw [freeDesc_eq hi hfree]
          exact freeDesc_eq hj hfree'
        dsimp only
        rw [hboth]
        refine ⟨_, rfl, ?_, rfl, fun x hx => ?_⟩
        · show update (update (update (update d.free i false) j false)
            i true) j true = d.free
          rw [update_comm hij, update_free (show update d.free i false j = true from hfj),
            update_free hfi]
        · have hxj : x ≠ j := by
            rintro rfl
            rw [hfj'] at hx
            cases hx
          exact (update_of_ne hxj _ _).trans (hdesc x hx)
      | some r3 =>
        obtain ⟨k, d3⟩ := r3
        obtain ⟨hk, hfk, rfl⟩ := allocDesc_eq_some h3
        have hjk : j ≠ k := hne hfk
        have hfk' : update d.free i false k = true :=
          (update_of_ne (Ne.symm hjk) _ _).symm.trans hfk
        have hik : i ≠ k := hne hfk'
        have hfk'' : d.free k = true := (update_of_ne (Ne.symm hik) _ _).symm.trans hfk'
        exact .inr ⟨i, j, k, _, rfl, ⟨hi, hj, hk⟩, ⟨hij, hik, hjk⟩, ⟨hfi, hfj', hfk''⟩, rfl⟩

end

/-- Three descriptors in use, linked by `next`. -/
structure Chain (d : Disk B) (i j k : ℕ) : Prop where
  lt : i < NUM ∧ j < NUM ∧ k < NUM
  ne : i ≠ j ∧ i ≠ k ∧ j ≠ k
  used : d.free i = false ∧ d.free j = false ∧ d.free k = false
  first : (d.desc i).flags &&& VRING_DESC_F_NEXT ≠ 0 ∧ (d.desc i).next = j
  second : (d.desc j).flags &&& VRING_DESC_F_NEXT ≠ 0 ∧ (d.desc j).next = k
  third : (d.desc k).flags &&& VRING_DESC_F_NEXT = 0

section

omit [DecidableEq B]

theorem Chain.used_of (h : Chain d i j k) {x : ℕ} (hx : x = i ∨ x = j ∨ x = k) : d.free x = false := by
  obtain ⟨hi, hj, hk⟩ := h.used
  rcases hx with rfl | rfl | rfl
  · exact hi
  · exact hj
  · exact hk

theorem Chain.congr (h : Chain d i j k)
    (hd : ∀ x, x = i ∨ x = j ∨ x = k → d'.free x = d.free x ∧ d'.desc x = d.desc x) : Chain d' i j k := by
  obtain ⟨hfi, hdi⟩ := hd i (.inl rfl)
  obtain ⟨hfj, hdj⟩ := hd j (.inr (.inl rfl))
  obtain ⟨hfk, hdk⟩ := hd k (.inr (.inr rfl))
  exact ⟨h.lt, h.ne, by rw [hfi, hfj, hfk]; exact h.used, by rw [hdi]; exact h.first,
    by rw [hdj]; exact h.second, by rw [hdk]; exact h.third⟩

/-- `free_chain` goes on to the next descriptor. -/
theorem freeChain_next {fuel : ℕ} {e : Desc} (hi : i < NUM) (hf : d.free i = false) (hd : d.desc i = e)
    (hflag : e.flags &&& VRING_DESC_F_NEXT ≠ 0) (hnext : e.next = j) :
    freeChain (fuel + 1) i d = freeChain fuel j { d with
      desc := update d.desc i ⟨0, 0⟩, free := update d.free i true } := by
  subst hd
  rw [freeChain, freeDesc_eq hi hf]
  dsimp only
  rw [if_pos hflag, hnext]

/-- `free_chain` ends at a descriptor without the flag. -/
theorem freeChain_last {fuel : ℕ} {e : Desc} (hi : i < NUM) (hf : d.free i = false) (hd : d.desc i = e)
    (hflag : e.flags &&& VRING_DESC_F_NEXT = 0) :
    freeChain (fuel + 1) i d = .ok { d with
      desc := update d.desc i ⟨0, 0⟩, free := update d.free i true } := by
  subst hd
  rw [freeChain, freeDesc_eq hi hf]
  dsimp only
  rw [if_neg (not_not.2 hflag)]

/-- **`free_chain`** frees the three descriptors of a chain; it does not panic. -/
theorem Chain.freeChain (h : Chain d i j k) :
    freeChain (NUM + 1) i d = .ok { d with
      desc := update (update (update d.desc i ⟨0, 0⟩) j ⟨0, 0⟩) k ⟨0, 0⟩
      free := update (update (update d.free i true) j true) k true } := by
  obtain ⟨hi, hj, hk⟩ := h.lt
  obtain ⟨hij, hik, hjk⟩ := h.ne
  obtain ⟨hfi, hfj, hfk⟩ := h.used
  have hfj' : update d.free i true j = false := by rwa [update_of_ne hij.symm]
  have hdj' : update d.desc i ⟨0, 0⟩ j = d.desc j := update_of_ne hij.symm _ _
  have hfk' : update (update d.free i true) j true k = false := by
    rwa [update_of_ne hjk.symm, update_of_ne hik.symm]
  have hdk' : update (update d.desc i ⟨0, 0⟩) j ⟨0, 0⟩ k = d.desc k := by
    rw [update_of_ne hjk.symm, update_of_ne hik.symm]
  rw [show NUM + 1 = 6 + 1 + 1 + 1 from rfl, freeChain_next hi hfi rfl h.first.1 h.first.2,
    freeChain_next hj hfj' hdj' h.second.1 h.second.2, freeChain_last hk hfk' hdk' h.third]

/-- **`virtio_disk_rw`** makes a chain of the three descriptors it took. -/
theorem chain_format (b : B) (write : Bool) (hlt : i < NUM ∧ j < NUM ∧ k < NUM)
    (hne : i ≠ j ∧ i ≠ k ∧ j ≠ k) (hf : d.free i = false ∧ d.free j = false ∧ d.free k = false) :
    Chain (format b write i j k d) i j k := by
  obtain ⟨hij, hik, hjk⟩ := hne
  refine ⟨hlt, ⟨hij, hik, hjk⟩, hf, ?_, ?_, ?_⟩
  · simp only [format, update_of_ne hik, update_of_ne hij, update_self]
    exact ⟨by decide, trivial⟩
  · simp only [format, update_of_ne hjk, update_self]
    exact ⟨by cases write <;> decide, trivial⟩
  · simp only [format, update_self]
    decide

end

end

/-! ### The invariant -/

/-- The descriptors of the request a process waits for. -/
def Pc.descs : Pc B → List ℕ
  | .wait _ i j k => [i, j, k]
  | _ => []

omit [DecidableEq P] [DecidableEq B] in
theorem mem_descs {k : Pc B} {x : ℕ} :
    x ∈ k.descs ↔ ∃ b i j l, k = .wait b i j l ∧ (x = i ∨ x = j ∨ x = l) := by
  cases k <;> simp [Pc.descs]

/-- The head of a chain that is on its way: submitted, and not yet handled by `virtio_disk_intr`. -/
def Sys.Pending (s : Sys P B) (i : ℕ) : Prop := ∃ p b j k, s.pc p = .wait b i j k ∧ s.busy b = true

/-- The chains on their way are in the first ring, with the device, or in the second ring. -/
structure Located (s : Sys P B) (q u : List ℕ) : Prop where
  avail : s.avail.Contains q
  used : s.used.Contains u
  nodup : (q ++ s.device ++ u).Nodup
  mem : ∀ i, i ∈ q ++ s.device ++ u ↔ s.Pending i
  status : ∀ i ∈ u, (s.disk.info i).status = 0

/-- The invariant. -/
structure Inv (s : Sys P B) : Prop where
  panic : s.panic = none
  chain : ∀ p b i j k, s.pc p = .wait b i j k → Chain s.disk i j k ∧ (s.disk.info i).b = some b
  part : ∀ x, x < NUM → s.disk.free x = false → ∃ p, x ∈ (s.pc p).descs
  disj : ∀ p q x, x ∈ (s.pc p).descs → x ∈ (s.pc q).descs → p = q
  bufs : ∀ p q b, (s.pc p).buf? = some b → (s.pc q).buf? = some b → p = q
  located : ∃ q u, Located s q u

theorem size_dvd : NUM ∣ 2 ^ 16 := by decide

omit [DecidableEq P] [DecidableEq B] in
theorem inv_init : Inv (init : Sys P B) where
  panic := rfl
  chain p b i j k h := by simp [init] at h
  part x hx hf := by simp [init, hx] at hf
  disj p q x h := by simp [init, Pc.descs] at h
  bufs p q b h := by simp [init, Pc.buf?] at h
  located := by
    refine ⟨[], [], RingBuffer.Contains.init _, RingBuffer.Contains.init _, nodup_nil, fun i => ?_,
      by simp⟩
    simp [init, Sys.Pending]

/-- Fewer than `NUM` chains fit beside a descriptor. -/
theorem length_lt_of_ne {l : List ℕ} {i : ℕ} (hl : l.Nodup) (hi : i < NUM) (h : ∀ x ∈ l, x < NUM ∧ x ≠ i) :
    l.length < NUM := by
  have hsub : l.toFinset ⊆ (Finset.range NUM).erase i := by
    intro x hx
    obtain ⟨hlt, hne⟩ := h x (mem_toFinset.1 hx)
    exact Finset.mem_erase.2 ⟨hne, Finset.mem_range.2 hlt⟩
  have hcard := Finset.card_le_card hsub
  rw [toFinset_card_of_nodup hl, Finset.card_erase_of_mem (Finset.mem_range.2 hi),
    Finset.card_range] at hcard
  have : 0 < NUM := by decide
  omega

variable {s : Sys P B}

omit [DecidableEq B] in
/-- Moving between points without a chain leaves what is pending. -/
theorem goto_pc_of_ne {p q : P} {k : Pc B} (hq : q ≠ p) : (s.goto p k).pc q = s.pc q :=
  update_of_ne hq _ _

omit [DecidableEq B] in
theorem goto_pc_self (p : P) (k : Pc B) : (s.goto p k).pc p = k := update_self _ _ _

namespace Inv

omit [DecidableEq P] [DecidableEq B] in
/-- Two processes that wait for a chain with the same head are the same. -/
theorem eq_of_head (h : Inv s) {p q : P} {b b' : B} {i j k j' k' : ℕ} (hp : s.pc p = .wait b i j k)
    (hq : s.pc q = .wait b' i j' k') : p = q :=
  h.disj p q i (by rw [hp]; simp [Pc.descs]) (by rw [hq]; simp [Pc.descs])

omit [DecidableEq P] [DecidableEq B] in
theorem pending_lt (h : Inv s) {i : ℕ} (hi : s.Pending i) : i < NUM ∧ s.disk.free i = false := by
  obtain ⟨p, b, j, k, hp, -⟩ := hi
  obtain ⟨hchain, -⟩ := h.chain p b i j k hp
  exact ⟨hchain.lt.1, hchain.used.1⟩

omit [DecidableEq B] in
theorem call (h : Inv s) {p : P} {b : B} {write : Bool} (hp : s.pc p = .idle)
    (hb : ∀ q, (s.pc q).buf? ≠ some b) : Inv (s.goto p (.alloc b write)) := by
  have hwait : ∀ {q b' i j k}, (s.goto p (.alloc b write)).pc q = .wait b' i j k ↔
      s.pc q = .wait b' i j k := by
    intro q b' i j k
    rcases eq_or_ne q p with rfl | hne
    · rw [goto_pc_self, hp]
      simp
    · rw [goto_pc_of_ne hne]
  have hdescs : ∀ q, ((s.goto p (.alloc b write)).pc q).descs = (s.pc q).descs := by
    intro q
    rcases eq_or_ne q p with rfl | hne
    · rw [goto_pc_self, hp]
      rfl
    · rw [goto_pc_of_ne hne]
  refine ⟨h.panic, fun q b' i j k hq => h.chain q b' i j k (hwait.1 hq), fun x hx hf => ?_,
    fun q r x hq hr => ?_, fun q r b' hq hr => ?_, ?_⟩
  · obtain ⟨q, hq⟩ := h.part x hx hf
    exact ⟨q, by rwa [hdescs]⟩
  · rw [hdescs] at hq hr
    exact h.disj q r x hq hr
  · rcases eq_or_ne q p with rfl | hqp <;> rcases eq_or_ne r q with rfl | hrq
    · rfl
    · rw [goto_pc_self] at hq
      rw [goto_pc_of_ne hrq] at hr
      cases hq
      exact absurd hr (hb r)
    · rfl
    · rw [goto_pc_of_ne hqp] at hq
      rcases eq_or_ne r p with rfl | hrp
      · rw [goto_pc_self] at hr
        cases hr
        exact absurd hq (hb q)
      · rw [goto_pc_of_ne hrp] at hr
        exact h.bufs q r b' hq hr
  · obtain ⟨l, u, hloc⟩ := h.located
    refine ⟨l, u, hloc.avail, hloc.used, hloc.nodup, fun i => (hloc.mem i).trans ?_, hloc.status⟩
    constructor
    · rintro ⟨q, b', j, k, hq, hbusy⟩
      exact ⟨q, b', j, k, hwait.2 hq, hbusy⟩
    · rintro ⟨q, b', j, k, hq, hbusy⟩
      exact ⟨q, b', j, k, hwait.1 hq, hbusy⟩

section

omit [DecidableEq P] [DecidableEq B]

theorem used_of_mem (h : Inv s) {x : ℕ} {q : P} (hx : x ∈ (s.pc q).descs) : s.disk.free x = false := by
  obtain ⟨b, i, j, k, hq, hx⟩ := mem_descs.1 hx
  exact (h.chain q b i j k hq).1.used_of hx

/-- `alloc3_desc` has found no three descriptors and has given back what it took. -/
theorem refused (h : Inv s) {d : Disk B} (hfree : d.free = s.disk.free) (hinfo : d.info = s.disk.info)
    (hdesc : ∀ x, s.disk.free x = false → d.desc x = s.disk.desc x) : Inv { s with disk := d } := by
  refine ⟨h.panic, fun q b i j k hq => ?_, fun x hx hf => h.part x hx (by rwa [hfree] at hf), h.disj,
    h.bufs, ?_⟩
  · obtain ⟨hchain, hb⟩ := h.chain q b i j k hq
    refine ⟨hchain.congr fun x hx => ⟨by rw [hfree], hdesc x (hchain.used_of hx)⟩, ?_⟩
    rwa [hinfo]
  · obtain ⟨l, u, hloc⟩ := h.located
    refine ⟨l, u, hloc.avail, hloc.used, hloc.nodup, hloc.mem, fun x hx => ?_⟩
    rw [hinfo]
    exact hloc.status x hx

/-- While a descriptor is free the first ring has room. -/
theorem avail_not_full (h : Inv s) {l u : List ℕ} (hloc : Located s l u) {i : ℕ} (hi : i < NUM)
    (hfree : s.disk.free i = true) : s.avail.full = false := by
  refine hloc.avail.not_full (by decide) (length_lt_of_ne ?_ hi fun x hx => ?_)
  · exact (nodup_append.1 (nodup_append.1 hloc.nodup).1).1
  · have hpend := (hloc.mem x).1 (by simp [hx])
    obtain ⟨hxlt, hxf⟩ := h.pending_lt hpend
    refine ⟨hxlt, ?_⟩
    rintro rfl
    simp [hfree] at hxf

end

section Submit

variable {t : Sys P B} {p : P} {b : B} {write : Bool} {i j k : ℕ}

/-- The chain of a call that begins to wait is on its way, with those that were. -/
theorem pending_submit (h : Inv s) (hp : s.pc p = .alloc b write)
    (hpc : t.pc = update s.pc p (.wait b i j k)) (hbusy : t.busy = update s.busy b true)
    (x : ℕ) : t.Pending x ↔ x = i ∨ s.Pending x := by
  -- nobody else is in a call on the buffer
  have hother : ∀ {q b' x j' k'}, q ≠ p → s.pc q = .wait b' x j' k' → b' ≠ b := by
    rintro q b' x j' k' hqp hq rfl
    exact hqp (h.bufs q p b' (by rw [hq]; rfl) (by rw [hp]; rfl))
  unfold Sys.Pending
  rw [hpc, hbusy]
  constructor
  · rintro ⟨q, b', j', k', hq, hb'⟩
    rcases eq_or_ne q p with rfl | hqp
    · rw [update_self] at hq
      cases hq
      exact .inl rfl
    · rw [update_of_ne hqp] at hq
      rw [update_of_ne (hother hqp hq)] at hb'
      exact .inr ⟨q, b', j', k', hq, hb'⟩
  · rintro (rfl | ⟨q, b', j', k', hq, hb'⟩)
    · exact ⟨p, b, j, k, update_self _ _ _, update_self _ _ _⟩
    · have hqp : q ≠ p := by
        rintro rfl
        simp [hp] at hq
      exact ⟨q, b', j', k', (update_of_ne hqp _ _).trans hq,
        (update_of_ne (hother hqp hq) _ _).trans hb'⟩

omit [DecidableEq P] [DecidableEq B] in
theorem located_submit (h : Inv s) {l u : List ℕ} (hloc : Located s l u) (hi : i < NUM)
    (hfree : s.disk.free i = true) (havail : t.avail = s.avail.push i) (hused : t.used = s.used)
    (hdevice : t.device = s.device) (hpend : ∀ x, t.Pending x ↔ x = i ∨ s.Pending x)
    (hinfo : ∀ x, x ≠ i → t.disk.info x = s.disk.info x) : Located t (l ++ [i]) u := by
  have hiout : i ∉ l ++ s.device ++ u := by
    intro hmem
    have := (h.pending_lt ((hloc.mem i).1 hmem)).2
    simp [hfree] at this
  have hperm : (l ++ [i] ++ s.device ++ u).Perm (i :: (l ++ s.device ++ u)) := by
    simp only [append_assoc, singleton_append]
    exact perm_middle
  refine ⟨?_, by rw [hused]; exact hloc.used, ?_, fun x => ?_, fun x hx => ?_⟩
  · rw [havail]
    exact hloc.avail.push size_dvd (h.avail_not_full hloc hi hfree) i
  · rw [hdevice]
    exact hperm.nodup_iff.2 (nodup_cons.2 ⟨hiout, hloc.nodup⟩)
  · rw [hdevice, hpend x, ← hloc.mem x, ← mem_cons]
    exact hperm.mem_iff
  · have hxi : x ≠ i := by
      rintro rfl
      exact hiout (by simp [hx])
    rw [hinfo x hxi]
    exact hloc.status x hx

/-- The three descriptors were free: they are now those of the call, and its chain is in the ring. -/
theorem enqueue (h : Inv s) (hp : s.pc p = .alloc b write) (hlt : i < NUM ∧ j < NUM ∧ k < NUM)
    (hne : i ≠ j ∧ i ≠ k ∧ j ≠ k)
    (hfree : s.disk.free i = true ∧ s.disk.free j = true ∧ s.disk.free k = true) :
    Inv { s.goto p (.wait b i j k) with
      disk := format b write i j k { s.disk with
        free := update (update (update s.disk.free i false) j false) k false }
      busy := update s.busy b true
      avail := s.avail.push i } := by
  obtain ⟨l, u, hloc⟩ := h.located
  have hnew : ∀ {x q}, x ∈ (s.pc q).descs → x ≠ i ∧ x ≠ j ∧ x ≠ k := by
    intro x q hq
    have hf := h.used_of_mem hq
    refine ⟨?_, ?_, ?_⟩
    · rintro rfl
      exact absurd hf (by simp [hfree.1])
    · rintro rfl
      exact absurd hf (by simp [hfree.2.1])
    · rintro rfl
      exact absurd hf (by simp [hfree.2.2])
  have hpc : ∀ {q}, q ≠ p → update s.pc p (.wait b i j k) q = s.pc q := fun hq =>
    update_of_ne hq _ _
  have hself : update s.pc p (.wait b i j k) p = .wait b i j k := update_self _ _ _
  have hcase : ∀ {q x}, x ∈ (update s.pc p (.wait b i j k) q).descs →
      q = p ∧ (x = i ∨ x = j ∨ x = k) ∨ q ≠ p ∧ x ∈ (s.pc q).descs := by
    intro q x hq
    rcases eq_or_ne q p with rfl | hqp
    · rw [hself] at hq
      exact .inl ⟨rfl, by simpa [Pc.descs] using hq⟩
    · rw [hpc hqp] at hq
      exact .inr ⟨hqp, hq⟩
  have hbuf : ∀ q, (update s.pc p (.wait b i j k) q).buf? = (s.pc q).buf? := by
    intro q
    rcases eq_or_ne q p with rfl | hq
    · rw [hself, hp]
      rfl
    · rw [hpc hq]
  refine ⟨h.panic, fun q b' i' j' k' hq => ?_, fun x hx hf => ?_, fun q r x hq hr => ?_,
    fun q r b' hq hr => ?_, l ++ [i], u, ?_⟩
  · rcases eq_or_ne q p with rfl | hqp
    · cases hself.symm.trans hq
      refine ⟨chain_format b write hlt hne ⟨?_, ?_, ?_⟩, by simp [format]⟩
      · simp [update_of_ne hne.1, update_of_ne hne.2.1]
      · simp [update_of_ne hne.2.2]
      · simp
    · have hq' : s.pc q = .wait b' i' j' k' := (hpc hqp).symm.trans hq
      obtain ⟨hchain, hb⟩ := h.chain q b' i' j' k' hq'
      refine ⟨hchain.congr fun x hx => ?_, ?_⟩
      · obtain ⟨hxi, hxj, hxk⟩ := hnew (mem_descs.2 ⟨b', i', j', k', hq', hx⟩)
        simp [format, update_of_ne hxi, update_of_ne hxj, update_of_ne hxk]
      · have hi' : i' ≠ i := (hnew (mem_descs.2 ⟨b', i', j', k', hq', .inl rfl⟩)).1
        simpa [format, update_of_ne hi'] using hb
  · by_cases hxp : x = i ∨ x = j ∨ x = k
    · exact ⟨p, mem_descs.2 ⟨b, i, j, k, hself, hxp⟩⟩
    · obtain ⟨hxi, hxj, hxk⟩ := not_or.1 hxp |>.imp id not_or.1
      have hf' : s.disk.free x = false := by
        simpa [format, update_of_ne hxi, update_of_ne hxj,
          update_of_ne hxk] using hf
      obtain ⟨q, hq⟩ := h.part x hx hf'
      have hqp : q ≠ p := by
        rintro rfl
        rw [hp] at hq
        simp [Pc.descs] at hq
      exact ⟨q, (congrArg (x ∈ Pc.descs ·) (hpc hqp)).mpr hq⟩
  · have hout : ∀ {q}, (x = i ∨ x = j ∨ x = k) → x ∉ (s.pc q).descs := by
      intro q hx hq
      obtain ⟨hxi, hxj, hxk⟩ := hnew hq
      rcases hx with hx | hx | hx
      · exact hxi hx
      · exact hxj hx
      · exact hxk hx
    rcases hcase hq with ⟨rfl, hx⟩ | ⟨-, hq'⟩ <;> rcases hcase hr with ⟨hrp, hx'⟩ | ⟨-, hr'⟩
    · exact hrp.symm
    · exact absurd hr' (hout hx)
    · exact absurd hq' (hout hx')
    · exact h.disj q r x hq' hr'
  · exact h.bufs q r b' ((hbuf q).symm.trans hq) ((hbuf r).symm.trans hr)
  · refine h.located_submit hloc hlt.1 hfree.1 rfl rfl rfl (h.pending_submit hp rfl rfl) fun x hx => ?_
    exact update_of_ne hx _ _

theorem submit (h : Inv s) (hp : s.pc p = .alloc b write) :
    Inv (s.submit p b write) ∧ (s.avail.full = false ∨ (s.submit p b write).avail = s.avail) := by
  unfold Sys.submit
  rcases alloc3Desc_cases s.disk with ⟨d, hd, hfree, hinfo, hdesc⟩ | ⟨i, j, k, d, hd, hlt, hne, hfree, rfl⟩
  · rw [hd]
    exact ⟨h.refused hfree hinfo hdesc, .inr rfl⟩
  · rw [hd]
    obtain ⟨l, u, hloc⟩ := h.located
    exact ⟨h.enqueue hp hlt hne hfree, .inl (h.avail_not_full hloc hlt.1 hfree.1)⟩

end Submit

omit [DecidableEq B] in
/-- A call whose request is completed frees the chain and returns. -/
theorem complete (h : Inv s) {p : P} {b : B} {i j k : ℕ} (hp : s.pc p = .wait b i j k)
    (hb : s.busy b = false) : Inv (s.complete p i) := by
  have hchain : Chain { s.disk with
      info := update s.disk.info i { s.disk.info i with b := none } } i j k :=
    (h.chain p b i j k hp).1.congr fun x _ => ⟨rfl, rfl⟩
  have hmine : ∀ {x q}, x = i ∨ x = j ∨ x = k → x ∈ (s.pc q).descs → q = p := fun hx hq =>
    h.disj _ p _ hq (mem_descs.2 ⟨b, i, j, k, hp, hx⟩)
  unfold Sys.complete
  rw [hchain.freeChain]
  have hpc : ∀ {q}, q ≠ p → update s.pc p .idle q = s.pc q := fun hq =>
    update_of_ne hq _ _
  have hself : update s.pc p (.idle : Pc B) p = .idle := update_self _ _ _
  have hof : ∀ {q b' i' j' k'}, update s.pc p .idle q = .wait b' i' j' k' →
      q ≠ p ∧ s.pc q = .wait b' i' j' k' := by
    intro q b' i' j' k' hq
    rcases eq_or_ne q p with rfl | hqp
    · cases hself.symm.trans hq
    · exact ⟨hqp, (hpc hqp).symm.trans hq⟩
  have hdescs : ∀ {q x}, x ∈ (update s.pc p .idle q).descs → q ≠ p ∧ x ∈ (s.pc q).descs := by
    intro q x hq
    obtain ⟨b', i', j', k', hq', hx⟩ := mem_descs.1 hq
    obtain ⟨hqp, hq'⟩ := hof hq'
    exact ⟨hqp, mem_descs.2 ⟨b', i', j', k', hq', hx⟩⟩
  have hbuf : ∀ {q b'}, (update s.pc p .idle q).buf? = some b' → (s.pc q).buf? = some b' := by
    intro q b' hq
    rcases eq_or_ne q p with rfl | hqp
    · rw [hself] at hq
      cases hq
    · rwa [hpc hqp] at hq
  -- the head of another chain
  have hout : ∀ {q b' i' j' k' x}, q ≠ p → s.pc q = .wait b' i' j' k' → x = i' ∨ x = j' ∨ x = k' →
      x ≠ i ∧ x ≠ j ∧ x ≠ k := by
    intro q b' i' j' k' x hqp hq hx
    have hmem : x ∈ (s.pc q).descs := mem_descs.2 ⟨b', i', j', k', hq, hx⟩
    exact ⟨fun he => hqp (hmine (.inl he) hmem), fun he => hqp (hmine (.inr (.inl he)) hmem),
      fun he => hqp (hmine (.inr (.inr he)) hmem)⟩
  refine ⟨h.panic, fun q b' i' j' k' hq => ?_, fun x hx hf => ?_,
    fun q r x hq hr => h.disj q r x (hdescs hq).2 (hdescs hr).2,
    fun q r b' hq hr => h.bufs q r b' (hbuf hq) (hbuf hr), ?_⟩
  · obtain ⟨hqp, hq'⟩ := hof hq
    obtain ⟨hc, hb'⟩ := h.chain q b' i' j' k' hq'
    refine ⟨hc.congr fun x hx => ?_, ?_⟩
    · obtain ⟨hxi, hxj, hxk⟩ := hout hqp hq' hx
      simp [update_of_ne hxi, update_of_ne hxj, update_of_ne hxk]
    · simpa [update_of_ne (hout hqp hq' (.inl rfl)).1] using hb'
  · have hxp : ¬(x = i ∨ x = j ∨ x = k) := by
      rintro (rfl | rfl | rfl)
      · simp [update_apply] at hf
      · simp [update_apply] at hf
      · simp at hf
    obtain ⟨hxi, hxj, hxk⟩ := not_or.1 hxp |>.imp id not_or.1
    have hf' : s.disk.free x = false := by
      simpa [update_of_ne hxi, update_of_ne hxj, update_of_ne hxk] using hf
    obtain ⟨q, hq⟩ := h.part x hx hf'
    have hqp : q ≠ p := by
      rintro rfl
      obtain ⟨b', i', j', k', hq', hx'⟩ := mem_descs.1 hq
      cases hp.symm.trans hq'
      exact hxp hx'
    exact ⟨q, (congrArg (x ∈ Pc.descs ·) (hpc hqp)).mpr hq⟩
  · obtain ⟨l, u, hloc⟩ := h.located
    have hi : ¬s.Pending i := by
      rintro ⟨q, b', j', k', hq, hbusy⟩
      cases h.eq_of_head hp hq
      cases hp.symm.trans hq
      simp [hb] at hbusy
    refine ⟨l, u, hloc.avail, hloc.used, hloc.nodup, fun x => (hloc.mem x).trans ?_, fun x hx => ?_⟩
    · constructor
      · rintro ⟨q, b', j', k', hq, hbusy⟩
        have hqp : q ≠ p := by
          rintro rfl
          cases hp.symm.trans hq
          exact hi ⟨q, b, j, k, hp, hbusy⟩
        exact ⟨q, b', j', k', (hpc hqp).trans hq, hbusy⟩
      · rintro ⟨q, b', j', k', hq, hbusy⟩
        exact ⟨q, b', j', k', (hof hq).2, hbusy⟩
    · have hxi : x ≠ i := by
        rintro rfl
        exact hi ((hloc.mem x).1 (by simp [hx]))
      simpa [update_of_ne hxi] using hloc.status x hx

omit [DecidableEq P] [DecidableEq B] in
theorem take (h : Inv s) (he : s.avail.empty = false) :
    Inv { s with avail := s.avail.pop, device := s.avail.front :: s.device } := by
  obtain ⟨l, u, hloc⟩ := h.located
  obtain ⟨l, rfl, hpop⟩ := hloc.avail.pop size_dvd he
  refine ⟨h.panic, h.chain, h.part, h.disj, h.bufs, l, u, hpop, hloc.used, ?_, fun i => ?_, hloc.status⟩
  all_goals
    have hperm : (l ++ s.avail.front :: s.device ++ u).Perm (s.avail.front :: l ++ s.device ++ u) := by
      simp only [append_assoc, cons_append]
      exact perm_middle
  · exact hperm.nodup_iff.2 hloc.nodup
  · exact hperm.mem_iff.trans (hloc.mem i)

omit [DecidableEq P] [DecidableEq B] in
theorem finish (h : Inv s) {i : ℕ} (hi : i ∈ s.device) :
    Inv { s with
      device := s.device.erase i
      used := s.used.push i
      disk := { s.disk with
        info := update s.disk.info i { s.disk.info i with status := 0 } } } := by
  obtain ⟨l, u, hloc⟩ := h.located
  have hpend : s.Pending i := (hloc.mem i).1 (by simp [hi])
  have hperm : (l ++ s.device.erase i ++ (u ++ [i])).Perm (l ++ s.device ++ u) := by
    have herase : (i :: s.device.erase i).Perm s.device := (perm_cons_erase hi).symm
    calc (l ++ s.device.erase i ++ (u ++ [i])).Perm (l ++ (s.device.erase i ++ (i :: u))) := by
          rw [append_assoc]
          exact ((perm_append_singleton i u).append_left _).append_left _
      List.Perm _ (l ++ (i :: s.device.erase i ++ u)) := perm_middle.append_left _
      List.Perm _ (l ++ (s.device ++ u)) := (herase.append_right _).append_left _
      List.Perm _ (l ++ s.device ++ u) := by rw [append_assoc]
  have hfull : s.used.full = false := by
    have hnd : (l ++ s.device ++ u).Nodup := hloc.nodup
    refine hloc.used.not_full (by decide) (length_lt_of_ne (nodup_append.1 hnd).2.1
      (h.pending_lt hpend).1 fun x hx => ⟨(h.pending_lt ((hloc.mem x).1 (by simp [hx]))).1, ?_⟩)
    rintro rfl
    exact (nodup_append.1 hnd).2.2 x (by simp [hi]) x hx rfl
  refine ⟨h.panic, fun q b' i' j' k' hq => ?_, h.part, h.disj, h.bufs, l, u ++ [i], hloc.avail,
    hloc.used.push size_dvd hfull i, hperm.nodup_iff.2 hloc.nodup,
      fun x => hperm.mem_iff.trans (hloc.mem x),
    fun x hx => ?_⟩
  · obtain ⟨hchain, hb⟩ := h.chain q b' i' j' k' hq
    refine ⟨hchain.congr fun x _ => ⟨rfl, rfl⟩, ?_⟩
    rcases eq_or_ne i' i with rfl | hne
    · simpa using hb
    · simpa [update_of_ne hne] using hb
  · rcases eq_or_ne x i with rfl | hne
    · simp
    · have hxu : x ∈ u := by simpa [hne] using hx
      simpa [update_of_ne hne] using hloc.status x hxu

omit [DecidableEq P] in
/-- **One completion** is handled: the disk flag of the buffer of the chain is cleared. -/
theorem turn (h : Inv s) (he : s.used.empty = false) :
    Inv (s.turn s.used.front) ∧ ∃ p b j k, s.pc p = .wait b s.used.front j k ∧ s.busy b = true ∧
      (s.turn s.used.front).busy = update s.busy b false := by
  obtain ⟨l, u, hloc⟩ := h.located
  obtain ⟨u, rfl, hpop⟩ := hloc.used.pop size_dvd he
  generalize s.used.front = x at *
  obtain ⟨p, b, j, k, hp, hbusy⟩ : s.Pending x := (hloc.mem x).1 (by simp)
  have hturn : s.turn x = { s with busy := update s.busy b false, used := s.used.pop } := by
    unfold Sys.turn
    rw [if_neg (not_not.2 (hloc.status x (by simp))), (h.chain p b x j k hp).2]
  have hperm : (l ++ s.device ++ x :: u).Perm (x :: (l ++ s.device ++ u)) := perm_middle
  obtain ⟨hxout, hnd⟩ := nodup_cons.1 (hperm.nodup_iff.1 hloc.nodup)
  rw [hturn]
  refine ⟨⟨h.panic, h.chain, h.part, h.disj, h.bufs, l, u, hloc.avail, hpop, hnd, fun i => ?_,
    fun i hi => hloc.status i (by simp [hi])⟩, p, b, j, k, hp, hbusy, rfl⟩
  constructor
  · intro hi
    have hix : i ≠ x := fun he => hxout (he ▸ hi)
    obtain ⟨q, b', j', k', hq, hb'⟩ := (hloc.mem i).1 (hperm.mem_iff.2 (mem_cons_of_mem _ hi))
    have hbb : b' ≠ b := by
      rintro rfl
      cases h.bufs q p b' (by rw [hq]; rfl) (by rw [hp]; rfl)
      cases hp.symm.trans hq
      exact hix rfl
    exact ⟨q, b', j', k', hq, (update_of_ne hbb _ _).trans hb'⟩
  · rintro ⟨q, b', j', k', hq, hb'⟩
    have hbb : b' ≠ b := by
      rintro rfl
      cases (update_self b' false s.busy).symm.trans hb'
    have hmem : i ∈ x :: (l ++ s.device ++ u) :=
      hperm.mem_iff.1 ((hloc.mem i).2 ⟨q, b', j', k', hq, (update_of_ne hbb _ _).symm.trans hb'⟩)
    rcases mem_cons.1 hmem with rfl | hi
    · cases h.eq_of_head hp hq
      cases hp.symm.trans hq
      exact absurd rfl hbb
    · exact hi

end Inv

omit [DecidableEq P] in
theorem turn_pc (id : ℕ) : (s.turn id).pc = s.pc := by
  unfold Sys.turn
  split
  · rfl
  · split <;> rfl

theorem Step.inv {t : Sys P B} {a : Act} (hst : Step s a t) (h : Inv s) : Inv t := by
  cases hst with
  | call p b write hp hb => exact h.call hp hb
  | submit p b write hp hl => exact (h.submit hp).1
  | complete p b i j k hp hl hb => exact h.complete hp hb
  | take he => exact h.take he
  | finish i hi => exact h.finish hi
  | enter hl => exact ⟨h.panic, h.chain, h.part, h.disj, h.bufs, h.located.imp fun l ⟨u, hloc⟩ =>
      ⟨u, hloc.avail, hloc.used, hloc.nodup, hloc.mem, hloc.status⟩⟩
  | turn hl he => exact (h.turn he).1
  | leave hl he => exact ⟨h.panic, h.chain, h.part, h.disj, h.bufs, h.located.imp fun l ⟨u, hloc⟩ =>
      ⟨u, hloc.avail, hloc.used, hloc.nodup, hloc.mem, hloc.status⟩⟩

theorem Reachable.inv (h : Reachable s) : Inv s := by
  induction h with
  | init => exact inv_init
  | step _ _ hst ih => exact hst.inv ih

/-- **Requests are matched to completions.** In every reachable state there is no panic and the
descriptors in use are partitioned into the chains, of three different descriptors, of the requests in
flight. `virtio_disk_intr` clears the disk flag of the buffer whose chain completed and no other, and that
chain is then not on its way any more; and `virtio_disk_rw` writes a cell of the ring only when the device
has taken what it held. The indices of the rings are 16-bit words, and nothing bounds the run. -/
theorem reachable_matched (h : Reachable s) :
    s.panic = none ∧
    (∀ x < NUM, s.disk.free x = false ↔ ∃ p, x ∈ (s.pc p).descs) ∧
    (∀ p b i j k, s.pc p = .wait b i j k →
      [i, j, k].Nodup ∧ (∀ x ∈ [i, j, k], x < NUM) ∧
      (s.disk.desc i).next = j ∧ (s.disk.desc j).next = k ∧ (s.disk.info i).b = some b) ∧
    (∀ p q, p ≠ q → (s.pc p).descs.Disjoint (s.pc q).descs) ∧
    (∀ id t, Step s (.turn id) t → ∃ p b j k, s.pc p = .wait b id j k ∧ s.busy b = true ∧
      t.busy = update s.busy b false ∧ ¬t.Pending id) ∧
    (∀ t, Step s .submit t → s.avail.full = false ∨ t.avail = s.avail) := by
  have hinv := h.inv
  refine ⟨hinv.panic, fun x hx => ⟨hinv.part x hx, ?_⟩, fun p b i j k hp => ?_, fun p q hpq x hp hq =>
    hpq (hinv.disj p q x hp hq), fun id t hst => ?_, fun t hst => ?_⟩
  · rintro ⟨p, hp⟩
    exact hinv.used_of_mem hp
  · obtain ⟨hchain, hb⟩ := hinv.chain p b i j k hp
    obtain ⟨hij, hik, hjk⟩ := hchain.ne
    obtain ⟨hi, hj, hk⟩ := hchain.lt
    exact ⟨by simp [hij, hik, hjk], by simp [hi, hj, hk], hchain.first.2, hchain.second.2, hb⟩
  · cases hst with
    | turn hl he =>
      obtain ⟨ht, p, b, j, k, hp, hbusy, hclear⟩ := hinv.turn he
      refine ⟨p, b, j, k, hp, hbusy, hclear, ?_⟩
      rintro ⟨q, b', j', k', hq, hb'⟩
      rw [turn_pc] at hq
      cases hinv.eq_of_head hp hq
      cases hp.symm.trans hq
      simp [hclear, update_self] at hb'
  · cases hst with
    | submit p b write hp hl => exact (hinv.submit hp).2

/-- Two processes have submitted a request each, and the device has completed the second. -/
def twoRequests : Sys (Fin 2) (Fin 2) :=
  let s := (((init.goto 0 (.alloc 0 true)).goto 1 (.alloc 1 false)).submit 0 0 true).submit 1 1 false
  { s with
    avail := s.avail.pop.pop
    device := [0]
    used := s.used.push 3
    disk := { s.disk with info := update s.disk.info 3 { s.disk.info 3 with status := 0 } }
    intr := true }

theorem twoRequests_reachable : Reachable twoRequests :=
  Reachable.init
    |>.step rfl (.call _ 0 0 true rfl (by decide))
    |>.step rfl (.call _ 1 1 false rfl (by decide))
    |>.step rfl (.submit _ 0 0 true rfl rfl)
    |>.step rfl (.submit _ 1 1 false rfl rfl)
    |>.step rfl (.take _ (by decide))
    |>.step rfl (.take _ (by decide))
    |>.step rfl (.finish _ 3 (by decide))
    |>.step rfl (.enter _ rfl)

theorem reachable_matched_two :
    Reachable twoRequests ∧ Step twoRequests (.turn 3) (twoRequests.turn 3) ∧
      ∃ p b j k, twoRequests.pc p = .wait b 3 j k ∧ twoRequests.busy b = true ∧
        (twoRequests.turn 3).busy = update twoRequests.busy b false ∧
        ¬(twoRequests.turn 3).Pending 3 := by
  have hstep : Step twoRequests (.turn 3) (twoRequests.turn 3) := .turn _ rfl (by decide)
  exact ⟨twoRequests_reachable, hstep,
    (reachable_matched twoRequests_reachable).2.2.2.2.1 3 _ hstep⟩

end Virtio

end Xv6
