import Xv6.Lib.Ring

/-!
# The line discipline of the console (`console.c`)

`consoleintr` takes input characters and edits the current line; `consoleread` takes bytes out of the
lines that were committed.  Both work on one ring of `INPUT_BUF_SIZE` bytes with three counters of 32
bits that are never brought back into range.

`consoleread` is the same loop over the ring and over the abstract machine, so it is written once over a
`Device`: `console` is the device of the source, `discipline` the abstract one, with a queue of committed
bytes and an edit line.

* `Console.run_returned`: what a read returns, whatever the device;
* `Console.Rel`: how a queue and a line lie in the ring;
* `Console.Rel.intr`, `Console.Rel.take`, `Console.Rel.eof`: the operations of the two devices agree;
* `Console.run_refines`: every run of the driver is a run of the abstract machine with the same events.
-/

namespace Xv6

open Function List

namespace Console

/-- The size of the input buffer. -/
def INPUT_BUF_SIZE : ℕ := 128

instance : NeZero INPUT_BUF_SIZE := ⟨by decide⟩

/-- The code of the character typed with the control key. -/
def ctrl (c : Char) : UInt8 := c.toUInt8 - '@'.toUInt8

/-- Newline. -/
def NL : UInt8 := 10

/-- Carriage return. -/
def CR : UInt8 := 13

/-- The delete key. -/
def DEL : UInt8 := 0x7f

/-! ### The driver -/

/-- `struct cons`, without its lock. -/
structure Cons where
  buf : Fin INPUT_BUF_SIZE → UInt8
  r : BitVec 32
  w : BitVec 32
  e : BitVec 32

/-- The cell of an index. -/
def cell (i : BitVec 32) : Fin INPUT_BUF_SIZE := Fin.ofNat INPUT_BUF_SIZE i.toNat

namespace Cons

/-- The loop of `C('U')`: it ends where the edit line does, after at most `e - w` turns. -/
def killLine : ℕ → Cons → Cons
  | 0, d => d
  | fuel + 1, d =>
    if d.e ≠ d.w ∧ d.buf (cell (d.e - 1)) ≠ NL then killLine fuel { d with e := d.e - 1 } else d

/-- `consoleintr`; the flag says whether it calls `wakeup(&cons.r)`. -/
def consoleintr (c : UInt8) (d : Cons) : Cons × Bool :=
  if c = ctrl 'P' then (d, false)
  else if c = ctrl 'U' then (d.killLine (d.e - d.w).toNat, false)
  else if c = ctrl 'H' ∨ c = DEL then
    if d.e ≠ d.w then ({ d with e := d.e - 1 }, false) else (d, false)
  else if c ≠ 0 ∧ (d.e - d.r).toNat < INPUT_BUF_SIZE then
    let c := if c = CR then NL else c
    let d := { d with buf := update d.buf (cell d.e) c, e := d.e + 1 }
    if c = NL ∨ c = ctrl 'D' ∨ (d.e - d.r).toNat = INPUT_BUF_SIZE then ({ d with w := d.e }, true)
    else (d, false)
  else (d, false)

end Cons

/-- What `consoleread` does with the input buffer. -/
structure Device (D : Type) where
  /-- An input character; the flag is for a `wakeup`. -/
  intr : UInt8 → D → D × Bool
  /-- There is a byte to read. -/
  ready : D → Bool
  /-- The byte to read. -/
  next : D → UInt8
  /-- The byte is read. -/
  take : D → D
  /-- The byte is control-D; it is left for the next read, or not. -/
  eof : Bool → D → D

/-- The device of the source. -/
def console : Device Cons where
  intr := Cons.consoleintr
  ready d := d.r ≠ d.w
  next d := d.buf (cell d.r)
  take d := { d with r := d.r + 1 }
  eof keep d := if keep then { d with r := d.r + 1 - 1 } else { d with r := d.r + 1 }

/-! ### The abstract machine -/

/-- The committed bytes and the current line. -/
structure Lines where
  queue : List UInt8
  line : List UInt8
  deriving DecidableEq

namespace Lines

/-- An ordinary character extends the line, which newline, control-D and a full buffer commit. -/
def add (c : UInt8) (a : Lines) : Lines × Bool :=
  if c = NL ∨ c = ctrl 'D' ∨ a.queue.length + a.line.length + 1 = INPUT_BUF_SIZE then
    (⟨a.queue ++ a.line ++ [c], []⟩, true)
  else (⟨a.queue, a.line ++ [c]⟩, false)

/-- An input character. -/
def input (c : UInt8) (a : Lines) : Lines × Bool :=
  if c = ctrl 'P' then (a, false)
  else if c = ctrl 'U' then (⟨a.queue, []⟩, false)
  else if c = ctrl 'H' ∨ c = DEL then (⟨a.queue, a.line.dropLast⟩, false)
  else if c ≠ 0 ∧ a.queue.length + a.line.length < INPUT_BUF_SIZE then
    a.add (if c = CR then NL else c)
  else (a, false)

end Lines

/-- The abstract device: reading takes the bytes of the queue in order. -/
def discipline : Device Lines where
  intr := Lines.input
  ready a := !a.queue.isEmpty
  next a := a.queue.headD 0
  take a := ⟨a.queue.tail, a.line⟩
  eof keep a := if keep then a else ⟨a.queue.tail, a.line⟩

/-! ### Reading -/

/-- Where a process is. -/
inductive Pc
  /-- Outside. -/
  | out
  /-- In `consoleread`, about to acquire `cons.lock`, with `n` bytes of `target` missing. -/
  | lock (ok : ℕ → Bool) (target n : ℤ) (got : List UInt8)
  /-- In the loop, holding `cons.lock`. -/
  | loop (ok : ℕ → Bool) (target n : ℤ) (got : List UInt8)

/-- What is seen from outside. -/
inductive Ev (P : Type)
  | input (c : UInt8)
  | call (p : P) (n : ℤ)
  /-- A read returns `r` after it has copied `got` out. -/
  | ret (p : P) (r : ℤ) (got : List UInt8)

/-- A device and the processes that read from it. -/
structure Sys (D P : Type) where
  dev : D
  lock : Option P
  pc : P → Pc
  /-- The process sleeps on `&cons.r`. -/
  sleeping : P → Bool
  killed : P → Bool

variable {D P : Type} [DecidableEq P]

namespace Sys

/-- Process `p` goes on at `k`. -/
def goto (s : Sys D P) (p : P) (k : Pc) : Sys D P := { s with pc := update s.pc p k }

/-- Process `p` releases `cons.lock` and returns. -/
def ret (s : Sys D P) (p : P) (d : D) : Sys D P := { s.goto p .out with dev := d, lock := none }

/-- The input buffer after a character; `wakeup` makes the sleepers runnable. -/
def intr (s : Sys D P) (r : D × Bool) : Sys D P :=
  { s with dev := r.1, sleeping := fun p => s.sleeping p && !r.2 }

end Sys

/-- One step, with what is seen of it.  `ok i` says whether the byte at `dst + i` can be copied out. -/
inductive Step (dev : Device D) : Sys D P → List (Ev P) → Sys D P → Prop
  | intr (s : Sys D P) (c : UInt8) (hl : s.lock = none) :
      Step dev s [.input c] (s.intr (dev.intr c s.dev))
  | kill (s : Sys D P) (p : P) :
      Step dev s [] { s with killed := update s.killed p true,
                             sleeping := update s.sleeping p false }
  | call (s : Sys D P) (p : P) (ok : ℕ → Bool) (n : ℤ) (hp : s.pc p = .out) :
      Step dev s [.call p n] (s.goto p (.lock ok n n []))
  | acquire (s : Sys D P) (p : P) (ok : ℕ → Bool) (target n : ℤ) (got : List UInt8)
      (hp : s.pc p = .lock ok target n got) (hs : s.sleeping p = false) (hl : s.lock = none) :
      Step dev s [] { s.goto p (.loop ok target n got) with lock := some p }
  | done (s : Sys D P) (p : P) (ok : ℕ → Bool) (target n : ℤ) (got : List UInt8)
      (hp : s.pc p = .loop ok target n got) (hn : ¬ 0 < n) :
      Step dev s [.ret p (target - n) got] (s.ret p s.dev)
  | killed (s : Sys D P) (p : P) (ok : ℕ → Bool) (target n : ℤ) (got : List UInt8)
      (hp : s.pc p = .loop ok target n got) (hn : 0 < n) (hr : dev.ready s.dev = false)
      (hk : s.killed p = true) : Step dev s [.ret p (-1) got] (s.ret p s.dev)
  | sleep (s : Sys D P) (p : P) (ok : ℕ → Bool) (target n : ℤ) (got : List UInt8)
      (hp : s.pc p = .loop ok target n got) (hn : 0 < n) (hr : dev.ready s.dev = false)
      (hk : s.killed p = false) :
      Step dev s [] { s.goto p (.lock ok target n got) with
        lock := none, sleeping := update s.sleeping p true }
  | eof (s : Sys D P) (p : P) (ok : ℕ → Bool) (target n : ℤ) (got : List UInt8)
      (hp : s.pc p = .loop ok target n got) (hn : 0 < n) (hr : dev.ready s.dev = true)
      (hc : dev.next s.dev = ctrl 'D') :
      Step dev s [.ret p (target - n) got] (s.ret p (dev.eof (n < target) s.dev))
  /-- The byte cannot be copied out, and is lost. -/
  | fault (s : Sys D P) (p : P) (ok : ℕ → Bool) (target n : ℤ) (got : List UInt8)
      (hp : s.pc p = .loop ok target n got) (hn : 0 < n) (hr : dev.ready s.dev = true)
      (hc : dev.next s.dev ≠ ctrl 'D') (hok : ok got.length = false) :
      Step dev s [.ret p (target - n) got] (s.ret p (dev.take s.dev))
  | byte (s : Sys D P) (p : P) (ok : ℕ → Bool) (target n : ℤ) (got : List UInt8)
      (hp : s.pc p = .loop ok target n got) (hn : 0 < n) (hr : dev.ready s.dev = true)
      (hc : dev.next s.dev ≠ ctrl 'D') (hok : ok got.length = true) (hnl : dev.next s.dev ≠ NL) :
      Step dev s [] { s.goto p (.loop ok target (n - 1) (got ++ [dev.next s.dev])) with
        dev := dev.take s.dev }
  | newline (s : Sys D P) (p : P) (ok : ℕ → Bool) (target n : ℤ) (got : List UInt8)
      (hp : s.pc p = .loop ok target n got) (hn : 0 < n) (hr : dev.ready s.dev = true)
      (hok : ok got.length = true) (hnl : dev.next s.dev = NL) :
      Step dev s [.ret p (target - (n - 1)) (got ++ [dev.next s.dev])] (s.ret p (dev.take s.dev))

/-- A run, with what is seen of it. -/
inductive Run (dev : Device D) (s₀ : Sys D P) : List (Ev P) → Sys D P → Prop
  | start : Run dev s₀ [] s₀
  | step {es e : List (Ev P)} {s t : Sys D P} (h : Run dev s₀ es s) (hst : Step dev s e t) :
      Run dev s₀ (es ++ e) t

/-- No process reads, and nothing is in the buffer. -/
def booted (d : D) : Sys D P where
  dev := d
  lock := none
  pc _ := .out
  sleeping _ := false
  killed _ := false

/-- `struct cons` at boot. -/
def zero : Cons := ⟨fun _ => 0, 0, 0, 0⟩

/-! ### What a read returns -/

/-- A read for `target` bytes that has copied `got` out and wants `n` more. -/
structure Progress (es : List (Ev P)) (p : P) (target n : ℤ) (got : List UInt8) : Prop where
  called : .call p target ∈ es
  count : target - n = got.length
  bound : got = [] ∨ 0 ≤ n
  plain : NL ∉ got ∧ ctrl 'D' ∉ got

/-- Every read under way, after the events `es`. -/
def Reading (es : List (Ev P)) (s : Sys D P) : Prop :=
  ∀ p ok target n got, s.pc p = .lock ok target n got ∨ s.pc p = .loop ok target n got →
    Progress es p target n got

/-- What a read may return: no more than it asked for, nothing after a newline, and no control-D. -/
def Returned (es : List (Ev P)) : Ev P → Prop
  | .ret p r got => ∃ target, .call p target ∈ es ∧ (r = got.length ∨ r = -1) ∧
      got.length ≤ target.toNat ∧ NL ∉ got.dropLast ∧ ctrl 'D' ∉ got
  | _ => True

section Returns

variable {dev : Device D} {s t : Sys D P} {es e : List (Ev P)} {p : P} {target n : ℤ} {got : List UInt8}

omit [DecidableEq P] in
theorem Progress.append (h : Progress es p target n got) (e : List (Ev P)) :
    Progress (es ++ e) p target n got :=
  ⟨mem_append_left e h.called, h.count, h.bound, h.plain⟩

omit [DecidableEq P] in
theorem Returned.append {x : Ev P} (h : Returned es x) (e : List (Ev P)) : Returned (es ++ e) x := by
  cases x with
  | ret p r got =>
    obtain ⟨target, hcall, hrest⟩ := h
    exact ⟨target, mem_append_left e hcall, hrest⟩
  | _ => trivial

omit [DecidableEq P] in
theorem Progress.returned (h : Progress es p target n got) {r : ℤ} (hr : r = target - n ∨ r = -1) :
    Returned es (.ret p r got) := by
  refine ⟨target, h.called, hr.imp_left (·.trans h.count), ?_, fun hm => h.plain.1 (mem_of_mem_dropLast hm),
    h.plain.2⟩
  have hcount := h.count
  rcases h.bound with rfl | hn
  · exact Nat.zero_le _
  · omega

omit [DecidableEq P] in
theorem Progress.byte (h : Progress es p target n got) (hn : 0 < n) {c : UInt8} (hnl : c ≠ NL)
    (hc : c ≠ ctrl 'D') : Progress es p target (n - 1) (got ++ [c]) := by
  have hcount := h.count
  refine ⟨h.called, ?_, .inr (by omega), ?_, ?_⟩
  · rw [length_append, length_singleton]
    omega
  · simpa [h.plain.1] using hnl.symm
  · simpa [h.plain.2] using hc.symm

theorem Reading.goto (h : Reading es s) {k : Pc} (ht : t.pc = update s.pc p k)
    (hk : ∀ ok target n got, k = .lock ok target n got ∨ k = .loop ok target n got →
      Progress (es ++ e) p target n got) : Reading (es ++ e) t := by
  intro q ok target n got hq
  rw [ht] at hq
  by_cases hqp : q = p
  · subst hqp
    rw [update_self] at hq
    exact hk ok target n got hq
  · rw [update_of_ne hqp] at hq
    exact (h q ok target n got hq).append e

theorem Reading.ret (h : Reading es s) (d : D) : Reading (es ++ e) (s.ret p d) :=
  h.goto rfl fun _ _ _ _ hk => by rcases hk with hk | hk <;> cases hk

omit [DecidableEq P] in
theorem Progress.newline (h : Progress es p target n got) (hn : 0 < n) :
    Returned es (.ret p (target - (n - 1)) (got ++ [NL])) := by
  have hcount := h.count
  refine ⟨target, h.called, .inl ?_, ?_, ?_, ?_⟩
  · rw [length_append, length_singleton]
    omega
  · rw [length_append, length_singleton]
    omega
  · rw [dropLast_concat]
    exact h.plain.1
  · simpa [h.plain.2] using (by decide : ctrl 'D' ≠ NL)

theorem Step.reading (h : Reading es s) (hst : Step dev s e t) :
    Reading (es ++ e) t ∧ ∀ x ∈ e, Returned es x := by
  cases hst with
  | intr c hl => exact ⟨fun q _ _ _ _ hq => (h q _ _ _ _ hq).append _, by simp [Returned]⟩
  | kill p => exact ⟨fun q _ _ _ _ hq => (h q _ _ _ _ hq).append _, by simp⟩
  | call p ok n hp =>
    refine ⟨h.goto rfl ?_, by simp [Returned]⟩
    rintro _ _ _ _ (hk | hk) <;> cases hk
    exact ⟨by simp, by simp, .inl rfl, by simp⟩
  | acquire p ok target n got hp hs hl =>
    refine ⟨h.goto rfl ?_, by simp⟩
    rintro _ _ _ _ (hk | hk) <;> cases hk
    exact (h p _ _ _ _ (.inl hp)).append _
  | done p ok target n got hp hn =>
    exact ⟨h.ret _, forall_mem_singleton.2 ((h p _ _ _ _ (.inr hp)).returned (.inl rfl))⟩
  | killed p ok target n got hp hn hr hk =>
    exact ⟨h.ret _, forall_mem_singleton.2 ((h p _ _ _ _ (.inr hp)).returned (.inr rfl))⟩
  | sleep p ok target n got hp hn hr hk =>
    refine ⟨h.goto rfl ?_, by simp⟩
    rintro _ _ _ _ (hk | hk) <;> cases hk
    exact (h p _ _ _ _ (.inr hp)).append _
  | eof p ok target n got hp hn hr hc =>
    exact ⟨h.ret _, forall_mem_singleton.2 ((h p _ _ _ _ (.inr hp)).returned (.inl rfl))⟩
  | fault p ok target n got hp hn hr hc hok =>
    exact ⟨h.ret _, forall_mem_singleton.2 ((h p _ _ _ _ (.inr hp)).returned (.inl rfl))⟩
  | byte p ok target n got hp hn hr hc hok hnl =>
    refine ⟨h.goto rfl ?_, by simp⟩
    rintro _ _ _ _ (hk | hk) <;> cases hk
    exact ((h p _ _ _ _ (.inr hp)).byte hn hnl hc).append _
  | newline p ok target n got hp hn hr hok hnl =>
    refine ⟨h.ret _, forall_mem_singleton.2 ?_⟩
    rw [hnl]
    exact (h p _ _ _ _ (.inr hp)).newline hn

/-- **What a read returns** in any run, over any device: the number of bytes it has copied, or -1 when it
was killed, and the bytes are at most those it asked for, end at a newline and have no control-D. -/
theorem run_returned {d : D} (h : Run dev (booted d) es s) : Reading es s ∧ ∀ x ∈ es, Returned es x := by
  induction h with
  | start => exact ⟨fun p _ _ _ _ hp => (by rcases hp with hp | hp <;> cases hp), by simp⟩
  | step _ hst ih =>
    obtain ⟨hreading, hnew⟩ := hst.reading ih.1
    refine ⟨hreading, fun x hx => ?_⟩
    rcases mem_append.1 hx with hx | hx
    · exact (ih.2 x hx).append _
    · exact (hnew x hx).append _

end Returns

/-! ### The ring holds the queue and the line -/

/-- The queue and after it the line lie in the ring from `r` on. -/
structure Rel (d : Cons) (a : Lines) : Prop where
  w : d.w = d.r + BitVec.ofNat 32 a.queue.length
  e : d.e = d.r + BitVec.ofNat 32 (a.queue.length + a.line.length)
  room : a.queue.length + a.line.length ≤ INPUT_BUF_SIZE
  cell : ∀ i x, (a.queue ++ a.line)[i]? = some x → d.buf (cell (d.r + BitVec.ofNat 32 i)) = x
  /-- A newline commits the line it ends. -/
  plain : NL ∉ a.line

theorem rel_zero : Rel zero ⟨[], []⟩ where
  w := rfl
  e := rfl
  room := Nat.zero_le _
  cell i x h := by simp at h
  plain := by simp

theorem size_dvd : INPUT_BUF_SIZE ∣ 2 ^ 32 := by decide

/-- The cells follow one another whatever the counters have wrapped to. -/
theorem cell_add (r : BitVec 32) (i : ℕ) :
    cell (r + BitVec.ofNat 32 i) = Fin.ofNat INPUT_BUF_SIZE (r.toNat + i) := by
  unfold cell
  rw [BitVec.toNat_add, BitVec.toNat_ofNat, Nat.add_mod_mod, RingBuffer.ofNat_mod size_dvd]

variable {d : Cons} {a : Lines}

namespace Rel

section

variable (h : Rel d a)
include h

theorem small : a.queue.length + a.line.length < 2 ^ 32 :=
  lt_of_le_of_lt h.room (by decide)

theorem toNat_w_sub_r : (d.w - d.r).toNat = a.queue.length := by
  have := h.small
  rw [h.w, BitVec.add_comm, BitVec.add_sub_cancel, BitVec.toNat_ofNat, Nat.mod_eq_of_lt (by omega)]

theorem toNat_e_sub_r : (d.e - d.r).toNat = a.queue.length + a.line.length := by
  rw [h.e, BitVec.add_comm, BitVec.add_sub_cancel, BitVec.toNat_ofNat, Nat.mod_eq_of_lt h.small]

/-- The edit index is as far beyond the write index as the line is long. -/
theorem e_eq : d.e = d.w + BitVec.ofNat 32 a.line.length := by
  rw [h.e, h.w, BitVec.ofNat_add, BitVec.add_assoc]

theorem toNat_e_sub_w : (d.e - d.w).toNat = a.line.length := by
  have := h.small
  rw [h.e_eq, BitVec.add_comm, BitVec.add_sub_cancel, BitVec.toNat_ofNat, Nat.mod_eq_of_lt (by omega)]

theorem e_ne_w : d.e ≠ d.w ↔ a.line ≠ [] := by
  have hlen := h.toNat_e_sub_w
  constructor
  · rintro hne hnil
    rw [hnil, length_nil] at hlen
    exact hne (BitVec.sub_eq_iff_eq_add.1 (BitVec.eq_of_toNat_eq hlen) |>.trans (BitVec.zero_add _))
  · rintro hne he
    rw [he, BitVec.sub_self] at hlen
    exact hne (length_eq_zero_iff.1 hlen.symm)

theorem r_ne_w : d.r ≠ d.w ↔ a.queue ≠ [] := by
  have hlen := h.toNat_w_sub_r
  constructor
  · rintro hne hnil
    rw [hnil, length_nil] at hlen
    exact hne (BitVec.sub_eq_iff_eq_add.1 (BitVec.eq_of_toNat_eq hlen) |>.trans
      (BitVec.zero_add _)).symm
  · rintro hne he
    rw [← he, BitVec.sub_self] at hlen
    exact hne (length_eq_zero_iff.1 hlen.symm)

/-- The last character of the line is in the cell before the edit index. -/
theorem last (hne : a.line ≠ []) : d.buf (Console.cell (d.e - 1)) = a.line.getLast hne := by
  have hpos := length_pos_iff.2 hne
  have he : d.e - 1 = d.r + BitVec.ofNat 32 (a.queue.length + (a.line.length - 1)) := by
    rw [h.e, show a.queue.length + a.line.length = a.queue.length + (a.line.length - 1) + 1 by omega,
      BitVec.ofNat_add _ 1, ← BitVec.add_assoc]
    exact BitVec.add_sub_cancel _ _
  rw [he]
  refine h.cell _ _ ?_
  rw [getElem?_append_right (by omega), getLast_eq_getElem]
  simp only [Nat.add_sub_cancel_left]
  exact getElem?_eq_getElem (by omega)

/-- **Erasing** a character shortens the line. -/
theorem erase (hne : a.line ≠ []) :
    Rel { d with e := d.e - 1 } ⟨a.queue, a.line.dropLast⟩ where
  w := h.w
  e := by
    have hpos := length_pos_iff.2 hne
    show d.e - 1 = _
    rw [h.e, length_dropLast,
      show a.queue.length + a.line.length = a.queue.length + (a.line.length - 1) + 1 by omega,
      BitVec.ofNat_add _ 1, ← BitVec.add_assoc]
    exact BitVec.add_sub_cancel _ _
  room := by
    have := h.room
    simp only [length_dropLast]
    omega
  cell i x hx := by
    refine h.cell i x ?_
    have hpre : a.queue ++ a.line.dropLast <+: a.queue ++ a.line :=
      (prefix_append_right_inj _).2 ( List.dropLast_prefix _)
    obtain ⟨rest, hrest⟩ := hpre
    rwa [← hrest, getElem?_append_left (List.getElem?_eq_some_iff.1 hx).1]
  plain hmem := h.plain (mem_of_mem_dropLast hmem)

/-- **Killing** the line erases all of it: no character of it is a newline. -/
theorem killLine : Rel (d.killLine (d.e - d.w).toNat) ⟨a.queue, []⟩ := by
  rw [h.toNat_e_sub_w]
  -- by induction on the length of the line
  obtain ⟨q, l⟩ := a
  induction hl : l.length generalizing d l with
  | zero =>
    obtain rfl := length_eq_zero_iff.1 hl
    exact h
  | succ k ih =>
    have hne : l ≠ [] := ne_nil_of_length_eq_add_one hl
    have hlast : d.buf (Console.cell (d.e - 1)) ≠ NL := by
      rw [h.last hne]
      exact fun he => h.plain (he ▸ getLast_mem hne)
    show Rel (d.killLine (k + 1)) _
    rw [Cons.killLine, if_pos ⟨h.e_ne_w.2 hne, hlast⟩]
    exact ih l.dropLast (h.erase hne) (by rw [length_dropLast, hl]; rfl)

/-- A character stored at the edit index comes after the line and leaves the cells before it. -/
theorem store_cell {c : UInt8}
    (hroom : a.queue.length + a.line.length < INPUT_BUF_SIZE) (i : ℕ) (x : UInt8)
    (hx : (a.queue ++ (a.line ++ [c]))[i]? = some x) :
    update d.buf (Console.cell d.e) c (Console.cell (d.r + BitVec.ofNat 32 i)) = x := by
  rw [← append_assoc] at hx
  have hlen : (a.queue ++ a.line).length = a.queue.length + a.line.length := length_append
  rw [h.e, cell_add, cell_add]
  rcases lt_trichotomy i (a.queue ++ a.line).length with hlt | rfl | hgt
  · rw [update_of_ne (RingBuffer.ofNat_ne (by omega) (by omega)), ← cell_add]
    rw [getElem?_append_left hlt] at hx
    exact h.cell i x hx
  · rw [hlen, update_self]
    simpa using hx
  · rw [getElem?_eq_none (by simp only [length_append, length_singleton] at hgt ⊢; omega)]
      at hx
    cases hx

/-- **Storing** a character extends the line. -/
theorem store {c : UInt8} (hroom : a.queue.length + a.line.length < INPUT_BUF_SIZE)
    (hc : c ≠ NL) :
    Rel { d with buf := update d.buf (Console.cell d.e) c, e := d.e + 1 }
      ⟨a.queue, a.line ++ [c]⟩ where
  w := h.w
  e := by
    show d.e + 1 = _
    rw [h.e, length_append, ← Nat.add_assoc, BitVec.ofNat_add _ [c].length, ← BitVec.add_assoc]
    rfl
  room := by
    simp only [length_append, length_singleton]
    omega
  cell := h.store_cell hroom
  plain hmem := by
    rcases mem_append.1 hmem with hold | hnew
    · exact h.plain hold
    · exact hc (mem_singleton.1 hnew).symm

/-- **Committing** the line with a last character. -/
theorem commit {c : UInt8} (hroom : a.queue.length + a.line.length < INPUT_BUF_SIZE) :
    Rel { d with buf := update d.buf (Console.cell d.e) c, w := d.e + 1, e := d.e + 1 }
      ⟨a.queue ++ a.line ++ [c], []⟩ := by
  have he : d.e + 1 = d.r + BitVec.ofNat 32 (a.queue ++ a.line ++ [c]).length := by
    rw [h.e, length_append, length_append, BitVec.ofNat_add _ [c].length,
      ← BitVec.add_assoc]
    rfl
  refine ⟨he, he, ?_, fun i x hx => ?_, by simp⟩
  · simp only [length_append, length_singleton, length_nil]
    omega
  · refine h.store_cell hroom i x ?_
    rwa [append_nil, append_assoc] at hx

/-- An ordinary character that fits extends the line, and commits it or not. -/
theorem add (c : UInt8) (hroom : a.queue.length + a.line.length < INPUT_BUF_SIZE) :
    let d' : Cons := { d with buf := update d.buf (Console.cell d.e) c, e := d.e + 1 }
    let r := if c = NL ∨ c = ctrl 'D' ∨ (d'.e - d'.r).toNat = INPUT_BUF_SIZE then
      (({ d' with w := d'.e } : Cons), true) else (d', false)
    Rel r.1 (a.add c).1 ∧ r.2 = (a.add c).2 := by
  have hlen : (d.e + 1 - d.r).toNat = a.queue.length + a.line.length + 1 := by
    have hsum : d.e + 1 = d.r + BitVec.ofNat 32 (a.queue.length + a.line.length + 1) := by
      rw [h.e, BitVec.ofNat_add _ 1, ← BitVec.add_assoc]
      rfl
    have hsmall : a.queue.length + a.line.length + 1 < 2 ^ 32 :=
      lt_of_le_of_lt (Nat.succ_le_of_lt hroom) (by decide)
    rw [hsum, BitVec.add_comm, BitVec.add_sub_cancel, BitVec.toNat_ofNat, Nat.mod_eq_of_lt hsmall]
  intro d' r
  have hr : r = if c = NL ∨ c = ctrl 'D' ∨ a.queue.length + a.line.length + 1 = INPUT_BUF_SIZE then
      (({ d' with w := d'.e } : Cons), true) else (d', false) := by
    rw [← hlen]
  rw [hr]
  unfold Lines.add
  split_ifs with hend
  · exact ⟨h.commit hroom, rfl⟩
  · exact ⟨h.store hroom fun he => hend (.inl he), rfl⟩

/-- **Reading** takes the first byte of the queue. -/
theorem take (hne : a.queue ≠ []) :
    Rel { d with r := d.r + 1 } ⟨a.queue.tail, a.line⟩ := by
  obtain ⟨q, l⟩ := a
  cases q with
  | nil => exact absurd rfl hne
  | cons c q =>
    have hadd : ∀ k : ℕ, d.r + BitVec.ofNat 32 (k + 1) = d.r + 1 + BitVec.ofNat 32 k := by
      intro k
      rw [Nat.add_comm, BitVec.ofNat_add, BitVec.add_assoc]
      rfl
    refine ⟨?_, ?_, ?_, fun i x hx => ?_, h.plain⟩
    · exact h.w.trans (hadd _)
    · refine h.e.trans ?_
      rw [← hadd, length_cons, Nat.add_right_comm]
      rfl
    · have := h.room
      simp only [length_cons, tail_cons] at this ⊢
      omega
    · have := h.cell (i + 1) x (by simpa using hx)
      rwa [hadd] at this

/-- The next byte of the ring is the first of the queue. -/
theorem next (hne : a.queue ≠ []) : d.buf (Console.cell d.r) = a.queue.headD 0 := by
  obtain ⟨q, l⟩ := a
  cases q with
  | nil => exact absurd rfl hne
  | cons c q =>
    have := h.cell 0 c (by simp)
    rwa [show d.r + BitVec.ofNat 32 0 = d.r from BitVec.add_zero _] at this

end

end Rel

/-- **Input**: `consoleintr` does on the ring what the abstract machine does, and wakes the readers when
it does. -/
theorem Rel.intr (h : Rel d a) (c : UInt8) :
    Rel (d.consoleintr c).1 (a.input c).1 ∧ (d.consoleintr c).2 = (a.input c).2 := by
  unfold Cons.consoleintr Lines.input
  by_cases hP : c = ctrl 'P'
  · rw [if_pos hP, if_pos hP]
    exact ⟨h, rfl⟩
  rw [if_neg hP, if_neg hP]
  by_cases hU : c = ctrl 'U'
  · rw [if_pos hU, if_pos hU]
    exact ⟨h.killLine, rfl⟩
  rw [if_neg hU, if_neg hU]
  by_cases hH : c = ctrl 'H' ∨ c = DEL
  · rw [if_pos hH, if_pos hH]
    by_cases hne : a.line = []
    · rw [if_neg fun he => h.e_ne_w.1 he hne]
      obtain ⟨q, l⟩ := a
      obtain rfl : l = [] := hne
      exact ⟨h, rfl⟩
    · rw [if_pos (h.e_ne_w.2 hne)]
      exact ⟨h.erase hne, rfl⟩
  rw [if_neg hH, if_neg hH, h.toNat_e_sub_r]
  by_cases hadd : c ≠ 0 ∧ a.queue.length + a.line.length < INPUT_BUF_SIZE
  · rw [if_pos hadd, if_pos hadd]
    dsimp only
    generalize (if c = CR then NL else c) = c'
    exact h.add c' hadd.2
  · rw [if_neg hadd, if_neg hadd]
    exact ⟨h, rfl⟩

theorem Rel.ready (h : Rel d a) : console.ready d = discipline.ready a := by
  have hq : discipline.ready a = decide (a.queue ≠ []) := by
    cases hq : a.queue <;> simp [discipline, hq]
  rw [hq]
  exact decide_eq_decide.2 h.r_ne_w

theorem Rel.queue_ne (h : Rel d a) (hr : console.ready d = true) : a.queue ≠ [] :=
  h.r_ne_w.1 (of_decide_eq_true hr)

/-- **Control-D** is left in the queue, or taken. -/
theorem Rel.eof (h : Rel d a) (hne : a.queue ≠ []) (keep : Bool) :
    Rel (console.eof keep d) (discipline.eof keep a) := by
  cases keep with
  | false => exact h.take hne
  | true =>
    show Rel { d with r := d.r + 1 - 1 } a
    rwa [BitVec.add_sub_cancel]

/-! ### The simulation -/

/-- The processes of `s` with another device. -/
def Sys.withDev {E : Type} (s : Sys D P) (x : E) : Sys E P := ⟨x, s.lock, s.pc, s.sleeping, s.killed⟩

/-- **One step** of the driver is a step of the abstract machine with the same events. -/
theorem Step.sim {s t : Sys Cons P} {es : List (Ev P)} (h : Rel s.dev a) (hst : Step console s es t) :
    ∃ b, Step discipline (s.withDev a) es (t.withDev b) ∧ Rel t.dev b := by
  cases hst with
  | intr c hl =>
    obtain ⟨hrel, hwake⟩ := h.intr c
    refine ⟨(a.input c).1, ?_, hrel⟩
    -- the same readers are woken
    have hdev : (s.intr (console.intr c s.dev)).withDev (a.input c).1 =
        (s.withDev a).intr (discipline.intr c a) := by
      simp only [Sys.intr, Sys.withDev, discipline, console, hwake]
    rw [hdev]
    exact .intr (s.withDev a) c hl
  | kill p => exact ⟨a, .kill _ p, h⟩
  | call p ok n hp => exact ⟨a, .call _ p ok n hp, h⟩
  | acquire p ok target n got hp hs hl => exact ⟨a, .acquire _ p ok target n got hp hs hl, h⟩
  | done p ok target n got hp hn => exact ⟨a, .done _ p ok target n got hp hn, h⟩
  | killed p ok target n got hp hn hr hk =>
    exact ⟨a, .killed _ p ok target n got hp hn (h.ready.symm.trans hr) hk, h⟩
  | sleep p ok target n got hp hn hr hk =>
    exact ⟨a, .sleep _ p ok target n got hp hn (h.ready.symm.trans hr) hk, h⟩
  | eof p ok target n got hp hn hr hc =>
    have hne := h.queue_ne hr
    exact ⟨_, .eof _ p ok target n got hp hn (h.ready.symm.trans hr) ((h.next hne).symm.trans hc),
      h.eof hne _⟩
  | fault p ok target n got hp hn hr hc hok =>
    have hne := h.queue_ne hr
    exact ⟨_, .fault _ p ok target n got hp hn (h.ready.symm.trans hr)
      (fun he => hc ((h.next hne).trans he)) hok, h.take hne⟩
  | byte p ok target n got hp hn hr hc hok hnl =>
    have hne := h.queue_ne hr
    have hnext : console.next s.dev = discipline.next a := h.next hne
    rw [hnext] at hc hnl ⊢
    exact ⟨_, .byte _ p ok target n got hp hn (h.ready.symm.trans hr) hc hok hnl, h.take hne⟩
  | newline p ok target n got hp hn hr hok hnl =>
    have hne := h.queue_ne hr
    have hnext : console.next s.dev = discipline.next a := h.next hne
    rw [hnext] at hnl ⊢
    exact ⟨_, .newline _ p ok target n got hp hn (h.ready.symm.trans hr) hok hnl, h.take hne⟩

/-- **The console is a line discipline**: every run of any characters and any reads is a run of the
abstract machine with the same events, which leaves every process where it is; the queue and the line
are at most `INPUT_BUF_SIZE` bytes and lie in the ring, and the indices are their lengths apart modulo
`2 ^ 32`. -/
theorem run_refines {s : Sys Cons P} {es : List (Ev P)} (h : Run console (booted zero) es s) :
    ∃ a, Run discipline (booted ⟨[], []⟩) es (s.withDev a) ∧ Rel s.dev a ∧
      (s.dev.w - s.dev.r).toNat = a.queue.length ∧
      (s.dev.e - s.dev.r).toNat = a.queue.length + a.line.length ∧
      (s.dev.w - s.dev.r).toNat ≤ (s.dev.e - s.dev.r).toNat ∧
      (s.dev.e - s.dev.r).toNat ≤ INPUT_BUF_SIZE := by
  have hsim : ∃ a, Run discipline (booted ⟨[], []⟩) es (s.withDev a) ∧ Rel s.dev a := by
    induction h with
    | start => exact ⟨_, .start, rel_zero⟩
    | step _ hst ih =>
      obtain ⟨a, hrun, hrel⟩ := ih
      obtain ⟨b, hstep, hrel'⟩ := hst.sim hrel
      exact ⟨b, hrun.step hstep, hrel'⟩
  obtain ⟨a, hrun, hrel⟩ := hsim
  have hw := hrel.toNat_w_sub_r
  have he := hrel.toNat_e_sub_r
  have hroom := hrel.room
  exact ⟨a, hrun, hrel, hw, he, by omega, by omega⟩

/-- The keys `a`, delete, `b` and return are typed, and a process reads the line `b`. -/
theorem run_refines_line : ∃ (s : Sys Cons (Fin 1)) (a : Lines),
    Run console (booted zero) [.input 97, .input DEL, .input 98, .input CR, .call 0 5,
      .ret 0 2 [98, NL]] s ∧
      Rel s.dev a ∧ a = ⟨[], []⟩ ∧ s.dev.r = 2 := by
  have h : Run console (booted zero : Sys Cons (Fin 1)) _ _ :=
    Run.start
      |>.step (.intr _ 97 rfl)
      |>.step (.intr _ DEL rfl)
      |>.step (.intr _ 98 rfl)
      |>.step (.intr _ CR rfl)
      |>.step (.call _ 0 (fun _ => true) 5 rfl)
      |>.step (.acquire _ 0 (fun _ => true) 5 5 [] rfl rfl rfl)
      |>.step (.byte _ 0 (fun _ => true) 5 5 [] rfl (by decide) (by decide) (by decide) rfl (by decide))
      |>.step (.newline _ 0 (fun _ => true) 5 4 [98] rfl (by decide) (by decide) rfl (by decide))
  obtain ⟨⟨q, l⟩, -, hrel, hw, he, -⟩ := run_refines h
  have hq : q = [] := length_eq_zero_iff.1 (hw.symm.trans (by decide))
  have hl : q.length + l.length = 0 := he.symm.trans (by decide)
  exact ⟨_, ⟨q, l⟩, h, hrel, by rw [hq, length_eq_zero_iff.1 (Nat.eq_zero_of_add_eq_zero_left hl)], by decide⟩

end Console

end Xv6
