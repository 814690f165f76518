import Xv6.Proc.Pipe
import Xv6.Proc.Read

/-!
# Reading from a pipe into user memory (`pipe.c`)

`piperead` under the lock of the pipe, with the memory of the reader.  The loop takes a byte out of the
ring and then copies it to the user; a copy that fails ends the loop after the byte was taken.

* `piperead`: the function; it sleeps on an empty pipe that is open for writing;
* `pipereadLoop_steps`: its loop takes the steps of the state machine `Pipes`;
* `piperead_exact`: **it takes as many bytes as it returns, and they are in the buffer**, exactly when the
  user may write the part of the buffer that the bytes go to;
* `piperead_loses`: a byte is taken that nobody gets.
-/

namespace Xv6

open Stateful List
open Pipes (PIPESIZE)

namespace Kernel

/-- A pipe, and the memory of the process that reads. -/
structure ReadState where
  ring : RingBuffer Byte 32 PIPESIZE
  writeopen : Bool
  mem : Mem

/-- The copying loop of `piperead`, for a buffer of `n` bytes. -/
def pipereadLoop (pt addr n : ℕ) : ℕ → ℕ → ReadState → ℕ × ReadState
  | 0, i, s => (i, s)
  | fuel + 1, i, s =>
    if i < n then
      if s.ring.empty then (i, s)
      else
        let ch := s.ring.front
        let s := { s with ring := s.ring.pop }
        let (m, ok) := copyout s.mem pt (add64 addr i) [ch]
        let s := { s with mem := m }
        if !ok then (i, s) else pipereadLoop pt addr n fuel (i + 1) s
    else (i, s)

/-- Read from a pipe: the number of bytes, or -1 if the process is killed while it waits. -/
def piperead (pt addr : ℕ) (n : BitVec 32) (killed : Bool) : Prog ReadState ℤ := do
  let s ← Prog.get
  if s.ring.empty ∧ s.writeopen then
    if killed then
      return -1
    else
      Prog.sleep
  else
    let (i, t) := pipereadLoop pt addr n.toInt.toNat n.toInt.toNat 0 s
    Prog.set t
    return i

/-- The number of bytes in the pipe. -/
def ReadState.avail (s : ReadState) : ℕ := (s.ring.nwrite - s.ring.nread).toNat

/-- The bytes that come out next. -/
def ReadState.next (s : ReadState) (c : ℕ) : List Byte :=
  (List.range c).map fun k => s.ring.data (Fin.ofNat PIPESIZE (s.ring.nread + BitVec.ofNat 32 k).toNat)

variable {s : ReadState} {S : KMap} {q : Tbl} {pt addr : ℕ}

theorem ReadState.empty_iff (s : ReadState) : s.ring.empty = true ↔ s.avail = 0 := by
  unfold RingBuffer.empty ReadState.avail
  rw [decide_eq_true_iff, ← BitVec.toNat_zero (w := 32), ← BitVec.toNat_eq]
  constructor
  · intro h
    rw [h, BitVec.sub_self]
  · intro h
    bv_omega

/-- The pipe of `Pipes`, where the memory of the readers is left out, has the bytes of `s`. -/
structure Shows (x : Pipes.Sys) (s : ReadState) : Prop where
  data : ∀ i, (x.ring.data i).toBitVec = s.ring.data i
  nread : x.ring.nread = s.ring.nread
  nwrite : x.ring.nwrite = s.ring.nwrite

theorem Shows.empty {x : Pipes.Sys} (h : Shows x s) : x.ring.empty = s.ring.empty := by
  unfold RingBuffer.empty
  rw [h.nread, h.nwrite]

theorem Shows.pop {x : Pipes.Sys} (h : Shows x s) (m : Mem) :
    Shows x.remove { s with ring := s.ring.pop, mem := m } :=
  ⟨h.data, congrArg (· + 1) h.nread, h.nwrite⟩

/-- **The loop is a run of the pipe**: when copying out succeeds where `u` says, the process takes the
steps of `Pipes`, returns what the loop returns and leaves the pipe as the loop does. -/
theorem pipereadLoop_steps {P : Pipes.Call → Prop} {I : Mem → Prop} {u : Pipes.Call} {p n : ℕ}
    (hn : u.n = n)
    (hI : ∀ m k ch, I m → (copyout m pt (add64 addr k) [ch]).2 = u.copyout k ∧
      I (copyout m pt (add64 addr k) [ch]).1) (fuel : ℕ) :
    ∀ (i : ℕ) (s : ReadState) (x : Pipes.Sys), n ≤ i + fuel → I s.mem → Shows x s → x.pc p = .read u i →
      ∃ y, Relation.ReflTransGen (Pipes.Step P) x y ∧
        y.pc p = .done (pipereadLoop pt addr n fuel i s).1 ∧
        Shows y (pipereadLoop pt addr n fuel i s).2 := by
  have hend : ∀ (i : ℕ) (s : ReadState) (x : Pipes.Sys), ¬ (i : ℤ) < u.n ∨ x.ring.empty = true → Shows x s →
      x.pc p = .read u i → ∃ y, Relation.ReflTransGen (Pipes.Step P) x y ∧ y.pc p = .done i ∧ Shows y s :=
    fun i s x hstop hx hp => ⟨_, .single (.readEnd x p u i hp hstop), Function.update_self _ _ _,
      hx.data, hx.nread, hx.nwrite⟩
  induction fuel with
  | zero =>
    intro i s x hle _ hx hp
    exact hend i s x (.inl (by omega)) hx hp
  | succ fuel ih =>
    intro i s x hle hm hx hp
    unfold pipereadLoop
    by_cases hi : i < n
    swap
    · rw [if_neg hi]
      exact hend i s x (.inl (by omega)) hx hp
    rw [if_pos hi]
    by_cases he : s.ring.empty = true
    · rw [if_pos he]
      exact hend i s x (.inr (hx.empty.trans he)) hx hp
    rw [if_neg he]
    have hi' : (i : ℤ) < u.n := by omega
    have he' : x.ring.empty = false := hx.empty.trans (Bool.eq_false_of_not_eq_true he)
    obtain ⟨hok, hm'⟩ := hI s.mem i s.ring.front hm
    dsimp only
    cases hu : u.copyout i with
    | false =>
      rw [hok, hu]
      exact ⟨_, .single (.readFault x p u i hp hi' he' hu), Function.update_self _ _ _,
        hx.data, (hx.pop s.mem).nread, hx.nwrite⟩
    | true =>
      rw [hok, hu]
      obtain ⟨y, hrun, hret, hy⟩ := ih (i + 1)
        { s with ring := s.ring.pop, mem := (copyout s.mem pt (add64 addr i) [s.ring.front]).1 }
        ((x.remove.give x.ring.front).goto p (.read u (i + 1))) (by omega) hm'
        ⟨hx.data, (hx.pop s.mem).nread, hx.nwrite⟩ (Function.update_self _ _ _)
      exact ⟨y, .head (.readByte x p u i hp hi' he' hu) hrun, hret, hy⟩

theorem ReadState.avail_pop (h : s.avail ≠ 0) (m : Mem) :
    ({ s with ring := s.ring.pop, mem := m } : ReadState).avail = s.avail - 1 := by
  show (s.ring.nwrite - (s.ring.nread + 1)).toNat = (s.ring.nwrite - s.ring.nread).toNat - 1
  have h' : (s.ring.nwrite - s.ring.nread).toNat ≠ 0 := h
  have hsub : s.ring.nwrite - (s.ring.nread + 1) = s.ring.nwrite - s.ring.nread - 1 := by
    bv_omega
  rw [hsub]
  generalize s.ring.nwrite - s.ring.nread = d at *
  bv_omega

theorem ReadState.next_succ (s : ReadState) (m : Mem) (c : ℕ) :
    s.next (c + 1) = s.ring.front :: ({ s with ring := s.ring.pop, mem := m } : ReadState).next c := by
  unfold ReadState.next
  rw [range_succ_eq_map, map_cons, map_map]
  congr 1
  · rw [BitVec.add_zero]
    rfl
  · apply map_congr_left
    intro k _
    show s.ring.data (Fin.ofNat PIPESIZE (s.ring.nread + BitVec.ofNat 32 (k + 1)).toNat) =
      s.ring.data (Fin.ofNat PIPESIZE (s.ring.nread + 1 + BitVec.ofNat 32 k).toNat)
    rw [BitVec.add_assoc, Nat.add_comm k 1, BitVec.ofNat_add]
    rfl

/-- The loop takes the bytes there are, at most `n`, while the user may write. -/
theorem pipereadLoop_exact (hrep : Rep s.mem S) (hr : S.root q = some pt) {n fuel i : ℕ} (hf : n ≤ i + fuel)
    (hbuf : ∀ k < min (n - i) s.avail, Writable S q (addr + i + k)) :
    ∃ t S', pipereadLoop pt addr n fuel i s = (i + min (n - i) s.avail, t) ∧
      t.ring = { s.ring with nread := s.ring.nread + BitVec.ofNat 32 (min (n - i) s.avail) } ∧
      t.writeopen = s.writeopen ∧ Rep t.mem S' ∧ Wrote S S' q (addr + i)
        (s.next (min (n - i) s.avail)) := by
  induction fuel generalizing i s S with
  | zero =>
    have h0 : min (n - i) s.avail = 0 := by omega
    rw [h0, pipereadLoop]
    exact ⟨s, S, rfl, by rw [BitVec.add_zero], rfl, hrep, Wrote.refl S q _⟩
  | succ fuel ih =>
    rw [pipereadLoop]
    dsimp only
    by_cases hi : i < n
    swap
    · have h0 : min (n - i) s.avail = 0 := by omega
      rw [if_neg hi, h0]
      exact ⟨s, S, rfl, by rw [BitVec.add_zero], rfl, hrep, Wrote.refl S q _⟩
    rw [if_pos hi]
    by_cases he : s.avail = 0
    · have h0 : min (n - i) s.avail = 0 := by omega
      rw [if_pos ((ReadState.empty_iff s).2 he), h0]
      exact ⟨s, S, rfl, by rw [BitVec.add_zero], rfl, hrep, Wrote.refl S q _⟩
    rw [if_neg fun hc => he ((ReadState.empty_iff s).1 hc)]
    have hw0 : Writable S q (addr + i) := hbuf 0 (by omega)
    have hlt : addr + i < MAXVA := by
      obtain ⟨x, hx, -⟩ := hw0
      exact (userPage_eq_some.1 hx).1
    have hmax : MAXVA = 2 ^ 38 := rfl
    rw [add64_eq (by omega)]
    have hdst : addr + i < 2 ^ 64 := by omega
    obtain ⟨hok, S₁, c, hrep₁, hwrote, hall⟩ := rep_copyout hrep hr [s.ring.front] hdst
    have hok' : (copyout s.mem pt (addr + i) [s.ring.front]).2 = true := by
      rw [hok]
      intro k hk
      rw [length_singleton, Nat.lt_one_iff] at hk
      rwa [hk]
    rw [hall hok'] at hwrote
    rw [hok', if_neg (by simp)]
    have havail := ReadState.avail_pop he (copyout s.mem pt (addr + i) [s.ring.front]).1
    obtain ⟨d, hd⟩ : ∃ d, min (n - i) s.avail = d + 1 := ⟨min (n - i) s.avail - 1, by omega⟩
    have hd' : min (n - (i + 1)) (s.avail - 1) = d := by omega
    have hrest : ∀ k < d, Writable S q (addr + (i + 1) + k) := by
      intro k hk
      have := hbuf (k + 1) (by omega)
      rwa [show addr + i + (k + 1) = addr + (i + 1) + k by omega] at this
    obtain ⟨t, S', hrun, hring, hopen, hrep', hw'⟩ := ih (i := i + 1)
      (s := { s with ring := s.ring.pop, mem := (copyout s.mem pt (addr + i) [s.ring.front]).1 }) hrep₁
      (by rwa [hwrote.root]) (by omega) (by
        rw [havail, hd']
        exact fun k hk => hwrote.rewritten.writable (hrest k hk))
    rw [havail, hd'] at hrun hring hw'
    rw [hd]
    refine ⟨t, S', ?_, ?_, hopen, hrep', ?_⟩
    · rw [hrun]
      congr 1
      omega
    · rw [hring]
      show ({ s.ring with nread := s.ring.nread + 1 + BitVec.ofNat 32 d } : RingBuffer Byte 32 PIPESIZE) = _
      rw [BitVec.add_assoc, Nat.add_comm d 1, BitVec.ofNat_add]
      rfl
    · rw [ReadState.next_succ s (copyout s.mem pt (addr + i) [s.ring.front]).1 d]
      refine hwrote.append hw' fun k hk => ?_
      rw [length_map, length_range] at hk
      exact hrest k hk

/-- A loop for more bytes first does what the loop for fewer does. -/
theorem pipereadLoop_append {n f c i : ℕ} {t : ReadState} (hn : i + c ≤ n)
    (h : pipereadLoop pt addr (i + c) c i s = (i + c, t)) :
    pipereadLoop pt addr n (c + f) i s = pipereadLoop pt addr n f (i + c) t := by
  induction c generalizing i s with
  | zero =>
    obtain rfl : s = t := (Prod.mk.inj h).2
    rw [Nat.zero_add, Nat.add_zero]
  | succ c ih =>
    rw [Nat.succ_add, pipereadLoop]
    rw [pipereadLoop, if_pos (by omega)] at h
    rw [if_pos (by omega)]
    split at h
    · have := (Prod.mk.inj h).1
      omega
    rename_i hempty
    rw [if_neg hempty]
    dsimp only at h ⊢
    split at h
    · have := (Prod.mk.inj h).1
      omega
    rename_i hok
    rw [if_neg hok, show i + (c + 1) = i + 1 + c by omega]
    exact ih (by omega) (by rwa [show i + (c + 1) = i + 1 + c by omega] at h)

/-- At the first byte that the user may not write, a byte is taken that is not counted. -/
theorem pipereadLoop_stuck (hrep : Rep s.mem S) (hr : S.root q = some pt) (haddr : addr < 2 ^ 64)
    {n c : ℕ} (hc : c < min n s.avail) (hw : ∀ k < c, Writable S q (addr + k))
    (hno : ¬ Writable S q (addr + c)) :
    ∃ t, pipereadLoop pt addr n n 0 s = (c, t) ∧
      t.ring.nread = s.ring.nread + BitVec.ofNat 32 (c + 1) := by
  have hmin : min (c - 0) s.avail = c := by omega
  obtain ⟨t, S', hrun, hring, -, hrep', hwrote⟩ := pipereadLoop_exact (i := 0) hrep hr
    (show c ≤ 0 + c by omega) (by rw [hmin]; exact hw)
  rw [hmin] at hrun hring hwrote
  obtain ⟨f, rfl⟩ : ∃ f, n = c + (f + 1) := ⟨n - c - 1, by omega⟩
  have hsplit := pipereadLoop_append (n := c + (f + 1)) (f := f + 1) (c := c) (i := 0) (by omega)
    (by rwa [Nat.zero_add] at hrun ⊢)
  rw [hsplit, pipereadLoop, if_pos (by omega), Nat.zero_add]
  have havail : t.avail ≠ 0 := by
    unfold ReadState.avail at hc ⊢
    rw [hring]
    show (s.ring.nwrite - (s.ring.nread + BitVec.ofNat 32 c)).toNat ≠ 0
    have hlt : c < (s.ring.nwrite - s.ring.nread).toNat := by omega
    have hsub : s.ring.nwrite - (s.ring.nread + BitVec.ofNat 32 c) =
        s.ring.nwrite - s.ring.nread - BitVec.ofNat 32 c := by
      generalize BitVec.ofNat 32 c = d
      bv_omega
    rw [hsub]
    generalize s.ring.nwrite - s.ring.nread = d at *
    bv_omega
  rw [if_neg fun hcon => havail ((ReadState.empty_iff t).1 hcon)]
  -- the bytes before were writable, so the address has not wrapped around
  have hlt : addr + c < 2 ^ 64 := by
    cases c with
    | zero => exact haddr
    | succ d =>
      obtain ⟨x, hx, -⟩ := hw d (by omega)
      have hmax : MAXVA = 2 ^ 38 := rfl
      have := (userPage_eq_some.1 hx).1
      omega
  have hbad : (copyout t.mem pt (add64 addr c) [t.ring.front]).2 = false := by
    rw [add64_eq hlt, ← Bool.not_eq_true, (rep_copyout hrep' (by rwa [hwrote.root]) _ hlt).1]
    intro hall
    exact hno (hwrote.rewritten.symm.writable (hall 0 (by simp)))
  dsimp only
  rw [hbad]
  refine ⟨_, rfl, ?_⟩
  show t.ring.nread + 1 = _
  rw [hring, BitVec.ofNat_add, ← BitVec.add_assoc]
  rfl

/-- What a call of `piperead` has to do: the counter `nread` grows by the result, and the bytes taken are
at the start of the buffer, where nothing else of the memory changes; -1 leaves the pipe as it is. -/
def Consumes (S : KMap) (q : Tbl) (pt addr : ℕ) (n : BitVec 32) (killed : Bool) (s : ReadState) : Prop :=
  ∀ r t, piperead pt addr n killed s = .ok r t → (r < 0 → t = s) ∧
    (0 ≤ r → ((t.ring.nread - s.ring.nread).toNat : ℤ) = r ∧
      ∃ S', Rep t.mem S' ∧ Wrote S S' q addr (s.next r.toNat))

/-- **`piperead` takes exactly what it returns, if and only if** the user may write the part of the buffer
that the bytes go to.  It returns from a pipe that has bytes or that nobody can write to. -/
theorem piperead_exact (hrep : Rep s.mem S) (hr : S.root q = some pt) (haddr : addr < 2 ^ 64)
    (n : BitVec 32) (killed : Bool) :
    (¬ (s.ring.empty ∧ s.writeopen) → ∃ r t, piperead pt addr n killed s = .ok r t) ∧
    (Consumes S q pt addr n killed s ↔ ∀ k < min n.toInt.toNat s.avail, Writable S q (addr + k)) := by
  have hrun : ¬ (s.ring.empty ∧ s.writeopen) → piperead pt addr n killed s =
      .ok ((pipereadLoop pt addr n.toInt.toNat n.toInt.toNat 0 s).1 : ℤ)
        (pipereadLoop pt addr n.toInt.toNat n.toInt.toNat 0 s).2 := by
    intro hready
    unfold piperead
    rw [Prog.bind_of_ok (Prog.get_run s), if_neg hready]
    rfl
  refine ⟨fun hready => ⟨_, _, hrun hready⟩, ?_⟩
  have hlt : s.avail < 2 ^ 32 := (s.ring.nwrite - s.ring.nread).isLt
  have hdiff : ∀ c < 2 ^ 32, (s.ring.nread + BitVec.ofNat 32 c - s.ring.nread).toNat = c := by
    intro c hc
    rw [BitVec.add_comm, BitVec.add_sub_cancel, BitVec.toNat_ofNat, Nat.mod_eq_of_lt hc]
  by_cases hready : s.ring.empty ∧ s.writeopen
  · -- the reader of an empty pipe gets -1 or sleeps
    have h0 : s.avail = 0 := (ReadState.empty_iff s).1 hready.1
    refine ⟨fun _ k hk => by omega, fun _ r t hrt => ?_⟩
    unfold piperead at hrt
    rw [Prog.bind_of_ok (Prog.get_run s), if_pos hready] at hrt
    cases killed
    · cases hrt
    · cases hrt
      exact ⟨fun _ => rfl, fun hneg => by omega⟩
  constructor
  · intro hcons
    classical
    by_contra hno
    push Not at hno
    obtain ⟨hlow, hbad⟩ := Nat.find_spec hno
    obtain ⟨t, hloop, hread⟩ := pipereadLoop_stuck hrep hr haddr hlow
      (fun k hk => by
        by_contra hk'
        exact Nat.find_min hno hk ⟨by omega, hk'⟩) hbad
    have hok := hrun hready
    rw [hloop] at hok
    have hcount := ((hcons _ _ hok).2 (by omega)).1
    rw [hread, hdiff _ (by omega)] at hcount
    omega
  · intro hbuf r t hrt
    obtain ⟨t', S', hloop, hring, -, hrep', hw⟩ := pipereadLoop_exact (i := 0) hrep hr
      (show n.toInt.toNat ≤ 0 + n.toInt.toNat by omega) hbuf
    rw [Nat.sub_zero, Nat.zero_add] at hloop
    rw [Nat.sub_zero] at hring hw
    rw [hrun hready, hloop] at hrt
    cases hrt
    refine ⟨fun hneg => by omega, fun _ => ⟨?_, S', hrep', by rwa [Int.toNat_natCast]⟩⟩
    rw [hring]
    exact congrArg _ (hdiff _ (by omega))

/-- A pipe with one byte, whose reader has one page. -/
def onebyte : ReadState := ⟨(⟨fun _ => 0, 0, 0⟩ : RingBuffer Byte 32 PIPESIZE).push 7, true, pageMem⟩

/-- Two bytes are asked for, and the pipe has one. -/
theorem piperead_exact_onebyte : ∃ S, Rep onebyte.mem S ∧ Consumes S (some 0) pageRoot 0 2
    false onebyte := by
  obtain ⟨S, hrep, hroot, -, hbuf, -⟩ := rep_pageMem
  have hmin : min (2 : BitVec 32).toInt.toNat onebyte.avail = 1 := by decide
  refine ⟨S, hrep, (piperead_exact hrep hroot (by decide) 2 false).2.2 fun k hk => ?_⟩
  rw [Nat.zero_add]
  exact hbuf k (by omega)

theorem loses_evaluated : (piperead pageRoot 4096 1 false onebyte).value = some 0 ∧
    (piperead pageRoot 4096 1 false onebyte).state.ring.nread = 1 ∧
    (piperead pageRoot 4096 1 false onebyte).state.avail = 0 := by
  decide +kernel

/-- **A failing read loses a byte**: the buffer is not mapped, the result is 0, and the pipe is empty. -/
theorem piperead_loses : ∃ t, piperead pageRoot 4096 1 false onebyte = .ok 0 t ∧ onebyte.ring.nread = 0 ∧
    t.ring.nread = 1 ∧ onebyte.avail = 1 ∧ t.avail = 0 := by
  obtain ⟨hval, hread, havail⟩ := loses_evaluated
  exact ⟨_, Res.eq_ok_of_value hval, rfl, hread, by decide, havail⟩

end Kernel

end Xv6
