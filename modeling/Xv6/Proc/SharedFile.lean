import Mathlib.Algebra.BigOperators.Group.Finset.Basic
import Mathlib.Data.Fintype.BigOperators
import Xv6.Fs.Owner
import Xv6.Fs.Room
import Xv6.Proc.Kernel

/-!
# Writes through a shared descriptor (`filewrite` of `file.c`)

Any number of processes share one entry of the file table, writable and on a regular file, and call
`filewrite`.  `f->off` is read and changed under the sleep lock of the inode only, so a step is what a
process does from `ilock` to `iunlock`: one chunk of its loop.

`chunks` records the chunks in the order in which the lock was taken, `finished` what the calls of a
process that have returned were asked to write, and `asked` the length of all calls.

* `SharedFile.Sys.chunk`: one turn of the loop of `filewrite`;
* `SharedFile.Inv.chunk`: a chunk goes to the end of what was written;
* `SharedFile.run_concatenated`: the file from the first offset on is the concatenation of the chunks.
-/

namespace Xv6

open Stateful Kernel Function List

namespace SharedFile

/-- A call with a valid buffer. -/
structure Call where
  n : ℕ
  /-- The memory of the process from `addr` on. -/
  mem : ℕ → Byte
  /-- `either_copyin` from `addr + i` on. -/
  src : ℕ → Source
  lt : n < 2 ^ 31
  reads : ∀ i, (src i).Reads fun k => mem (i + k)
  valid : ∀ i a m, i + a + m ≤ n → ((src i).copyin a m).2 = true

/-- Some bytes of the buffer. -/
def Call.bytes (c : Call) (i m : ℕ) : List Byte := (List.range m).map fun j => c.mem (i + j)

/-- Where a process is in `filewrite`. -/
inductive Pc
  | idle
  /-- At the test of the loop. -/
  | loop (c : Call) (i : ℕ)
  /-- After the loop. -/
  | out (c : Call) (i : ℕ)

/-- The bytes a process has still to write. -/
def Pc.rest : Pc → ℕ
  | .idle | .out _ _ => 0
  | .loop c i => c.n - i

/-- The bytes a process has written in its call. -/
def Pc.done : Pc → List Byte
  | .idle => []
  | .loop c i | .out c i => c.bytes 0 i

structure Sys (P : Type) where
  fs : Fs
  /-- `f->off`. -/
  off : BitVec 32
  pc : P → Pc
  chunks : List (P × List Byte)
  finished : P → List Byte
  asked : ℕ
  stop : Option Stop

/-- What a step shows. -/
inductive Ev (P : Type)
  | tau
  | ret (p : P) (c : Call) (r : ℤ)

/-- `ilock` and `writei` of one turn, for `n1` bytes. -/
def writeChunk (c : Call) (i n1 : ℕ) (e : Fin NINODE) (off : BitVec 32) : Prog Fs (BitVec 32) := do
  Fs.ilock e
  Fs.writei (c.src i) e off (BitVec.ofNat 32 n1)

variable {P : Type} [DecidableEq P]

namespace Sys

/-- Process `p` goes on at `k`. -/
def goto (s : Sys P) (p : P) (k : Pc) : Sys P := { s with pc := update s.pc p k }

/-- One turn of the loop of `filewrite`. -/
def chunk (s : Sys P) (e : Fin NINODE) (p : P) (c : Call) (i : ℕ) : Sys P :=
  let n1 := min (c.n - i) MAXWRITE
  match writeChunk c i n1 e s.off s.fs with
  | .stop w fs => { s with fs := fs, stop := some w }
  | .ok r fs =>
    { s.goto p (if r ≠ BitVec.ofNat 32 n1 then .out c i else .loop c (i + n1)) with
      fs := fs
      off := if 0 < r.toInt then s.off + r else s.off
      chunks := s.chunks ++ [(p, c.bytes i n1)] }

/-- What was written, in the order of the lock. -/
def written (s : Sys P) : List Byte := s.chunks.flatMap Prod.snd

/-- What one process wrote. -/
def writtenBy (s : Sys P) (p : P) : List Byte := (s.chunks.filter (·.1 = p)).flatMap Prod.snd

end Sys

/-- One step; `e` is `f->ip`. -/
inductive Step (e : Fin NINODE) : Sys P → Ev P → Sys P → Prop
  | call (s : Sys P) (p : P) (c : Call) (hp : s.pc p = .idle) :
      Step e s .tau { s.goto p (.loop c 0) with asked := s.asked + c.n }
  | chunk (s : Sys P) (p : P) (c : Call) (i : ℕ) (hp : s.pc p = .loop c i) (hi : i < c.n) :
      Step e s .tau (s.chunk e p c i)
  | leave (s : Sys P) (p : P) (c : Call) (i : ℕ) (hp : s.pc p = .loop c i) (hi : ¬ i < c.n) :
      Step e s .tau (s.goto p (.out c i))
  | ret (s : Sys P) (p : P) (c : Call) (i : ℕ) (hp : s.pc p = .out c i) :
      Step e s (.ret p c (if i = c.n then c.n else -1))
        { s.goto p .idle with finished := update s.finished p (s.finished p ++ c.bytes 0 c.n) }

/-- The runs; a panic ends the run. -/
inductive Run (e : Fin NINODE) (s₀ : Sys P) : Sys P → Prop
  | start : Run e s₀ s₀
  | step {s t : Sys P} {a : Ev P} (h : Run e s₀ s) (hs : s.stop = none) (hst : Step e s a t) : Run e s₀ t

/-- The file is open, and nobody is in a call. -/
structure Opened (e : Fin NINODE) (s : Sys P) : Prop where
  fs : FsInv s.fs none
  live : s.fs.Live e
  pc : ∀ p, s.pc p = .idle
  chunks : s.chunks = []
  finished : ∀ p, s.finished p = []
  asked : s.asked = 0
  stop : s.stop = none

/-! ### Chunks -/

/-- A turn whose `writei` writes all its bytes. -/
theorem Sys.chunk_eq {s : Sys P} {e : Fin NINODE} {p : P} {c : Call} {i n1 : ℕ} {fs : Fs}
    (hn : n1 = min (c.n - i) MAXWRITE) (hpos : 0 < (BitVec.ofNat 32 n1).toInt)
    (h : writeChunk c i n1 e s.off s.fs = .ok (BitVec.ofNat 32 n1) fs) :
    s.chunk e p c i = { s.goto p (.loop c (i + n1)) with
      fs := fs
      off := s.off + BitVec.ofNat 32 n1
      chunks := s.chunks ++ [(p, c.bytes i n1)] } := by
  subst hn
  simp [Sys.chunk, h, hpos]

section

variable {c : Call} {i m m' : ℕ}

@[simp] theorem Call.length_bytes : (c.bytes i m).length = m := by simp [Call.bytes]

theorem Call.bytes_append : c.bytes i m ++ c.bytes (i + m) m' = c.bytes i (m + m') := by
  unfold Call.bytes
  rw [range_add, map_append, map_map]
  refine congrArg _ (map_congr_left fun j _ => ?_)
  rw [comp_apply, Nat.add_assoc]

theorem Call.getElem?_bytes {k : ℕ} {b : Byte} (h : (c.bytes i m)[k]? = some b) :
    k < m ∧ b = c.mem (i + k) := by
  have hk : k < m := by
    have := (List.getElem?_eq_some_iff.1 h).1
    simpa using this
  refine ⟨hk, ?_⟩
  rw [Call.bytes, getElem?_map, getElem?_range hk] at h
  exact (Option.some.inj h).symm

end

/-! ### The invariant -/

variable [Fintype P] {s₀ s : Sys P} {e : Fin NINODE} {hi : ℕ}

/-- What has been written so far, when the run began at `s₀`. -/
structure Inv (e : Fin NINODE) (hi : ℕ) (s₀ s : Sys P) : Prop where
  stop : s.stop = none
  fs : FsInv s.fs none
  live : s.fs.Live e
  inum : (s.fs.inode e).inum = (s₀.fs.inode e).inum
  room : s.fs.Room e hi
  off : s.off.toNat = s₀.off.toNat + s.written.length
  size : (s.fs.inode e).size.toNat = max (s₀.fs.inode e).size.toNat s.off.toNat
  bytes : ∀ k b, s.written[k]? = some b →
    s.fs.byte none (s₀.fs.inode e).inum (s₀.off.toNat + k) = b
  asked : s.asked = s.written.length + ∑ p, (s.pc p).rest
  small : ∀ ch ∈ s.chunks, ch.2.length ≤ MAXWRITE
  own : ∀ p, s.writtenBy p = s.finished p ++ (s.pc p).done
  loop : ∀ p c i, s.pc p = .loop c i → i ≤ c.n
  out : ∀ p c i, s.pc p = .out c i → i = c.n

theorem sum_rest_update (pc : P → Pc) (p : P) (k : Pc) :
    ∑ q, (update pc p k q).rest + (pc p).rest = ∑ q, (pc q).rest + k.rest := by
  have h := Finset.sum_update_of_mem (Finset.mem_univ p) (fun q => (pc q).rest) k.rest
  have h' := Finset.add_sum_erase Finset.univ (fun q => (pc q).rest) (Finset.mem_univ p)
  have hcomp : ∀ q, (update pc p k q).rest = update (fun q => (pc q).rest) p k.rest q :=
    fun q => apply_update (fun _ => Pc.rest) pc p k q
  rw [Finset.sdiff_singleton_eq_erase] at h
  simp only [hcomp, h]
  omega

omit [DecidableEq P] in
theorem rest_le_sum (pc : P → Pc) (p : P) : (pc p).rest ≤ ∑ q, (pc q).rest :=
  Finset.single_le_sum (f := fun q => (pc q).rest) (fun _ _ => Nat.zero_le _) (Finset.mem_univ p)

theorem inv_opened (h : Opened e s₀) (hoff : s₀.off.toNat ≤ (s₀.fs.inode e).size.toNat)
    (hroom : s₀.fs.Room e hi) : Inv e hi s₀ s₀ where
  stop := h.stop
  fs := h.fs
  live := h.live
  inum := rfl
  room := hroom
  off := by simp [Sys.written, h.chunks]
  size := (max_eq_left hoff).symm
  bytes k b hk := by simp [Sys.written, h.chunks] at hk
  asked := by simp [Sys.written, h.chunks, h.asked, h.pc, Pc.rest]
  small ch hch := by simp [h.chunks] at hch
  own p := by simp [Sys.writtenBy, h.chunks, h.finished, h.pc, Pc.done]
  loop p c i hp := by
    simp [h.pc] at hp
  out p c i hp := by
    simp [h.pc] at hp

omit [Fintype P] in
theorem pc_cases {p q : P} {k l : Pc} (h : update s.pc p k q = l) :
    q = p ∧ k = l ∨ q ≠ p ∧ s.pc q = l := by
  rcases eq_or_ne q p with rfl | hq
  · exact .inl ⟨rfl, (update_self q k s.pc).symm.trans h⟩
  · exact .inr ⟨hq, (update_of_ne hq k s.pc).symm.trans h⟩

namespace Inv

theorem goto (h : Inv e hi s₀ s) {t : Sys P} (p : P) (k : Pc) (hpc : t.pc = update s.pc p k)
    (hfs : t.fs = s.fs) (hoff : t.off = s.off) (hchunks : t.chunks = s.chunks) (hstop : t.stop = s.stop)
    (hasked : t.asked + (s.pc p).rest = s.asked + k.rest)
    (hfin : ∀ q, q ≠ p → t.finished q = s.finished q)
    (hdone : t.finished p ++ k.done = s.finished p ++ (s.pc p).done)
    (hloop : ∀ c i, k = .loop c i → i ≤ c.n) (hout : ∀ c i, k = .out c i → i = c.n) : Inv e hi s₀ t := by
  have hwritten : t.written = s.written := by rw [Sys.written, Sys.written, hchunks]
  have hby : ∀ q, t.writtenBy q = s.writtenBy q := fun q => by
    rw [Sys.writtenBy, Sys.writtenBy, hchunks]
  refine ⟨hstop.trans h.stop, by rw [hfs]; exact h.fs, by rw [hfs]; exact h.live, by rw [hfs]; exact h.inum,
    by rw [hfs]; exact h.room, by rw [hoff, hwritten]; exact h.off, by rw [hfs, hoff]; exact h.size,
    by rw [hfs, hwritten]; exact h.bytes, ?_, by rw [hchunks]; exact h.small, fun q => ?_, fun q c i hq => ?_,
    fun q c i hq => ?_⟩
  · have hsum := sum_rest_update s.pc p k
    have hold := h.asked
    rw [hwritten, hpc]
    omega
  · rw [hby, h.own q, hpc]
    rcases eq_or_ne q p with rfl | hq
    · rw [update_self, hdone]
    · rw [update_of_ne hq, hfin q hq]
  · rw [hpc] at hq
    rcases pc_cases hq with ⟨-, rfl⟩ | ⟨-, hq⟩
    · exact hloop c i rfl
    · exact h.loop q c i hq
  · rw [hpc] at hq
    rcases pc_cases hq with ⟨-, rfl⟩ | ⟨-, hq⟩
    · exact hout c i rfl
    · exact h.out q c i hq

/-- **One chunk** is written completely, at the end of what was written. -/
theorem writeChunk (h : Inv e hi s₀ s) (hmax : hi ≤ MAXFILE * BSIZE) (hle : s₀.off.toNat + s.asked ≤ hi)
    {p : P} {c : Call} {i : ℕ} (hp : s.pc p = .loop c i) :
    wp (writeChunk c i (min (c.n - i) MAXWRITE) e s.off)
      (fun r t => r = BitVec.ofNat 32 (min (c.n - i) MAXWRITE) ∧ FsInv t none ∧ t.Room e hi ∧
        Fs.Written (c.src i) (fun k => c.mem (i + k)) e s.off.toNat (min (c.n - i) MAXWRITE)
          (min (c.n - i) MAXWRITE) s.fs t)
      (fun _ _ => False) s.fs := by
  have hrest : c.n - i ≤ ∑ q, (s.pc q).rest := by
    have := rest_le_sum s.pc p
    rwa [hp] at this
  have hasked := h.asked
  have hoff := h.off
  have hloop := h.loop p c i hp
  have hsize := h.size
  have hM : MAXWRITE < 2 ^ 32 := by decide
  set n1 := min (c.n - i) MAXWRITE with hn1
  have hnat : (BitVec.ofNat 32 n1).toNat = n1 := by
    rw [BitVec.toNat_ofNat, Nat.mod_eq_of_lt (by omega)]
  have hfull : wp (Fs.writei (c.src i) e s.off (BitVec.ofNat 32 n1))
      (fun r t => r = BitVec.ofNat 32 n1 ∧ FsInv t none ∧ t.Room e hi ∧
        Fs.Written (c.src i) (fun k => c.mem (i + k)) e s.off.toNat (BitVec.ofNat 32 n1).toNat
          (BitVec.ofNat 32 n1).toNat s.fs t)
      (fun _ _ => False) s.fs :=
    Fs.wp_writei_full h.fs h.live (by omega) (by omega) (by omega)
      (fun a m ham => c.valid i a m (by omega)) h.room
  rw [hnat] at hfull
  unfold SharedFile.writeChunk
  rw [wp_bind]
  exact wp_of_ok (Fs.ilock_live h.live) hfull

theorem chunk (h : Inv e hi s₀ s) (hmax : hi ≤ MAXFILE * BSIZE) (hle : s₀.off.toNat + s.asked ≤ hi)
    {p : P} {c : Call} {i : ℕ} (hp : s.pc p = .loop c i) (hi' : i < c.n) :
    Inv e hi s₀ (s.chunk e p c i) := by
  have hwp := h.writeChunk hmax hle hp
  have hloop := h.loop p c i hp
  have hrest := rest_le_sum s.pc p
  rw [hp] at hrest
  have hoff := h.off
  have hasked := h.asked
  have hsize := h.size
  have hM : MAXWRITE = 3072 := rfl
  have hF : MAXFILE * BSIZE < 2 ^ 31 := by decide
  set n1 := min (c.n - i) MAXWRITE with hn1
  have hpos : 0 < n1 := by omega
  have hn1rest : n1 ≤ (Pc.loop c i).rest := by
    show n1 ≤ c.n - i
    omega
  obtain ⟨r, t, hrun, rfl, hinv, hroom, hw⟩ := wp_returns hwp fun _ _ hf => hf
  have hnat : (BitVec.ofNat 32 n1).toNat = n1 := by
    rw [BitVec.toNat_ofNat, Nat.mod_eq_of_lt (by omega)]
  have hint : 0 < (BitVec.ofNat 32 n1).toInt := by
    rw [BitVec.toInt_eq_toNat_of_lt (by omega), hnat]
    omega
  have hoff' : (s.off + BitVec.ofNat 32 n1).toNat = s.off.toNat + n1 := by
    rw [BitVec.toNat_add, hnat, Nat.mod_eq_of_lt (by omega)]
  obtain ⟨a, hself⟩ := hw.self
  rw [Sys.chunk_eq hn1 hint hrun]
  have hwritten : (s.chunks ++ [(p, c.bytes i n1)]).flatMap Prod.snd = s.written ++ c.bytes i n1 := by
    simp [Sys.written]
  refine ⟨h.stop, hinv, ?_, ?_, hroom, ?_, ?_, fun k b hk => ?_, ?_, fun ch hch => ?_, fun q => ?_,
    fun q c' i' hq => ?_, fun q c' i' hq => ?_⟩
  · show 0 < (t.inode e).ref ∧ (t.inode e).valid = true
    rw [hself]
    exact h.live
  · show (t.inode e).inum = _
    rw [hself]
    exact h.inum
  · show (s.off + _).toNat = _ + (List.flatMap _ _).length
    rw [hwritten, hoff', length_append, Call.length_bytes]
    omega
  · show (t.inode e).size.toNat = max _ (s.off + _).toNat
    rw [hself, hoff']
    rw [BitVec.toNat_ofNat, Nat.mod_eq_of_lt (by omega)]
    omega
  · show t.byte none _ _ = b
    have hk' : (s.written ++ c.bytes i n1)[k]? = some b := by
      rwa [← hwritten]
    rcases lt_or_ge k s.written.length with hlt | hge
    · -- an earlier chunk
      rw [getElem?_append_left hlt] at hk'
      rw [hw.bytes _ _ fun _ => .inl (by omega)]
      exact h.bytes k b hk'
    · rw [getElem?_append_right hge] at hk'
      obtain ⟨hkn, rfl⟩ := Call.getElem?_bytes hk'
      rw [← h.inum, hw.written (c.reads i) _ (by omega) (by omega)]
      exact congrArg c.mem (by omega)
  · show s.asked = (List.flatMap _ _).length + ∑ q, (update s.pc p _ q).rest
    have hsum := sum_rest_update s.pc p (.loop c (i + n1))
    rw [hp] at hsum
    have h1 : (Pc.loop c i).rest = c.n - i := rfl
    have h2 : (Pc.loop c (i + n1)).rest = c.n - (i + n1) := rfl
    rw [hwritten, length_append, Call.length_bytes]
    omega
  · rcases mem_append.1 hch with hch | hch
    · exact h.small ch hch
    · rw [mem_singleton.1 hch]
      show (c.bytes i n1).length ≤ MAXWRITE
      rw [Call.length_bytes]
      omega
  · show ((s.chunks ++ _).filter _).flatMap _ = s.finished q ++ (update s.pc p _ q).done
    rw [filter_append, flatMap_append, show (s.chunks.filter _).flatMap _ = _ from h.own q]
    rcases eq_or_ne q p with rfl | hq
    · rw [update_self, hp]
      simp only [Pc.done, append_assoc]
      rw [← Call.bytes_append, Nat.zero_add]
      simp
    · rw [update_of_ne hq]
      simp [hq.symm]
  · rcases pc_cases hq with ⟨-, heq⟩ | ⟨-, hq⟩
    · cases heq
      omega
    · exact h.loop q c' i' hq
  · rcases pc_cases hq with ⟨-, heq⟩ | ⟨-, hq⟩
    · cases heq
    · exact h.out q c' i' hq

end Inv

omit [Fintype P] in
@[simp] theorem chunk_asked (p : P) (c : Call) (i : ℕ) : (s.chunk e p c i).asked = s.asked := by
  unfold Sys.chunk
  dsimp only
  split <;> rfl

omit [Fintype P] in
theorem Step.asked_le {t : Sys P} {a : Ev P} (hst : Step e s a t) : s.asked ≤ t.asked := by
  cases hst with
  | call p c hp => exact Nat.le_add_right _ _
  | chunk p c i hp hi => exact (chunk_asked p c i).ge
  | leave p c i hp hi => exact le_rfl
  | ret p c i hp => exact le_rfl

/-- Every step keeps the invariant, as long as there is room for what was asked for. -/
theorem Step.inv {t : Sys P} {a : Ev P} (hst : Step e s a t) (hmax : hi ≤ MAXFILE * BSIZE)
    (hle : s₀.off.toNat + t.asked ≤ hi) (h : Inv e hi s₀ s) : Inv e hi s₀ t := by
  cases hst with
  | call p c hp =>
    refine h.goto p (.loop c 0) rfl rfl rfl rfl rfl ?_ (fun _ _ => rfl) ?_ ?_ ?_
    · rw [hp]
      rfl
    · rw [hp]
      rfl
    · rintro c' i heq
      cases heq
      exact Nat.zero_le _
    · rintro c' i heq
      cases heq
  | chunk p c i hp hi' =>
    have hasked := (Step.chunk (e := e) s p c i hp hi').asked_le
    exact h.chunk hmax (by omega) hp hi'
  | leave p c i hp hi' =>
    have hloop := h.loop p c i hp
    refine h.goto p (.out c i) rfl rfl rfl rfl rfl ?_ (fun _ _ => rfl) ?_ ?_ ?_
    · rw [hp]
      show s.asked + (c.n - i) = s.asked + 0
      omega
    · rw [hp]
      rfl
    · rintro c' i' heq
      cases heq
    · rintro c' i' heq
      cases heq
      omega
  | ret p c i hp =>
    have hout := h.out p c i hp
    subst hout
    refine h.goto p .idle rfl rfl rfl rfl rfl ?_ (fun q hq => update_of_ne hq _ _) ?_ ?_ ?_
    · rw [hp]
      rfl
    · rw [hp]
      show update s.finished p _ p ++ [] = _
      rw [update_self, append_nil]
      rfl
    · rintro c' i' heq
      cases heq
    · rintro c' i' heq
      cases heq

theorem Run.inv (h : Run e s₀ s) (hopen : Opened e s₀)
    (hoff : s₀.off.toNat ≤ (s₀.fs.inode e).size.toNat) (hmax : hi ≤ MAXFILE * BSIZE)
    (hroom : s₀.fs.Room e hi) (hle : s₀.off.toNat + s.asked ≤ hi) : Inv e hi s₀ s := by
  induction h with
  | start => exact inv_opened hopen hoff hroom
  | step _ _ hst ih =>
    have := hst.asked_le
    exact hst.inv hmax hle (ih (by omega))

/-- **Writes through a shared descriptor are never lost.** Any number of processes call `filewrite` with
valid buffers on an open file whose offset is within the file, and there are room on the disk and in the
file for all that is asked for. Then nothing panics, every call returns its length, `f->off` has grown by
what was written, which is all that was asked for when no call is under way, and the file from the first
offset on is the concatenation of the chunks in the order of the lock; chunks have at most `MAXWRITE`
bytes, and those of a process are, in order, the bytes of its calls. -/
theorem run_concatenated (h : Run e s₀ s) (hopen : Opened e s₀)
    (hoff : s₀.off.toNat ≤ (s₀.fs.inode e).size.toNat)
    (hmax : s₀.off.toNat + s.asked ≤ MAXFILE * BSIZE)
    (hroom : s₀.fs.Room e (s₀.off.toNat + s.asked)) :
    s.stop = none ∧
    (∀ p c r t, Step e s (.ret p c r) t → r = c.n) ∧
    s.off.toNat = s₀.off.toNat + s.written.length ∧
    ((∀ p, s.pc p = .idle) → s.off.toNat = s₀.off.toNat + s.asked) ∧
    s.off.toNat ≤ (s.fs.inode e).size.toNat ∧
    (∀ k b, s.written[k]? = some b → s.fs.byte none (s₀.fs.inode e).inum (s₀.off.toNat + k) = b) ∧
    (∀ ch ∈ s.chunks, ch.2.length ≤ MAXWRITE) ∧
    (∀ p, s.writtenBy p = s.finished p ++ (s.pc p).done) := by
  have hs := h.inv hopen hoff hmax hroom le_rfl
  refine ⟨hs.stop, fun p c r t hst => ?_, hs.off, fun hidle => ?_, ?_, hs.bytes, hs.small, hs.own⟩
  · cases hst with
    | ret _ _ i hp => rw [if_pos (hs.out p c i hp)]
  · have hasked := hs.asked
    have hoff := hs.off
    simp only [hidle, Pc.rest, Finset.sum_const_zero] at hasked
    omega
  · rw [hs.size]
    exact le_max_right _ _

/-- A call that writes one byte. -/
def oneByte : Call where
  n := 1
  mem _ := 7
  src _ := ⟨fun _ m => (List.replicate m 7, true), fun _ _ => by simp, fun _ _ _ => by simp⟩
  lt := by decide
  reads i a m j b h := (mem_replicate.1 (mem_of_getElem? h)).2
  valid _ _ _ _ := rfl

/-- An inode is allocated and read. -/
def fileOp : List InodeOp := [.ialloc 2, .setAttr 0 0 0 1]

/-- A disk with one file, which is open and empty. -/
def oneFile : Fs := (runs InodeOp.exec fileOp emptyFs).state

/-- The processes before their first call. -/
def opened (off : BitVec 32) : Sys (Fin 2) := ⟨oneFile, off, fun _ => .idle, [], fun _ => [], 0, none⟩

/-- A process is in the loop of a call. -/
def asking (p : Fin 2) (off : BitVec 32) : Sys (Fin 2) :=
  { (opened off).goto p (.loop oneByte 0) with asked := (opened off).asked + oneByte.n }

theorem oneFile_facts : (oneFile.inode 0).ref = 1 ∧ (oneFile.inode 0).valid = true ∧
    (oneFile.inode 0).size = 0 ∧ (oneFile.missing 0 2).card ≤ oneFile.freeBlocks.card ∧
    (runs InodeOp.exec fileOp emptyFs).stopped = none ∧
    alongB (fun s op => op.held s) InodeOp.exec fileOp emptyFs = true ∧
    ((asking 0 0).chunk 0 0 oneByte 0).written = [7] := by
  decide +kernel

theorem oneFile_inv : FsInv oneFile none := by
  obtain ⟨-, -, -, -, hok, hheld, -⟩ := oneFile_facts
  exact inv_of_runs emptyFs_inv hok hheld

theorem opened_opened (off : BitVec 32) : Opened 0 (opened off) :=
  ⟨oneFile_inv, ⟨by rw [show ((opened off).fs.inode 0).ref = 1 from oneFile_facts.1]; decide,
    oneFile_facts.2.1⟩, fun _ => rfl, rfl, fun _ => rfl, rfl, rfl⟩

theorem run_asking (off : BitVec 32) : Run 0 (opened off) ((asking 0 off).chunk 0 0 oneByte 0) :=
  Run.start
    |>.step rfl (.call _ 0 oneByte rfl)
    |>.step rfl (.chunk _ 0 oneByte 0 rfl (by decide))

/-- A process writes one byte. -/
theorem run_concatenated_oneByte : ∃ s : Sys (Fin 2), Run 0 (opened 0) s ∧ s.written = [7] ∧
    s.off.toNat = (opened 0).off.toNat + s.written.length := by
  refine ⟨_, run_asking 0, oneFile_facts.2.2.2.2.2.2,
    (run_concatenated (run_asking 0) (opened_opened 0) ?_ ?_ ?_).2.2.1⟩
  · exact Nat.zero_le _
  · rw [chunk_asked]
    decide
  · rw [chunk_asked]
    exact Fs.Room.mono oneFile_facts.2.2.2.1 (by decide)

omit [Fintype P] in
/-- With an offset beyond the end of the file `writei` writes nothing, and the loop is left. -/
theorem chunk_beyond (hlive : s.fs.Live e) (h : (s.fs.inode e).size < s.off) (p : P) (c : Call) (i : ℕ) :
    s.chunk e p c i = { s.goto p (.out c i) with
      chunks := s.chunks ++ [(p, c.bytes i (min (c.n - i) MAXWRITE))] } := by
  have hrun : writeChunk c i (min (c.n - i) MAXWRITE) e s.off s.fs = .ok (-1) s.fs := by
    have hwp : wp (writeChunk c i (min (c.n - i) MAXWRITE) e s.off) (fun r t => r = -1 ∧ t = s.fs)
        (fun _ _ => False) s.fs := by
      unfold writeChunk
      rw [wp_bind]
      refine wp_of_ok (Fs.ilock_live hlive) ?_
      unfold Fs.writei
      rw [wp_bind, wp_get]
      rw [if_pos (.inl h)]
      exact ⟨rfl, rfl⟩
    obtain ⟨r, t, hw, rfl, rfl⟩ := wp_returns hwp fun _ _ hf => hf
    exact hw
  have hneg : ¬ 0 < (-1 : BitVec 32).toInt := by decide
  have hne : (-1 : BitVec 32) ≠ BitVec.ofNat 32 (min (c.n - i) MAXWRITE) := by
    intro heq
    have hnat := congrArg BitVec.toNat heq
    have hM : MAXWRITE = 3072 := rfl
    rw [BitVec.toNat_ofNat, Nat.mod_eq_of_lt (by omega)] at hnat
    have : (-1 : BitVec 32).toNat = 2 ^ 32 - 1 := by decide
    omega
  simp only [Sys.chunk, hrun, if_pos hne, if_neg hneg]
  rfl

/-- **An offset beyond the end of the file**, which another descriptor has truncated: there is room, and
the write of one byte fails. -/
theorem exists_short_write : ∃ s t : Sys (Fin 2), Opened 0 (opened 1) ∧ Run 0 (opened 1) s ∧
    (opened 1).off.toNat + s.asked ≤ MAXFILE * BSIZE ∧ (opened 1).fs.Room 0
    ((opened 1).off.toNat + s.asked) ∧
    Step 0 s (.ret 0 oneByte (-1)) t ∧ oneByte.n = 1 := by
  have hrun := run_asking 1
  rw [chunk_beyond (s := asking 0 1) (opened_opened 1).live ?_] at hrun
  · exact ⟨_, _, opened_opened 1, hrun, by decide, oneFile_facts.2.2.2.1, .ret _ 0 oneByte 0 rfl, rfl⟩
  · show (oneFile.inode 0).size < 1
    rw [oneFile_facts.2.2.1]
    decide

end SharedFile

end Xv6
