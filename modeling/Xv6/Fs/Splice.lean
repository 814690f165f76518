import Xv6.Fs.Budget
import Xv6.Fs.Owner
import Xv6.Fs.Reads

/-!
# A file is an array of bytes

An inode stands for the bytes of its file up to its size (`Fs.bytes`).  `readi` to kernel memory returns a
slice of them, and `writei` from kernel memory puts bytes in, cut short only when the disk is full; the
bytes of the other inodes are as before.  A write of too many blocks for the log brings the kernel down.

* `splice`: bytes put into a list at an offset, which may make it longer;
* `Fs.wp_writeiLoop_whole`: the loop of `writei` changes what it reports, and stops early with a full disk;
* `Fs.Written.bytes_eq`: the bytes after `writei`;
* `Fs.file_refines_bytes`: both calls on the bytes of a file;
* `writei_too_big`: a write of 27 blocks in one transaction.
-/

namespace Xv6

open Stateful Function List

/-- Put bytes into a list at an offset. -/
def splice {α : Type*} (cs : List α) (off : ℕ) (bs : List α) : List α :=
  cs.take off ++ bs ++ cs.drop (off + bs.length)

section Splice

variable {α : Type*} {cs bs : List α} {off : ℕ}

theorem getElem?_splice (h : off ≤ cs.length) (k : ℕ) :
    (splice cs off bs)[k]? = if off ≤ k ∧ k < off + bs.length then bs[k - off]? else cs[k]? := by
  have htake : (cs.take off).length = off := by
    rw [length_take]
    omega
  unfold splice
  rw [append_assoc, getElem?_append, getElem?_append, htake, getElem?_take,
    getElem?_drop]
  split_ifs with h1 h2 h3 h4
  · omega
  · rfl
  · rfl
  · omega
  · omega
  · congr 1
    omega

end Splice

/-- A kernel buffer, as a source of `writei`. -/
def Source.kernel (src : ℕ → Byte) : Source where
  copyin tot m := ((List.range m).map fun j => src (tot + j), true)
  length_le tot m := by simp
  length_eq tot m _ := by simp

theorem Source.reads_kernel (src : ℕ → Byte) : (Source.kernel src).Reads src := by
  intro tot m j b h
  have hj : ((List.range m).map fun j => src (tot + j))[j]? = some b := h
  rw [getElem?_map] at hj
  obtain ⟨i, hi, rfl⟩ := Option.map_eq_some_iff.1 hj
  rw [List.getElem?_eq_some_iff] at hi
  obtain ⟨hlt, rfl⟩ := hi
  rw [getElem_range]

/-- The copies of `writei` for `n` bytes at offset `off` deliver nothing when they fail. -/
def Source.Whole (src : Source) (off n : ℕ) : Prop :=
  ∀ tot m, m = min (n - tot) (BSIZE - (off + tot) % BSIZE) → (src.copyin tot m).2 = false →
    (src.copyin tot m).1 = []

theorem Source.whole_kernel (src : ℕ → Byte) (off n : ℕ) : (Source.kernel src).Whole off n :=
  fun _ _ _ h => by cases h

namespace Fs

variable {s t u : Fs} {e : Fin NINODE} {k : Slot} {x : ℕ} {src : Source} {f : ℕ → Byte} {n tot off : ℕ}

/-! ### A full disk -/

/-- Every block is in use. -/
def Full (s : Fs) : Prop := ∀ y < s.sb.size, s.vol.used y = true

/-- With a full disk `balloc` fails. -/
theorem Full.balloc (h : s.Full) (hs : FsInv s none) : balloc s = .ok 0 s := by
  have hmeta : ∀ x < s.sb.dataStart, s.vol.used x = true :=
    fun _ hx => hs.owns.used_of_lt hx (Nat.sub_le _ _)
  obtain ⟨x, t, hrun, ⟨rfl, rfl, -⟩ | ⟨-, hlt, hfree, -⟩⟩ := wp_returns (wp_balloc hmeta) fun _ _ hf => hf
  · exact hrun
  · rw [h x hlt] at hfree
    cases hfree

theorem Found.isFull (hs : FsInv s (some e)) (h : Found e k s 0 t) : t.Full := by
  cases h with
  | there hk hx => exact absurd rfl hx
  | full hk hfull => exact hfull
  | fresh hk h1 h2 hu h =>
    have := hs.sb.dataStart_pos
    omega

/-- `bmap` finds no block on a full disk only. -/
theorem Reached.isFull (hs : FsInv s (some e)) (h : Reached e k s 0 t) : t.Full := by
  cases h with
  | direct h => exact h.isFull hs
  | noIndirect h => exact h.isFull hs
  | entry h hi h' => exact h'.isFull (h.mapped hs).1

/-- The end of `writei` allocates nothing. -/
theorem Full.update {sz : ℕ} (ht : FsInv (t.setSize e sz) (some e)) (he : t.Live e) (h : t.Full) :
    ((t.setSize e sz).update e).Full := by
  have href : 0 < ((t.setSize e sz).inode e).ref := by
    rw [setSize_self]
    exact he.1
  intro y hy
  rw [vol_update ht.sb (ht.inum e href).2]
  exact h y hy

/-! ### The bytes after a write -/

/-- The loop of `writei` changes the bytes that it reports and no others, when a copy that fails delivers
nothing; it stops early for a full disk or a failing copy. -/
theorem wp_writeiLoop_whole (hs : FsInv s (some e)) (he : s.Live e) {fuel : ℕ} (hfuel : n ≤ fuel)
    (hmax : off + n ≤ MAXFILE * BSIZE) (hsrc : src.Whole off n) :
    wp (writeiLoop src e n fuel 0 off)
      (fun r t => Wrote e off (off + r.1) s t ∧ (r.1 < n → t.Full ∨ ∃ a m, (src.copyin a m).2 = false))
      (fun _ _ => False) s := by
  refine wp_writeiLoop_rule
    (I := fun tot off' t => off' = off + tot ∧ Wrote e off (off + tot) s t)
    (Q := fun tot t => Wrote e off (off + tot) s t ∧
      (tot < n → t.Full ∨ ∃ a m, (src.copyin a m).2 = false))
    ?_ ?_ ?_ ?_ hs he (Nat.zero_le _) (by omega) (by omega) ⟨rfl, (Grow.refl e s).wrote _ _⟩
  · rintro off' t ⟨-, hw⟩
    exact ⟨hw, fun hlt => absurd hlt (lt_irrefl n)⟩
  · rintro tot off' m k s' t h ⟨-, hw⟩
    exact ⟨hw.trans (h.mapped.2.1.wrote _ _), fun _ => Or.inl (h.reached.isFull h.inv)⟩
  · rintro tot off' m k x s' t h hx hfail ⟨rfl, hw⟩
    have hnil := hsrc tot m h.m_eq hfail
    obtain ⟨-, hleft⟩ := h.left src hx
    rw [hnil, length_nil, Nat.add_zero] at hleft
    rw [hnil]
    refine ⟨?_, fun _ => Or.inr ⟨tot, m, hfail⟩⟩
    exact (hw.trans (h.mapped.2.1.wrote _ _)).trans (hleft.mono (by omega) le_rfl)
  · rintro tot off' m k x s' t h hx - ⟨rfl, hw⟩
    refine ⟨by omega, ?_⟩
    have hround := (h.mapped.2.1.wrote _ _).trans (h.logged src hx).2
    exact (hw.mono le_rfl (by omega)).trans (hround.mono (by omega) (by omega))

theorem Written.size_eq (h : Written src f e off n tot s t)
    (hmax : (s.inode e).size.toNat ≤ MAXFILE * BSIZE)
    (hend : off + n ≤ MAXFILE * BSIZE) :
    (t.vol.dinode (s.inode e).inum).size.toNat = max (s.inode e).size.toNat (off + tot) := by
  have hM : MAXFILE * BSIZE < 2 ^ 32 := by decide
  have hle := h.le
  obtain ⟨a, ha⟩ := h.self
  rw [h.dinode, update_self, ha]
  exact Dinode.toNat_ofNat32 (by omega)

/-- **The bytes of the file after a write**: `tot` bytes of the source are put in. -/
theorem Written.bytes_eq (hs : FsInv s none) (he : s.Live e) (h : Written src f e off n tot s t)
    (hsrc : src.Reads f) (hoff : off ≤ (s.inode e).size.toNat) (hend : off + n ≤ MAXFILE * BSIZE)
    (hrest : ∀ k, off + tot ≤ k → k < (s.inode e).size.toNat →
      t.byte none (s.inode e).inum k = s.byte none (s.inode e).inum k) :
    t.bytes (s.inode e).inum = splice (s.bytes (s.inode e).inum) off ((List.range tot).map f) := by
  have hmax := (hs.lock he).size_le he
  have hsize := h.size_eq hmax hend
  have hlen := hs.length_bytes he
  have hbl : ((List.range tot).map f).length = tot := by simp
  refine ext_getElem? fun k => ?_
  rw [getElem?_bytes, getElem?_splice (by rwa [hlen]), getElem?_bytes, hsize, hs.size_eq he, hbl]
  by_cases hin : off ≤ k ∧ k < off + tot
  · rw [if_pos hin, if_pos (by omega), h.written hsrc k hin.1 hin.2, getElem?_map,
      getElem?_range (by omega)]
    rfl
  · rw [if_neg hin]
    by_cases hk : k < (s.inode e).size.toNat
    · rw [if_pos hk, if_pos (by omega)]
      by_cases hlt : k < off
      · rw [h.bytes _ k fun _ => Or.inl hlt]
      · rw [hrest k (by omega) hk]
    · rw [if_neg hk, if_neg (by omega)]

theorem Written.bytes_other (h : Written src f e off n tot s t) {i : ℕ} (hi : i ≠ (s.inode e).inum) :
    t.bytes i = s.bytes i := by
  have hdin : t.vol.dinode i = s.vol.dinode i := by
    rw [h.dinode, update_of_ne hi]
  unfold Fs.bytes
  rw [hdin]
  refine map_congr_left fun k _ => ?_
  exact h.bytes i k fun heq => absurd heq hi

/-- **`writei` from a source whose copies fail as a whole** puts in the bytes that it reports. -/
theorem wp_writei_whole (hs : FsInv s none) (he : s.Live e) {off n : BitVec 32}
    (hsrc : src.Whole off.toNat n.toNat) (hf : src.Reads f) :
    wp (writei src e off n)
      (fun r t => FsInv t none ∧ ((s.BadRange e off n ∧ r = -1 ∧ t = s) ∨
        (¬ s.BadRange e off n ∧ ∃ tot, (tot < n.toNat → t.Full ∨ ∃ a m, (src.copyin a m).2 = false) ∧
          r = BitVec.ofNat 32 tot ∧ Written src f e off.toNat n.toNat tot s t ∧
          t.bytes (s.inode e).inum =
            splice (s.bytes (s.inode e).inum) off.toNat ((List.range tot).map f))))
      (fun _ _ => False) s := by
  have hloop : ¬ s.BadRange e off n → wp (writeiLoop src e n.toNat n.toNat 0 off.toNat)
      (fun r t => Wrote e off.toNat (off.toNat + r.1) s t ∧
        (r.1 < n.toNat → t.Full ∨ ∃ a m, (src.copyin a m).2 = false)) (fun _ _ => True) s := by
    intro hgood
    obtain ⟨-, hmax⟩ := BadRange.of_not hgood
    exact wp_mono (wp_writeiLoop_whole (hs.lock he) he le_rfl hmax hsrc) (fun _ _ h => h)
      (fun _ _ _ => trivial)
  refine wp_post (wp_writei_loop (f := f) hs he off n
    (P := fun tot t => Wrote e off.toNat (off.toNat + tot) s t ∧
      (tot < n.toNat → t.Full ∨ ∃ a m, (src.copyin a m).2 = false)) hloop) ?_
  rintro r t ⟨hinv, hbad | ⟨hgood, tot, t₀, ⟨hwrote, hshort⟩, ht, rfl, rfl, hw⟩⟩
  · exact ⟨hinv, Or.inl hbad⟩
  obtain ⟨hoff, hmax⟩ := BadRange.of_not hgood
  have hset := ht.setSize_inv hs he hoff hmax rfl
  have hlive := (ht.wrote.live e).2 he
  refine ⟨hinv, Or.inr ⟨hgood, tot, fun hlt => (hshort hlt).imp_left (Full.update hset hlive), rfl, hw, ?_⟩⟩
  refine hw.bytes_eq hs he hf hoff hmax fun k h1 _ => ?_
  rw [byte_finish hset hlive, hwrote.bytes _ _ fun _ => Or.inr h1, byte_congr (hs.lock_slots he) rfl]

/-- `readi` to kernel memory. -/
theorem readi_kernel (hs : FsInv s none) (he : s.Live e) (off n : BitVec 32) :
    readi memmove [] e off n s =
      if off > (s.inode e).size ∨ off + n < off then .ok ([], 0) s
      else .ok (((s.bytes (s.inode e).inum).drop off.toNat).take
          (min (off.toNat + n.toNat) (s.inode e).size.toNat - off.toNat),
        BitVec.ofNat 32 (min (off.toNat + n.toNat) (s.inode e).size.toNat - off.toNat)) s := by
  obtain ⟨dst, hrun, rfl⟩ := readi_takes (hs.starts he) (hs.length_bytes he) (a := [])
    (takes_memmove (s.bytes (s.inode e).inum) off.toNat (readCount (s.inode e).size off n)) rfl
  rw [hrun]
  unfold readCount
  split_ifs with hbad
  · rfl
  · have hcount : min n.toNat ((s.inode e).size.toNat - off.toNat) =
        min (off.toNat + n.toNat) (s.inode e).size.toNat - off.toNat := by omega
    rw [hcount]

/-- The most blocks that `writei` logs: those of the range, a bitmap block for each that begins in it, and
three more. -/
def writeBlocks (off n : ℕ) : ℕ :=
  ((off + n + (BSIZE - 1)) / BSIZE - off / BSIZE) +
    ((off + n + (BSIZE - 1)) / BSIZE - (off + (BSIZE - 1)) / BSIZE) + 3

/-- **A file refines an array of bytes.**  `readi` to kernel memory returns the bytes from the offset on,
to the end of the request or of the file.  `writei` from kernel memory refuses a range that is not at most
the end of the file or does not fit.  Otherwise it puts in a part of the bytes, all of them unless `balloc`
fails, with the other files as before; or it panics because the transaction gets too big for the log, which
does not happen if the blocks it may log fit. -/
theorem file_refines_bytes (hs : FsInv s none) (he : s.Live e) (src : ℕ → Byte) (off n : BitVec 32) :
    (readi memmove [] e off n s =
      if off > (s.inode e).size ∨ off + n < off then .ok ([], 0) s
      else .ok (((s.bytes (s.inode e).inum).drop off.toNat).take
          (min (off.toNat + n.toNat) (s.inode e).size.toNat - off.toNat),
        BitVec.ofNat 32 (min (off.toNat + n.toNat) (s.inode e).size.toNat - off.toNat)) s) ∧
    ((off > (s.inode e).size ∨ off + n < off ∨ (off + n).toNat > MAXFILE * BSIZE) →
      inLog (writei (Source.kernel src) e off n) s = .ok (-1) s) ∧
    (¬ (off > (s.inode e).size ∨ off + n < off ∨ (off + n).toNat > MAXFILE * BSIZE) →
      (∃ tot ≤ n.toNat, ∃ t, inLog (writei (Source.kernel src) e off n) s = .ok (BitVec.ofNat 32 tot) t ∧
        FsInv t none ∧ (tot < n.toNat → balloc t = .ok 0 t) ∧
        t.bytes (s.inode e).inum = splice (s.bytes (s.inode e).inum) off.toNat ((List.range tot).map src) ∧
        (t.inode e).size.toNat = max (s.inode e).size.toNat (off.toNat + tot) ∧
        (t.vol.dinode (s.inode e).inum).size = (t.inode e).size ∧
        ∀ i, i ≠ (s.inode e).inum →
          t.bytes i = s.bytes i ∧ (t.vol.dinode i).size = (s.vol.dinode i).size) ∨
      ∃ t, inLog (writei (Source.kernel src) e off n) s = .stop (.panic "too big a transaction") t ∧
        s.Overflows t ∧ ¬ (s.logged.toFinset.card + writeBlocks off.toNat n.toNat < LOGSIZE ∧
          s.logged.toFinset.card + writeBlocks off.toNat n.toNat + 1 < s.sb.nlog)) := by
  have hwp := wp_writei_whole hs he (Source.whole_kernel src off.toNat n.toNat) (Source.reads_kernel src)
  obtain ⟨r, t, hrun, hinv, hcases⟩ := wp_returns hwp fun _ _ hf => hf
  have hlog : inLog (writei (Source.kernel src) e off n) s =
      if s.Overflows t then .stop (.panic "too big a transaction") t else .ok r t := by
    unfold inLog
    rw [hrun]
    rfl
  refine ⟨readi_kernel hs he off n, fun hbad => ?_, fun hgood => ?_⟩
  · rcases hcases with ⟨-, rfl, rfl⟩ | ⟨hgood, -⟩
    · rw [hlog, if_neg]
      rintro ⟨k, hlt, hle, -⟩
      exact absurd hlt (not_lt.2 hle)
    · exact absurd (or_assoc.2 hbad) hgood
  · rcases hcases with ⟨hbad, -⟩ | ⟨hok, tot, hshort, hr, hw, hbytes⟩
    · exact absurd (or_assoc.1 hbad) hgood
    by_cases hover : s.Overflows t
    · refine Or.inr ⟨t, by rw [hlog, if_pos hover], hover, fun hfit => ?_⟩
      obtain ⟨L, hL, hcard⟩ := wp_ok (wp_writei_logged hs he off n) hrun
      have hle : L.toFinset.card ≤ writeBlocks off.toNat n.toNat := hcard
      exact not_overflows hL (by omega) (by omega) hover
    refine Or.inl ⟨tot, hw.le, t, by rw [hlog, if_neg hover, hr], hinv, fun hlt => ?_, hbytes, ?_⟩
    · rcases hshort hlt with hfull | ⟨a, m, hfail⟩
      · exact hfull.balloc hinv
      · cases hfail
    obtain ⟨-, hend⟩ := BadRange.of_not hok
    have hsize := hw.size_eq ((hs.lock he).size_le he) hend
    have hcopy : (t.vol.dinode (s.inode e).inum).size = (t.inode e).size := by
      rw [hw.dinode, update_self]
    refine ⟨by rw [← hcopy, hsize], hcopy, fun i hi => ⟨hw.bytes_other hi, ?_⟩⟩
    rw [hw.dinode, update_of_ne hi]

end Fs

/-- A file of 1500 bytes is written. -/
def grownOps : List InodeOp := [.ialloc 2, .writei 0 (sourceOf 1500) 0 1500]

/-- A disk with that file, which is open. -/
def grownFs : Fs := (runs InodeOp.exec grownOps emptyFs).state

theorem grownFs_facts : (grownFs.inode 0).ref = 1 ∧ (grownFs.inode 0).valid = true ∧
    (grownFs.inode 0).size = 1500 ∧ (runs InodeOp.exec grownOps emptyFs).stopped = none ∧
    alongB (fun s op => op.held s) InodeOp.exec grownOps emptyFs = true := by
  decide +kernel

theorem grownFs_inv : FsInv grownFs none :=
  inv_of_runs emptyFs_inv grownFs_facts.2.2.2.1 grownFs_facts.2.2.2.2

theorem grownFs_live : grownFs.Live 0 := by
  obtain ⟨href, hvalid, -⟩ := grownFs_facts
  exact ⟨by rw [href]; decide, hvalid⟩

/-- A disk of 80 blocks, with a log of `LOGSIZE` blocks. -/
def loggedFs : Fs := blankFs ⟨80, 45, 16, LOGSIZE, 2, 32, 34⟩ fun k =>
  if k.val < 4 then 255 else if k.val = 4 then 7 else 0

/-- A file is made and read. -/
def openOps : List InodeOp := [.ialloc 2, .readi 0 (fun _ _ => true) 0 1]

/-- That disk with the empty file, at the start of a transaction. -/
def emptyFile : Fs := { (runs InodeOp.exec openOps loggedFs).state with logged := [] }

-- evaluated together: the file, and a write to it
theorem emptyFile_evaluated : (runs InodeOp.exec openOps loggedFs).stopped = none ∧
    alongB (fun s op => op.held s) InodeOp.exec openOps loggedFs = true ∧
    (emptyFile.inode 0).ref = 1 ∧ (emptyFile.inode 0).valid = true ∧ (emptyFile.inode 0).size = 0 ∧
    (Fs.inLog (Fs.writei (Source.kernel fun _ => 9) 0 0 27648) emptyFile).stopped =
      some (.panic "too big a transaction") := by
  decide +kernel

theorem emptyFile_inv : FsInv emptyFile none := by
  have hblank : FsInv loggedFs none :=
    blankFs_inv ⟨by decide, by decide, by decide⟩ (by decide) (by decide +kernel)
  obtain ⟨hok, hheld, -⟩ := emptyFile_evaluated
  have h := inv_of_runs hblank hok hheld
  exact ⟨h.sb, h.owns, h.below, h.clean, h.clean_ind, h.inum, h.uniq, h.copy⟩

theorem emptyFile_live : emptyFile.Live 0 := by
  obtain ⟨-, -, href, hvalid, -⟩ := emptyFile_evaluated
  exact ⟨by rw [href]; decide, hvalid⟩

/-- Two blocks are written to that file. -/
theorem file_refines_bytes_twoBlocks : ∃ tot t,
    Fs.inLog (Fs.writei (Source.kernel fun _ => 9) 0 0 2000) emptyFile = .ok (BitVec.ofNat 32 tot) t ∧
      FsInv t none ∧ t.bytes (emptyFile.inode 0).inum =
        splice (emptyFile.bytes (emptyFile.inode 0).inum) 0 ((List.range tot).map fun _ => 9) := by
  obtain ⟨-, -, -, -, hsize, -⟩ := emptyFile_evaluated
  have hgood : ¬ ((0 : BitVec 32) > (emptyFile.inode 0).size ∨ (0 : BitVec 32) + 2000 < 0 ∨
      ((0 : BitVec 32) + 2000).toNat > MAXFILE * BSIZE) := by
    rw [hsize]
    decide
  obtain ⟨-, -, hwrite⟩ := Fs.file_refines_bytes emptyFile_inv emptyFile_live (fun _ => 9) 0 2000
  rcases hwrite hgood with ⟨tot, -, t, hrun, hinv, -, hbytes, -⟩ | ⟨t, -, -, hfit⟩
  · exact ⟨tot, t, hrun, hinv, hbytes⟩
  · exact absurd (by decide) hfit

/-- **A write of 27 blocks in one transaction brings the kernel down**, although its range is in order. -/
theorem writei_too_big : FsInv emptyFile none ∧ emptyFile.Live 0 ∧ emptyFile.logged = [] ∧
    emptyFile.sb.nlog = LOGSIZE ∧
    ∃ t, Fs.inLog (Fs.writei (Source.kernel fun _ => 9) 0 0 27648) emptyFile =
      .stop (.panic "too big a transaction") t := by
  obtain ⟨-, -, -, -, -, hstop⟩ := emptyFile_evaluated
  exact ⟨emptyFile_inv, emptyFile_live, rfl, rfl, _, Res.eq_stop_of_stopped hstop⟩

end Xv6
