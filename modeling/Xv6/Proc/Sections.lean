import Xv6.Fs.Budget
import Xv6.Proc.Read

/-!
# The transactions of `filewrite` (`file.c`)

`filewrite` on an inode writes `MAXWRITE` bytes at most between `begin_op` and `end_op`, so that a
transaction logs no more than `MAXOPBLOCKS` different blocks.  The bound is met whatever the geometry of
the disk is: every block that is allocated may have its bit in another bitmap block.

* `Kernel.writeSection`: what `filewrite` does in one transaction;
* `Kernel.writeLoop_succ`: the loop of `filewrite` is made of them;
* `Kernel.Section`: the transactions of a call;
* `Kernel.section_logs_maxop`: what each of them logs.
-/

namespace Xv6

open Stateful

/-- `ilock` logs nothing. -/
theorem Fs.wp_ilock_logged {s : Fs} {e : Fin NINODE} :
    wp (Fs.ilock e) (fun _ t => t.logged = s.logged) (fun _ _ => True) s := by
  unfold Fs.ilock
  rw [wp_bind, wp_get]
  dsimp only
  split_ifs with href hvalid
  · trivial
  · rw [wp_bind, wp_read, wp_bind, wp_modify]
    split_ifs
    · trivial
    · exact rfl
  · exact rfl

namespace Kernel

variable {s t u v : Kernel} {p : Fin NPROC} {f : Fin NFILE} {addr n : ℕ}

/-- One turn of the loop of `filewrite`, from `begin_op` to `end_op`: write `n1` bytes. -/
def writeSection (p : Fin NPROC) (f : Fin NFILE) (addr n1 : ℕ) : Prog Kernel (BitVec 32) := do
  let e ← lockFile f
  let s ← Prog.get
  let r ← onFs (Fs.writei (userSource s.mem (s.proc p).pagetable addr) e (s.file f).off
    (BitVec.ofNat 32 n1))
  if 0 < r.toInt then
    Prog.modify fun s => s.updFile f fun fl => { fl with off := fl.off + r }
  return r

/-- **The loop of `filewrite`** runs one transaction after the other. -/
theorem writeLoop_succ (p : Fin NPROC) (f : Fin NFILE) (addr n fuel i : ℕ) :
    writeLoop p f addr n (fuel + 1) i =
      if i < n then do
        let r ← writeSection p f (add64 addr i) (min (n - i) MAXWRITE)
        if r ≠ BitVec.ofNat 32 (min (n - i) MAXWRITE) then
          return false
        writeLoop p f addr n fuel (i + min (n - i) MAXWRITE)
      else
        return i = n := by
  rw [writeLoop]
  split_ifs with hlt
  swap
  · rfl
  unfold writeSection
  simp only [Prog.bind_assoc]
  refine congrArg _ (funext fun e => congrArg _ (funext fun s => congrArg _ (funext fun r => ?_)))
  by_cases hpos : 0 < r.toInt
  · simp only [if_pos hpos, Prog.bind_assoc]
    rfl
  · simp only [if_neg hpos]
    rfl

/-- The transactions of `filewrite` from byte `i` on: one of them starts in `u` and ends in `v`. -/
inductive Section (p : Fin NPROC) (f : Fin NFILE) (addr n : ℕ) : ℕ → Kernel → Kernel → Kernel → Prop
  | here {i : ℕ} {s t : Kernel} {r : BitVec 32} (hi : i < n)
      (h : writeSection p f (add64 addr i) (min (n - i) MAXWRITE) s = .ok r t) :
      Section p f addr n i s s t
  | next {i : ℕ} {s t u v : Kernel} (hi : i < n)
      (h : writeSection p f (add64 addr i) (min (n - i) MAXWRITE) s =
        .ok (BitVec.ofNat 32 (min (n - i) MAXWRITE)) t)
      (h' : Section p f addr n (i + min (n - i) MAXWRITE) t u v) : Section p f addr n i s u v

/-- A range of `MAXWRITE` bytes touches four blocks, and three if it starts with a block. -/
theorem maxwrite_budget (off : ℕ) {m : ℕ} (h : m ≤ MAXWRITE) :
    ((off + m + (BSIZE - 1)) / BSIZE - off / BSIZE) +
      ((off + m + (BSIZE - 1)) / BSIZE - (off + (BSIZE - 1)) / BSIZE) + 3 ≤ MAXOPBLOCKS := by
  have hB : BSIZE = 1024 := rfl
  have hM : MAXWRITE = 3072 := rfl
  have hO : MAXOPBLOCKS = 10 := rfl
  rw [hB, hO]
  omega

/-- One transaction keeps the file system well formed and logs `MAXOPBLOCKS` blocks at most. -/
theorem wp_writeSection {n1 : ℕ} (hs : FsInv s.fs none) (hn : n1 ≤ MAXWRITE) :
    wp (writeSection p f addr n1)
      (fun _ t => FsInv t.fs none ∧ ∃ L, t.fs.logged = s.fs.logged ++ L ∧ L.toFinset.card ≤ MAXOPBLOCKS)
      (fun _ _ => True) s := by
  unfold writeSection lockFile
  rw [wp_bind, wp_bind, wp_get]
  cases (s.file f).ip with
  | none => trivial
  | some e =>
    dsimp only
    unfold onFs
    rw [wp_bind, wp_zoom]
    refine wp_mono (wp_and (Fs.wp_ilock hs) Fs.wp_ilock_logged) ?_ (fun _ _ _ => trivial)
    rintro _ g ⟨⟨hg, hlive, -⟩, hlog⟩
    rw [wp_pure, wp_bind, wp_get, wp_bind, wp_zoom]
    refine wp_mono (wp_and (Fs.wp_writei (f := fun _ => 0) hg hlive _ _)
      (Fs.wp_writei_logged hg hlive _ _)) ?_ (fun _ _ _ => trivial)
    rintro r g' ⟨⟨hg', -⟩, L, hL, hcard⟩
    have hn1 : (BitVec.ofNat 32 n1).toNat ≤ MAXWRITE := by
      rw [BitVec.toNat_ofNat]
      exact (Nat.mod_le _ _).trans hn
    have hbound : L.toFinset.card ≤ MAXOPBLOCKS := hcard.trans (maxwrite_budget _ hn1)
    have hlogged : g'.logged = s.fs.logged ++ L := by rw [hL, hlog]
    split_ifs
    · rw [wp_bind, wp_modify]
      exact ⟨hg', L, hlogged, hbound⟩
    · exact ⟨hg', L, hlogged, hbound⟩

/-- **Every transaction of `filewrite` on an inode logs `MAXOPBLOCKS` different blocks at most**, for every
geometry of the disk, every offset and every length. -/
theorem section_logs_maxop (hs : FsInv s.fs none) {i : ℕ} (h : Section p f addr n i s u v) :
    ∃ L, v.fs.logged = u.fs.logged ++ L ∧ L.toFinset.card ≤ MAXOPBLOCKS := by
  induction h with
  | here hi h => exact (wp_ok (wp_writeSection hs (min_le_right _ _)) h).2
  | next hi h h' ih => exact ih (wp_ok (wp_writeSection hs (min_le_right _ _)) h).1

theorem writeSection_reader : (writeSection 0 0 0 100 reader).value = some 100 := by
  decide +kernel

/-- A process overwrites the first 100 bytes of its file. -/
theorem section_logs_maxop_reader : ∃ v, Section 0 0 0 100 0 reader reader v ∧
    ∃ L, v.fs.logged = reader.fs.logged ++ L ∧ L.toFinset.card ≤ MAXOPBLOCKS := by
  have h : Section 0 0 0 100 0 reader reader _ := .here (by decide) (Res.eq_ok_of_value writeSection_reader)
  exact ⟨_, h, section_logs_maxop grownFs_inv h⟩

end Kernel

end Xv6
