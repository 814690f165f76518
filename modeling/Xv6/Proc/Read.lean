import Xv6.Fs.Splice
import Xv6.Proc.Memory

/-!
# The length of a read (`fileread` of `file.c`)

`n` is an `int` in `sys_read` and `fileread`, and a `uint` in `readi`, where it is added to the offset of
the file.  A length that is not negative is honoured: the user gets the bytes from the offset on, `n` of
them or those up to the end of the file, and `f->off` moves by that number.  A negative length is a very
large one for `readi`; it reads nothing when the sum wraps around, and at offset 0 it does not.

* `Kernel.filereadRet`: `fileread` on an inode with its result;
* `takes_copyout`: a user buffer takes the bytes of a file;
* `Kernel.read_length`: when a read does what its length says;
* `Kernel.negative_read`: a read of -1 bytes.
-/

namespace Xv6

open Stateful List
open Prog (bind_of_ok get_run bind_assoc)

/-- The byte of user memory at an address. -/
def userByte (m : Mem) (pagetable va : ℕ) : Byte :=
  (m.page (walkaddr m pagetable (pgRoundDown va))).byte (va - pgRoundDown va)

/-- A user buffer that may be written takes the bytes of a file. -/
theorem takes_copyout {S : KMap} {q : Tbl} {pt addr n : ℕ} (hr : S.root q = some pt)
    (hbuf : ∀ k < n, Writable S q (addr + k)) (cs : List Byte) (base : ℕ) (hend : base + n ≤ cs.length) :
    Fs.Takes (fun m tot bytes => copyout m pt (add64 addr tot) bytes)
      (fun tot m' => ∃ S', Rep m' S' ∧ Wrote S S' q addr ((cs.drop base).take tot)) cs base n := by
  rintro m' tot k ⟨S', hrep', hw⟩ hle
  have hlen : ((cs.drop (base + tot)).take k).length = k := by
    rw [length_take, length_drop]
    omega
  have hpast : ((cs.drop base).take tot).length = tot := by
    rw [length_take, length_drop]
    omega
  have htake : (cs.drop base).take (tot + k) = (cs.drop base).take tot ++
    (cs.drop (base + tot)).take k := by
    rw [take_add, drop_drop]
  cases k with
  | zero =>
    refine ⟨rfl, S', hrep', ?_⟩
    rwa [Nat.add_zero]
  | succ k =>
    -- the address does not wrap around, because the user may write there
    have hlt : addr + tot < 2 ^ 64 := by
      obtain ⟨x, hx, -⟩ := hbuf tot (by omega)
      have := (userPage_eq_some.1 hx).1
      have hM : MAXVA < 2 ^ 64 := by decide
      omega
    have hwritable : ∀ j < k + 1, Writable S q (addr + tot + j) := by
      intro j hj
      rw [Nat.add_assoc]
      exact hbuf (tot + j) (by omega)
    dsimp only
    rw [add64_eq hlt]
    obtain ⟨hok, S'', j, hrep'', hw', hall⟩ := rep_copyout hrep' (by rwa [hw.root])
      ((cs.drop (base + tot)).take (k + 1)) hlt
    have htrue := hok.2 fun j hj => hw.rewritten.writable (hwritable j (by omega))
    refine ⟨htrue, S'', hrep'', ?_⟩
    rw [hall htrue] at hw'
    rw [htake]
    refine hw.append ?_ fun j hj => ?_
    · rwa [hpast]
    · rw [hpast]
      exact hwritable j (by omega)

namespace Kernel

variable {s t : Kernel} {S : KMap} {p : Fin NPROC} {f : Fin NFILE} {e : Fin NINODE}

/-- `fileread` with its result, on an inode. -/
def filereadRet (p : Fin NPROC) (f : Fin NFILE) (addr : ℕ) (n : BitVec 32) : Prog Kernel (BitVec 32) := do
  let fl := (← Prog.get).file f
  if fl.readable ∧ fl.type = .inode then
    let e ← lockFile f
    let s ← Prog.get
    let pagetable := (s.proc p).pagetable
    let (m, r) ← onFs (Fs.readi (fun m tot bytes => copyout m pagetable (add64 addr tot) bytes) s.mem e
      (s.file f).off n)
    Prog.modify fun s => { s with mem := m }
    if 0 < r.toInt then
      Prog.modify fun s => s.updFile f fun fl => { fl with off := fl.off + r }
    return r
  else
    return -1

/-- `fileread` is that call. -/
theorem fileread_eq (p : Fin NPROC) (f : Fin NFILE) (addr : ℕ) (n : BitVec 32) :
    fileread p f addr n = filereadRet p f addr n >>= fun _ => pure () := by
  unfold fileread filereadRet
  rw [bind_assoc]
  refine congrArg _ (funext fun s => ?_)
  by_cases hread : (s.file f).readable = true ∧ (s.file f).type = .inode
  · simp only [if_pos hread, bind_assoc]
    refine congrArg _ (funext fun e => congrArg _ (funext fun u => congrArg _ (funext fun r =>
      congrArg _ (funext fun _ => ?_))))
    by_cases hpos : 0 < r.2.toInt
    · simp only [if_pos hpos, bind_assoc]
      rfl
    · simp only [if_neg hpos]
      rfl
  · simp only [if_neg hread]
    rfl

/-- A file on an inode that was read is locked as it is. -/
theorem lockFile_live (hip : (s.file f).ip = some e) (he : s.fs.Live e) : lockFile f s = .ok e s := by
  have hlock := Fs.ilock_live he
  unfold lockFile
  rw [bind_of_ok (get_run _), hip]
  dsimp only
  unfold onFs Prog.zoom
  show (Prog.bind _ _) s = _
  unfold Prog.bind
  dsimp only
  rw [hlock]
  rfl

/-- A read of `n` bytes honours its length: `c` bytes are copied, where `c` is the length (0 if it is
negative) or what is left of the file; they are returned, the offset moves by `c`, and the user
memory is written in the first `c` bytes of the buffer only. -/
def Honours (S : KMap) (p : Fin NPROC) (f : Fin NFILE) (e : Fin NINODE) (addr : ℕ) (n : BitVec 32)
    (s : Kernel) : Prop :=
  ∃ t c S', filereadRet p f addr n s = .ok (BitVec.ofNat 32 c) t ∧
    c = min n.toInt.toNat ((s.fs.inode e).size.toNat - (s.file f).off.toNat) ∧
    t.file = (s.updFile f fun fl => { fl with off := fl.off + BitVec.ofNat 32 c }).file ∧
    Rep t.mem S' ∧ Wrote S S' (some p) addr
      (((s.fs.bytes (s.fs.inode e).inum).drop (s.file f).off.toNat).take c)

/-- `readi` stops a negative length only at the end of the file, or when the length is taken off an offset
that is large enough. -/
theorem readCount_eq_min_iff {size off n : BitVec 32} (hsize : size.toNat < 2 ^ 31) :
    Fs.readCount size off n = min n.toInt.toNat (size.toNat - off.toNat) ↔
      0 ≤ n.toInt ∨ size.toNat ≤ off.toNat ∨ -n.toInt ≤ off.toNat := by
  have hoff := off.isLt
  have hn := n.isLt
  have hint := BitVec.toInt_eq_toNat_cond n
  have hsum := BitVec.toNat_add off n
  unfold Fs.readCount
  simp only [gt_iff_lt, BitVec.lt_def]
  split_ifs at hint ⊢ <;> omega

/-- What a call returns is what `readi` returns. -/
theorem filereadRet_readi (hread : (s.file f).readable = true) (htype : (s.file f).type = .inode)
    (hip : (s.file f).ip = some e) (he : s.fs.Live e) {addr : ℕ} {n r : BitVec 32} {m : Mem}
    (hrun : Fs.readi (fun m tot bytes => copyout m (s.proc p).pagetable (add64 addr tot) bytes) s.mem e
      (s.file f).off n s.fs = .ok (m, r) s.fs) :
    filereadRet p f addr n s = .ok r (if 0 < r.toInt then
      { s with mem := m }.updFile f fun fl => { fl with off := fl.off + r } else { s with mem := m }) := by
  have honfs : onFs (Fs.readi (fun m tot bytes => copyout m (s.proc p).pagetable (add64 addr tot) bytes)
      s.mem e (s.file f).off n) s = .ok (m, r) s := by
    unfold onFs Prog.zoom
    rw [hrun]
  unfold filereadRet
  rw [bind_of_ok (get_run s), if_pos ⟨hread, htype⟩, bind_of_ok (lockFile_live hip he),
    bind_of_ok (get_run s), bind_of_ok honfs]
  dsimp only
  rw [bind_of_ok (Prog.modify_run _ _)]
  split_ifs with hr
  · rw [bind_of_ok (Prog.modify_run _ _)]
    rfl
  · rfl

/-- **A read honours its length if and only if** the length is not negative, nothing is left of the file, or
the length taken off the offset is not below 0: then `off + n` wraps around and `readi` returns 0. -/
theorem read_length (hrep : Rep s.mem S) (hroot : S.root (some p) = some (s.proc p).pagetable)
    (hfs : FsInv s.fs none) (hread : (s.file f).readable = true) (htype : (s.file f).type = .inode)
    (hip : (s.file f).ip = some e) (he : s.fs.Live e) {addr : ℕ} {n : BitVec 32}
    (hbuf : ∀ k < n.toInt.toNat, Writable S (some p) (addr + k)) :
    Honours S p f e addr n s ↔ 0 ≤ n.toInt ∨
      (s.fs.inode e).size.toNat ≤ (s.file f).off.toNat ∨ -n.toInt ≤ (s.file f).off.toNat := by
  have hmax := (hfs.lock he).size_le he
  have hM : MAXFILE * BSIZE = 274432 := by decide
  have hlen := hfs.length_bytes he
  have hle := Fs.readCount_le (s.fs.inode e).size (s.file f).off n
  rw [← readCount_eq_min_iff (by omega)]
  constructor
  · rintro ⟨t, c, S', hok, hc, -⟩
    obtain ⟨m, r, hrun, hr⟩ := Fs.readi_all_or_fails (hfs.starts he) hlen
      (fun m tot bytes => copyout m (s.proc p).pagetable (add64 addr tot) bytes) s.mem (s.file f).off n
    rw [filereadRet_readi hread htype hip he hrun] at hok
    rcases hr with rfl | rfl
    · have hval := congrArg BitVec.toNat (Res.ok.inj hok).1
      rw [BitVec.toNat_ofNat, BitVec.toNat_ofNat, Nat.mod_eq_of_lt (by omega),
        Nat.mod_eq_of_lt (by omega)] at hval
      omega
    · have hval := congrArg BitVec.toNat (Res.ok.inj hok).1
      rw [BitVec.toNat_ofNat, Nat.mod_eq_of_lt (by omega)] at hval
      simp at hval
      omega
  · intro hcount
    rw [hcount] at hle
    set c := min n.toInt.toNat ((s.fs.inode e).size.toNat - (s.file f).off.toNat) with hc
    have hpos : (BitVec.ofNat 32 c).toInt = c := by
      rw [BitVec.toInt_eq_toNat_cond, BitVec.toNat_ofNat, Nat.mod_eq_of_lt (by omega), if_pos (by omega)]
    have htakes : Fs.Takes (fun m tot bytes => copyout m (s.proc p).pagetable (add64 addr tot) bytes)
        (fun tot m' => ∃ S', Rep m' S' ∧ Wrote S S' (some p) addr
          (((s.fs.bytes (s.fs.inode e).inum).drop (s.file f).off.toNat).take tot))
        (s.fs.bytes (s.fs.inode e).inum) (s.file f).off.toNat
        (Fs.readCount (s.fs.inode e).size (s.file f).off n) := by
      rw [hcount]
      by_cases h0 : c = 0
      · rw [h0]
        rintro m' tot k hI hle
        obtain rfl : k = 0 := by omega
        exact ⟨rfl, hI⟩
      · exact takes_copyout hroot (fun k hk => hbuf k (by omega)) _ _ (by omega)
    obtain ⟨m', hrun, S', hrep', hw⟩ := Fs.readi_takes (hfs.starts he) hlen htakes
      ⟨S, hrep, by rw [take_zero]; exact Wrote.refl S _ addr⟩
    rw [hcount] at hrun hw
    refine ⟨_, c, S', filereadRet_readi hread htype hip he hrun, hc, ?_, ?_, hw⟩
    · rw [hpos]
      split_ifs with h0
      · rfl
      · obtain hc0 : c = 0 := by omega
        have hsame : (fun fl : File => { fl with off := fl.off + BitVec.ofNat 32 0 })
          (s.file f) = s.file f := by
          dsimp only
          rw [BitVec.add_zero]
        rw [hc0]
        exact (Function.update_eq_self_iff.2 hsame).symm
    · split_ifs <;> exact hrep'

/-! ### A process with one page -/

/-- A page table with one page that the user may write. -/
def pageTable : Prog Mem (ℕ × ℕ) := do
  let pagetable ← uvmcreate
  let sz ← uvmalloc pagetable 0 4096 4#32
  return (pagetable, sz)

def pageMem : Mem := (pageTable bootMem).state

/-- The address of the page table. -/
abbrev pageRoot : ℕ := 0x80100000

theorem pageTable_value : (pageTable bootMem).value = some (pageRoot, 4096) := by
  decide +kernel

theorem rep_boot : Rep bootMem (⟨fun _ => none, fun _ _ => none, fun _ => none⟩ : KMap) :=
  rep_unused (by decide) (by decide) (by unfold PageOk; decide)

theorem wp_pageTable : wp pageTable (fun r m => r.1 ≠ 0 → r.2 = 4096 → ∃ S : KMap, Rep m S ∧
    S.root (some 0) = some r.1 ∧ S.box = (fun _ => none) ∧ (∀ k < 4096, Writable S (some 0) k) ∧
    ∀ v : Vpn, 1 ≤ v.val → S.cell (some 0) v = none) (fun _ _ => True) bootMem := by
  unfold pageTable
  rw [wp_bind]
  refine wp_uvmcreate rep_boot (q := some 0) rfl (fun m _ => ?_) fun pt m hpt hrep => ?_
  · rw [wp_bind]
    exact wp_mono (wp_result _) (fun _ _ _ h => absurd rfl h) (fun _ _ _ => trivial)
  rw [wp_bind]
  refine wp_uvmalloc hrep (k := .arg 0) (q := some 0) (by simp [MemMap.setRoot]) rfl (by decide) (by decide)
    (by decide) (fun v hv => absurd hv (Nat.not_lt_zero _)) (fun _ _ _ _ _ => trivial)
    (fun h => absurd h (by decide)) (fun m' _ _ h => absurd h (by simp)) fun _ m' S' hrep' hg _ _ => ?_
  refine ⟨S', hrep', by rw [hg.root]; simp [MemMap.setRoot], hg.box, fun k hk => ?_, fun v hv => ?_⟩
  · obtain ⟨pte, hcell, hflags⟩ := hg.new (vpn k) (Nat.zero_le _) (by
      rw [vpn_val (lt_trans hk (by decide))]
      show k / 4096 < 1
      omega)
    have hflag : ∀ fl, 0x3FF#64 &&& fl = fl → hasFlag pte fl = hasFlag (heapPerm 4#32 ||| PTEV) fl := by
      intro fl hfl
      rw [← hflags, hasFlag_pteFlags hfl]
    refine ⟨_, userPage_eq_some.2 ⟨lt_trans hk (by decide), hcell, ?_⟩, ?_⟩
    · rw [hflag _ (by decide)]
      decide
    · rw [hflag _ (by decide)]
      decide
  · rw [hg.frame (some 0) v fun h => absurd h.2.2 (by show ¬ v.val < 1; omega)]
    rfl

theorem rep_pageMem : ∃ S : KMap, Rep pageMem S ∧ S.root (some 0) = some pageRoot ∧
    S.box = (fun _ => none) ∧ (∀ k < 4096, Writable S (some 0) k) ∧
    ∀ v : Vpn, 1 ≤ v.val → S.cell (some 0) v = none := by
  exact wp_ok wp_pageTable (Res.eq_ok_of_value pageTable_value) (by decide) rfl

/-- The process has that page and an open file of 1500 bytes. -/
def reader : Kernel :=
  { initial pageMem grownFs with
    file := fun _ => ⟨.inode, 1, true, true, 0, some 0, 0, 0⟩
    proc := fun _ =>
      { state := .runnable, killed := false, xstate := 0, pid := 1, parent := none, sz := 4096
        pagetable := pageRoot, trapframe := 0, ofile := fun _ => some 0, cwd := none
        vma := fun _ => ⟨false, 0, 0, 0, 0, 0, none, 0⟩, vmaTop := TRAPFRAME } }

/-- It reads 100 bytes. -/
theorem read_length_reader : ∃ S, Rep reader.mem S ∧ Honours S 0 0 0 0 100 reader := by
  obtain ⟨S, hrep, hroot, -, hbuf, -⟩ := rep_pageMem
  refine ⟨S, hrep, (read_length hrep hroot grownFs_inv rfl rfl rfl grownFs_live fun k hk => ?_).2
    (.inl (by decide))⟩
  rw [Nat.zero_add]
  exact hbuf k (lt_trans hk (by decide))

theorem negative_evaluated : (filereadRet 0 0 0 (-1) reader).value = some 1500 ∧
    ((filereadRet 0 0 0 (-1) reader).state.file 0).off = 1500 ∧
    userByte reader.mem pageRoot 0 = 0 ∧
    userByte (filereadRet 0 0 0 (-1) reader).state.mem pageRoot 0 = 7 := by
  decide +kernel

/-- **A read of -1 bytes at offset 0 reads the whole file** into the memory of the user. -/
theorem negative_read : ∃ t, filereadRet 0 0 0 (-1) reader = .ok 1500 t ∧ (t.file 0).off = 1500 ∧
    userByte reader.mem pageRoot 0 = 0 ∧ userByte t.mem pageRoot 0 = 7 := by
  obtain ⟨hval, hoff, hold, hnew⟩ := negative_evaluated
  exact ⟨_, Res.eq_ok_of_value hval, hoff, hold, hnew⟩

end Kernel

end Xv6
