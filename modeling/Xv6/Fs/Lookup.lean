import Xv6.Fs.MkfsImage
import Xv6.Fs.Reads

/-!
# Reading the image back (`fs.c`)

`dirlookup` reads a directory entry by entry with `readi` and compares names with `strncmp`.  On the image
`mkfs` writes it finds every file, and a `readi` of the inode found returns the bytes of the file.  The
root directory may have a size that is larger than its entries; a name that is there is found before.

* `Fs.dirlookup`: the function, with the reads of the entries;
* `Fs.strncmp_eq_zero_iff`: names are compared in their first characters, as `strncpy` stored them;
* `Fs.dirlookupLoop_found`: the loop comes to the first entry of a name;
* `Mkfs.main_readNamed`: the files of an image.
-/

namespace Xv6

open Stateful List
open Prog (bind_of_ok get_run)

namespace Fs

/-- Compare at most `n` characters of two strings, which end with their lists. -/
def strncmp : ℕ → List Byte → List Byte → ℤ
  | 0, _, _ => 0
  | n + 1, p, q =>
    if p.headD 0 ≠ 0 ∧ p.headD 0 = q.headD 0 then strncmp n p.tail q.tail
    else ((p.headD 0).toNat : ℤ) - ((q.headD 0).toNat : ℤ)

def namecmp (s t : List Byte) : ℤ := strncmp Mkfs.DIRSIZ s t

/-- The loop of `dirlookup`. -/
def dirlookupLoop (dp : Fin NINODE) (name : List Byte) : ℕ → ℕ → Prog Fs (Option (Fin NINODE × ℕ))
  | 0, _ => pure none
  | fuel + 1, off => do
    let ip := (← Prog.get).inode dp
    if off < ip.size.toNat then
      let r ← readi memmove [] dp (BitVec.ofNat 32 off) 16
      if r.2 ≠ 16 then
        Prog.panic "dirlookup read"
      else
        let inum := ofLE (r.1.take 2)
        if inum = 0 then
          dirlookupLoop dp name fuel (off + 16)
        else if namecmp name (r.1.drop 2) = 0 then do
          let ip ← iget inum
          return some (ip, off)
        else
          dirlookupLoop dp name fuel (off + 16)
    else
      return none

/-- Look for a directory entry in a directory; with the entry in the table goes its offset. -/
def dirlookup (dp : Fin NINODE) (name : List Byte) : Prog Fs (Option (Fin NINODE × ℕ)) := do
  let ip := (← Prog.get).inode dp
  if ip.type ≠ Mkfs.T_DIR then
    Prog.panic "dirlookup not DIR"
  else
    dirlookupLoop dp name (ip.size.toNat / 16 + 1) 0

/-- Read all of a file of the root directory. -/
def readNamed (name : List Byte) : Prog Fs (Option (List Byte × BitVec 32)) := do
  let dp ← iget Mkfs.ROOTINO
  ilock dp
  let r ← dirlookup dp name
  match r with
  | none => return none
  | some (ip, _) =>
    ilock ip
    let n := ((← Prog.get).inode ip).size
    let r ← readi memmove [] ip 0 n
    return some r

variable {s : Fs} {e : Fin NINODE} {cs : List Byte}

/-! ### Names -/

theorem byte_ne {b : Byte} (h : b ≠ 0) : b.toNat ≠ 0 := fun h0 => h (BitVec.eq_of_toNat_eq h0)

/-- A name is compared with what `strncpy` stored. -/
theorem strncmp_eq_zero_iff (n : ℕ) {p name : List Byte} (hp : 0 ∉ p) (hname : 0 ∉ name) :
    strncmp n p (name.take n ++ List.replicate (n - name.length) 0) = 0 ↔ p.take n = name.take n := by
  induction n generalizing p name with
  | zero => simp [strncmp]
  | succ n ih =>
    cases p with
    | nil =>
      cases name with
      | nil => simp [strncmp, replicate_succ]
      | cons b bs =>
        have hb : b.toNat ≠ 0 := byte_ne (fun h => hname (h ▸ mem_cons_self))
        simpa [strncmp] using hb
    | cons a as =>
      have ha : a ≠ 0 := fun h => hp (h ▸ mem_cons_self)
      cases name with
      | nil => simpa [strncmp, replicate_succ, ha] using byte_ne ha
      | cons b bs =>
        have hrec := ih (fun h => hp (mem_cons_of_mem a h)) fun h => hname (mem_cons_of_mem b h)
        by_cases hab : a = b
        · subst hab
          have ha' : ¬ a = 0#8 := ha
          simpa [strncmp, ha'] using hrec
        · have hne : (a.toNat : ℤ) - (b.toNat : ℤ) ≠ 0 := by
            intro h
            exact hab (BitVec.eq_of_toNat_eq (by omega))
          simp [strncmp, hab, hne]

theorem take_drop_flatMap {α β : Type} {f : α → List β} {m : ℕ} (hf : ∀ x, (f x).length = m) {l : List α}
    {j : ℕ} {x : α} (h : l[j]? = some x) : ((l.flatMap f).drop (m * j)).take m = f x := by
  induction l generalizing j with
  | nil => simp at h
  | cons y l ih =>
    cases j with
    | zero =>
      cases h
      simp [← hf x]
    | succ j =>
      have hpast : (f y).length ≤ m * (j + 1) := by
        rw [hf]
        exact Nat.le_mul_of_pos_right _ j.succ_pos
      rw [flatMap_cons, drop_append, hf, drop_eq_nil_of_le hpast, Nat.mul_succ,
        Nat.add_sub_cancel, nil_append]
      exact ih h

/-! ### Looking a name up -/

/-- The bytes of a directory with these names and inode numbers. -/
def direntsOf (rows : List (List Byte × ℕ)) : List Byte := rows.flatMap fun r => Mkfs.dirent r.2 r.1

theorem length_direntsOf (rows : List (List Byte × ℕ)) : (direntsOf rows).length = 16 * rows.length := by
  unfold direntsOf
  induction rows with
  | nil => rfl
  | cons r rows ih =>
    rw [flatMap_cons, length_append, Mkfs.length_dirent, ih, length_cons]
    omega

theorem ofLE_dirent {inum : ℕ} (h : inum < 65536) (name : List Byte) :
    ofLE ((Mkfs.dirent inum name).take 2) = inum := by
  rw [Mkfs.dirent, take_left' (length_leBytes 2 inum), ofLE_leBytes]
  exact Nat.mod_eq_of_lt h

theorem namecmp_dirent {inum : ℕ} {p name : List Byte} (hp : 0 ∉ p) (hname : 0 ∉ name) :
    namecmp p ((Mkfs.dirent inum name).drop 2) = 0 ↔ p.take Mkfs.DIRSIZ = name.take Mkfs.DIRSIZ := by
  rw [Mkfs.dirent, drop_left' (length_leBytes 2 inum)]
  exact strncmp_eq_zero_iff _ hp hname

/-- The names are strings, and the entries are in use. -/
def Rows (rows : List (List Byte × ℕ)) : Prop := ∀ r ∈ rows, 0 ∉ r.1 ∧ r.2 ≠ 0 ∧ r.2 < 65536

/-- **The loop of `dirlookup`** comes to the first entry with the name. -/
theorem dirlookupLoop_found {dp : Fin NINODE} {rows : List (List Byte × ℕ)} (hrows : Rows rows)
    (h : Starts s dp (direntsOf rows)) (hsize : (direntsOf rows).length ≤ (s.inode dp).size.toNat)
    {name : List Byte} (hname : 0 ∉ name) {k : ℕ} {r : List Byte × ℕ} (hk : rows[k]? = some r)
    (heq : name.take Mkfs.DIRSIZ = r.1.take Mkfs.DIRSIZ)
    (hfirst : ∀ j < k, ∀ r, rows[j]? = some r → name.take Mkfs.DIRSIZ ≠ r.1.take Mkfs.DIRSIZ)
    {j fuel : ℕ} (hj : j ≤ k) (hfuel : k < j + fuel) :
    dirlookupLoop dp name fuel (16 * j) s = (iget r.2 >>= fun ip => pure (some (ip, 16 * k))) s := by
  -- induction on the rounds: the entries before `k` have other names
  induction fuel generalizing j with
  | zero => omega
  | succ fuel ih =>
    have hklt : k < rows.length := (List.getElem?_eq_some_iff.1 hk).1
    have hlen := length_direntsOf rows
    have hlt := (s.inode dp).size.isLt
    have hoff : (BitVec.ofNat 32 (16 * j)).toNat = 16 * j := by
      rw [BitVec.toNat_ofNat]
      exact Nat.mod_eq_of_lt (by omega)
    have hmore : 16 * j < (s.inode dp).size.toNat := by omega
    have hjlt : j < rows.length := by omega
    have hrow : rows[j]? = some rows[j] := getElem?_eq_getElem hjlt
    obtain ⟨hz, hin, hin'⟩ := hrows rows[j] (getElem_mem hjlt)
    have hpiece : ((direntsOf rows).drop (16 * j)).take 16 = Mkfs.dirent rows[j].2 rows[j].1 :=
      take_drop_flatMap (f := fun r => Mkfs.dirent r.2 r.1) (fun r => Mkfs.length_dirent r.2 r.1) hrow
    have hread : readi memmove [] dp (BitVec.ofNat 32 (16 * j)) 16 s
        = .ok (Mkfs.dirent rows[j].2 rows[j].1, 16) s := by
      have hend : (BitVec.ofNat 32 (16 * j)).toNat + (16 : BitVec 32).toNat ≤ (direntsOf rows).length := by
        rw [hoff, hlen]
        show 16 * j + 16 ≤ 16 * rows.length
        omega
      have hrun := readi_starts h hend hsize
      rw [hoff] at hrun
      rwa [← hpiece]
    rw [dirlookupLoop, bind_of_ok (get_run s)]
    rw [if_pos hmore, bind_of_ok hread]
    rw [if_neg (by simp), ofLE_dirent hin', if_neg hin]
    by_cases hjk : j = k
    · subst hjk
      obtain rfl : rows[j] = r := Option.some.inj (hrow.symm.trans hk)
      rw [if_pos ((namecmp_dirent hname hz).2 heq)]
    · have hne := hfirst j (by omega) _ hrow
      rw [if_neg fun h0 => hne ((namecmp_dirent hname hz).1 h0)]
      exact ih (j := j + 1) (by omega) (by omega)

/-! ### Opening an inode -/

/-- The state with an inode read into a table entry. -/
def loaded (s : Fs) (e : Fin NINODE) (inum : ℕ) : Fs :=
  s.upd e fun _ => ⟨s.vol.dinode inum, ROOTDEV, inum, 1, true⟩

/-- `iget` takes a free entry for an inode that is not in the table, and `ilock` reads it. -/
theorem iget_ilock_fresh {inum : ℕ} (hin : inum < s.sb.ninodes) (htype : (s.vol.dinode inum).type ≠ 0)
    (hno : ∀ e, 0 < (s.inode e).ref → (s.inode e).inum ≠ inum) (hfree : ∃ e, (s.inode e).ref = 0) :
    ∃ e t, (s.inode e).ref = 0 ∧ iget inum s = .ok e t ∧ ilock e t = .ok () (s.loaded e inum) := by
  have hfind : ((List.finRange NINODE).find? fun e =>
      decide (0 < (s.inode e).ref ∧ (s.inode e).dev = ROOTDEV ∧ (s.inode e).inum = inum)) = none := by
    rw [find?_eq_none]
    intro e _ h
    obtain ⟨hr, -, hnum⟩ := of_decide_eq_true h
    exact hno e hr hnum
  obtain ⟨e₀, he₀⟩ := hfree
  cases hempty : (List.finRange NINODE).find? fun e => decide ((s.inode e).ref = 0) with
  | none =>
    have := find?_eq_none.1 hempty e₀ (mem_finRange e₀)
    exact absurd (decide_eq_true he₀) this
  | some e =>
    have href : (s.inode e).ref = 0 := by simpa using find?_some hempty
    set t := s.upd e fun ip => { ip with dev := ROOTDEV, inum := inum, ref := 1, valid := false } with ht
    have hself : t.inode e = { s.inode e with dev := ROOTDEV, inum := inum, ref := 1, valid := false } :=
      upd_self s e _
    refine ⟨e, t, href, ?_, ?_⟩
    · unfold iget
      rw [bind_of_ok (get_run s), hfind]
      rw [hempty]
      rfl
    · have hdin : decodeDinode (t.view (t.sb.iblock inum)) (inum % IPB) =
        s.vol.dinode inum := (if_pos hin).symm
      have hstate : (t.upd e fun ip => { ip with toDinode := s.vol.dinode inum, valid := true })
          = s.loaded e inum := by
        unfold loaded upd
        rw [hself]
        simp [ht, upd]
      unfold ilock
      rw [bind_of_ok (get_run t)]
      rw [hself]
      rw [if_neg (by simp), if_pos (by simp), bind_of_ok (bread_run t _), hdin,
        bind_of_ok (Prog.modify_run _ t), hstate, if_neg htype]
      rfl

theorem loaded_self (s : Fs) (e : Fin NINODE) (inum : ℕ) :
    (s.loaded e inum).inode e = ⟨s.vol.dinode inum, ROOTDEV, inum, 1, true⟩ := upd_self s e _

theorem loaded_of_ne (s : Fs) {e e' : Fin NINODE} (h : e' ≠ e) (inum : ℕ) :
    (s.loaded e inum).inode e' = s.inode e' := upd_of_ne s h _

end Fs

namespace Mkfs

open Fs

/-! ### The files of the image -/

theorem Files.starts {g t : Fs} {l : List (BitVec 16 × List Byte)} (hinv : FsInv g none) (h : Files g l)
    (hview : ∀ x, g.sb.dataStart ≤ x → x < g.sb.size → t.view x = g.vol.data x) {j : ℕ} {d : BitVec 16}
    {c : List Byte} (hj : l[j]? = some (d, c)) {e : Fin NINODE}
    (haddrs : (t.inode e).addrs = (g.vol.dinode (j + 1)).addrs) : t.Starts e c := by
  obtain ⟨htype, hd, hsize, hbyte⟩ := h.node j d c hj
  have hne : (g.vol.dinode (j + 1)).type ≠ 0 := by
    rwa [htype]
  have hslots : ∀ sl, g.slots none (j + 1, sl) = (g.vol.dinode (j + 1)).slot g.vol.data sl :=
    fun sl => if_neg hne
  have hrange : ∀ sl, g.slots none (j + 1, sl) ≠ 0 →
      t.view (g.slots none (j + 1, sl)) = g.vol.data (g.slots none (j + 1, sl)) := by
    intro sl h0
    obtain ⟨h1, h2⟩ := hinv.owns.range _ h0
    exact hview _ h1 h2
  -- the indirect block is the same, so the slots are
  have hsame : ∀ sl, (t.inode e).slot t.view sl = g.slots none (j + 1, sl) := by
    intro sl
    have hind : (t.inode e).ind = (g.vol.dinode (j + 1)).ind := by
      unfold Dinode.ind
      rw [haddrs]
    rw [hslots]
    cases sl with
    | direct i =>
      show ((t.inode e).addrs i.castSucc).toNat = ((g.vol.dinode (j + 1)).addrs i.castSucc).toNat
      rw [haddrs]
    | indirect => exact hind
    | entry i =>
      simp only [Dinode.slot]
      rw [hind]
      by_cases h0 : (g.vol.dinode (j + 1)).ind = 0
      · rw [if_pos h0, if_pos h0]
      · have hblock := hrange .indirect (by rwa [hslots])
        rw [hslots] at hblock
        have hblock' : t.view (g.vol.dinode (j + 1)).ind = g.vol.data (g.vol.dinode (j + 1)).ind := hblock
        rw [if_neg h0, if_neg h0, hblock']
  intro k b hb
  have hk : k < c.length := (List.getElem?_eq_some_iff.1 hb).1
  have hbelow : k / BSIZE * BSIZE < (g.vol.dinode (j + 1)).size.toNat := by
    have := Nat.div_mul_le_self k BSIZE
    omega
  have hmap : (g.vol.dinode (j + 1)).fileBlock g.vol.data (k / BSIZE) ≠ 0 :=
    (hinv.below (j + 1) hne).2 _ hbelow
  have hval := hbyte k b hb
  unfold Dinode.fileBlock at hmap
  unfold Fs.byte at hval
  cases hsl : Dinode.blockSlot (k / BSIZE) with
  | none =>
    rw [hsl] at hmap
    exact absurd rfl hmap
  | some sl =>
    rw [hsl] at hmap hval
    have hne0 : g.slots none (j + 1, sl) ≠ 0 := by
      rwa [hslots]
    have hne0' : (t.inode e).slot t.view sl ≠ 0 := by
      rwa [hsame]
    refine ⟨_, hne0', bmap_of_slot hsl hne0', ?_⟩
    rwa [hsame, hrange sl hne0]

/-- What the kernel finds on the image. -/
structure Image (files : List File) (s : Fs) : Prop where
  ninodes : s.sb.ninodes = NINODES
  root_type : (s.vol.dinode ROOTINO).type = T_DIR
  root_size : (rootContent files).length ≤ (s.vol.dinode ROOTINO).size.toNat
  root : ∀ (t : Fs) e, t.view = s.view → (t.inode e).toDinode = s.vol.dinode ROOTINO →
    t.Starts e (rootContent files)
  file_type : ∀ i f, files[i]? = some f → (s.vol.dinode (i + 2)).type ≠ 0
  file_size : ∀ i f, files[i]? = some f → (s.vol.dinode (i + 2)).size.toNat = f.content.length
  file : ∀ i f, files[i]? = some f → ∀ (t : Fs) e, t.view = s.view →
    (t.inode e).toDinode = s.vol.dinode (i + 2) → t.Starts e f.content

theorem Laid.image {files : List File} {used : ℕ} {s : Fs} (hn : files.length + 2 ≤ NINODES)
    (h : Laid files used s) : Image files s := by
  obtain ⟨g, hinv, hgsb, -, hfiles, hsb, -, -, hvol, -⟩ := h
  have hroot : s.vol.dinode ROOTINO = { g.vol.dinode ROOTINO with
      size := BitVec.ofNat 32 (rounded (rootContent files).length) } := by
    rw [hvol]
    show Function.update g.vol.dinode ROOTINO _ ROOTINO = _
    exact Function.update_self ..
  have hother : ∀ i, s.vol.dinode (i + 2) = g.vol.dinode (i + 2) := by
    intro i
    have hi : i + 2 ≠ ROOTINO := by
      show i + 2 ≠ 1
      omega
    have hset : ∀ d, (g.vol.setDinode ROOTINO d).dinode (i + 2) = g.vol.dinode (i + 2) :=
      fun d => Function.update_of_ne hi d _
    rw [hvol, hset]
  have hview : ∀ t : Fs, t.view = s.view → ∀ x, g.sb.dataStart ≤ x → x < g.sb.size →
      t.view x = g.vol.data x := by
    intro t ht x h1 h2
    have hdata : s.vol.data x = s.view x := if_pos (by rw [hsb, ← hgsb]; exact ⟨h1, h2⟩)
    rw [ht, ← hdata, hvol]
    rfl
  have hlayout : ∀ i f, files[i]? = some f → (layout files)[i + 1]? = some (T_FILE, f.content) := by
    intro i f hf
    simp [layout, hf]
  have hlen := length_rootContent files
  constructor
  case ninodes => rw [hsb]; rfl
  case root_type =>
    rw [hroot]
    exact (hfiles.node 0 _ _ rfl).1
  case root_size =>
    rw [hroot]
    have hn' : files.length + 2 ≤ 200 := hn
    have hr : rounded (rootContent files).length = ((rootContent files).length / 1024 + 1) * 1024 := rfl
    rw [BitVec.toNat_ofNat, Nat.mod_eq_of_lt (by omega)]
    omega
  case root =>
    intro t e ht he
    exact hfiles.starts hinv (hview t ht) (j := 0) rfl (by rw [he, hroot])
  case file_type =>
    intro i f hf
    obtain ⟨htype, hd, -⟩ := hfiles.node _ _ _ (hlayout i f hf)
    rw [hother]
    exact htype ▸ hd
  case file_size =>
    intro i f hf
    rw [hother]
    exact (hfiles.node _ _ _ (hlayout i f hf)).2.2.1
  case file =>
    intro i f hf t e ht he
    exact hfiles.starts hinv (hview t ht) (hlayout i f hf) (by rw [he, hother])

/-- The names of the root directory and their inode numbers. -/
def rootRows (files : List File) : List (List Byte × ℕ) :=
  ([0x2e], ROOTINO) :: ([0x2e, 0x2e], ROOTINO) :: (files.map File.shortname).zipIdx 2

theorem direntsOf_entries (inum : ℕ) (files : List File) :
    direntsOf ((files.map File.shortname).zipIdx inum) = entries inum files := by
  induction files generalizing inum with
  | nil => rfl
  | cons f fs ih =>
    rw [entries, ← ih]
    rfl

theorem direntsOf_rootRows (files : List File) : direntsOf (rootRows files) = rootContent files := by
  unfold rootContent
  rw [← direntsOf_entries, append_assoc]
  rfl

theorem rootRows_add_two {files : List File} {i : ℕ} {f : File} (h : files[i]? = some f) :
    (rootRows files)[i + 2]? = some (f.shortname, i + 2) := by
  simp [rootRows, h, Nat.add_comm]

section Names

variable {files : List File}

/-- The names of the files, apart from the two of every directory. -/
structure Distinct (files : List File) : Prop where
  string : ∀ f ∈ files, 0 ∉ f.shortname
  dot : ∀ f ∈ files, f.shortname ≠ [0x2e]
  dotdot : ∀ f ∈ files, f.shortname ≠ [0x2e, 0x2e]
  nodup : (files.map fun f => f.shortname.take DIRSIZ).Nodup

theorem Distinct.rows (h : Distinct files) (hn : files.length + 2 ≤ NINODES) : Rows (rootRows files) := by
  have hn' : files.length + 2 ≤ 200 := hn
  intro r hr
  rcases mem_cons.1 hr with rfl | hr
  · decide
  rcases mem_cons.1 hr with rfl | hr
  · decide
  obtain ⟨hlo, hhi, hget⟩ := mem_zipIdx hr
  rw [length_map] at hhi
  refine ⟨?_, by omega, by omega⟩
  rw [hget, getElem_map]
  exact h.string _ (getElem_mem _)

/-- A short string is not the beginning of another name. -/
theorem take_ne_short {name l : List Byte} (hl : l.length < DIRSIZ) (h : name ≠ l) :
    name.take DIRSIZ ≠ l.take DIRSIZ := by
  intro heq
  rw [take_of_length_le hl.le] at heq
  have hlen := congrArg List.length heq
  rw [length_take] at hlen
  rw [take_of_length_le (by omega)] at heq
  exact h heq

/-- The entries before that of a file have other names. -/
theorem Distinct.first (h : Distinct files) {i : ℕ} {f : File} (hf : files[i]? = some f) :
    ∀ j < i + 2, ∀ r, (rootRows files)[j]? = some r → f.shortname.take DIRSIZ ≠ r.1.take DIRSIZ := by
  have hmem : f ∈ files := mem_of_getElem? hf
  intro j hj r hr
  match j, hj, hr with
  | 0, _, hr =>
    cases hr
    exact take_ne_short (by decide) (h.dot f hmem)
  | 1, _, hr =>
    cases hr
    exact take_ne_short (by decide) (h.dotdot f hmem)
  | j + 2, hj, hr =>
    have hilt : i < files.length := (List.getElem?_eq_some_iff.1 hf).1
    have hfj : files[j]? = some files[j] := getElem?_eq_getElem (by omega)
    rw [rootRows_add_two hfj] at hr
    cases hr
    intro heq
    have hnames : ∀ {k : ℕ} {f : File}, files[k]? = some f →
        (files.map fun f => f.shortname.take DIRSIZ)[k]? = some (f.shortname.take DIRSIZ) := by
      intro k f hk
      rw [getElem?_map, hk]
      rfl
    have hne := nodup_iff_getElem?_ne_getElem?.1 h.nodup j i (by omega) (by rwa [length_map])
    rw [hnames hfj, hnames hf] at hne
    exact hne (congrArg some heq.symm)

namespace Image

variable {s t : Fs} {i : ℕ} {f : File} {e : Fin NINODE}

/-- `dirlookup` in the root directory comes to the entry of a file. -/
theorem dirlookup_eq (hs : Image files s) (hn : files.length + 2 ≤ NINODES) (hnames : Distinct files)
    (hi : files[i]? = some f) (hview : t.view = s.view) (he : (t.inode e).toDinode = s.vol.dinode ROOTINO) :
    dirlookup e f.shortname t = (iget (i + 2) >>= fun ip => pure (some (ip, 16 * (i + 2)))) t := by
  have hilt : i < files.length := (List.getElem?_eq_some_iff.1 hi).1
  have hstarts : t.Starts e (direntsOf (rootRows files)) := by
    rw [direntsOf_rootRows]
    exact hs.root t e hview he
  have hsize : (direntsOf (rootRows files)).length ≤ (t.inode e).size.toNat := by
    rw [direntsOf_rootRows, he]
    exact hs.root_size
  have hfuel : i + 2 < 0 + ((t.inode e).size.toNat / 16 + 1) := by
    have := length_direntsOf (rootRows files)
    have hlen : (rootRows files).length = files.length + 2 := by simp [rootRows]
    omega
  unfold dirlookup
  rw [bind_of_ok (get_run t), if_neg (by rw [he, hs.root_type]; simp)]
  exact dirlookupLoop_found (hnames.rows hn) hstarts hsize (hnames.string f (mem_of_getElem? hi))
    (rootRows_add_two hi) rfl (hnames.first hi) (Nat.zero_le _) hfuel

/-- `readi` over the whole inode of a file. -/
theorem readi_eq (hs : Image files s) (hi : files[i]? = some f) (hview : t.view = s.view)
    (he : (t.inode e).toDinode = s.vol.dinode (i + 2)) :
    readi memmove [] e 0 (t.inode e).size t = .ok (f.content, BitVec.ofNat 32 f.content.length) t := by
  have hlen : (t.inode e).size.toNat = f.content.length := by
    rw [he]
    exact hs.file_size i f hi
  have hword : (t.inode e).size = BitVec.ofNat 32 f.content.length := by
    rw [← hlen, BitVec.ofNat_toNat, BitVec.setWidth_eq]
  rw [readi_starts (hs.file i f hi t e hview he) (by rw [hlen]; simp) hlen.ge, hlen, ← hword]
  simp

end Image

end Names

/-- **Reading the image back**: on the image of files whose names differ in their first `DIRSIZ` characters,
`dirlookup` in the root directory finds every name, and `readi` over the whole inode found returns exactly
the bytes of that file. -/
theorem main_readNamed {files : List File} {im : Img} (hn : files.length + 2 ≤ NINODES)
    (h : main files blank = .ok () im) (hfit : im.freeblock ≤ FSSIZE) (hnames : Distinct files) {f : File}
    (hf : f ∈ files) :
    ∃ t, readNamed f.shortname (booted im) = .ok (some (f.content, BitVec.ofNat 32 f.content.length))
      t := by
  have hs := (main_laid hn h hfit).image hn
  have hunused : ∀ e, ((booted im).inode e).ref = 0 := fun _ => rfl
  generalize booted im = s at hs hunused ⊢
  obtain ⟨i, hi⟩ := getElem?_of_mem hf
  have hilt : i < files.length := (List.getElem?_eq_some_iff.1 hi).1
  -- the root directory
  have hroot : (s.vol.dinode ROOTINO).type ≠ 0 := by
    rw [hs.root_type]
    decide
  obtain ⟨dp, t₁, -, hget, hlock⟩ := iget_ilock_fresh (by rw [hs.ninodes]; decide) hroot
    (fun e he => absurd (hunused e) he.ne') ⟨0, hunused 0⟩
  set s₁ := s.loaded dp ROOTINO
  have hdp : s₁.inode dp = ⟨s.vol.dinode ROOTINO, ROOTDEV, ROOTINO, 1, true⟩ := loaded_self ..
  have hother : ∀ e, e ≠ dp → s₁.inode e = s.inode e := fun e he => loaded_of_ne s he _
  -- the file, which is not in the table yet
  have hno : ∀ e, 0 < (s₁.inode e).ref → (s₁.inode e).inum ≠ i + 2 := by
    intro e he
    by_cases hee : e = dp
    · rw [hee, hdp]
      show 1 ≠ i + 2
      omega
    · rw [hother e hee, hunused] at he
      exact absurd he (lt_irrefl 0)
  have hin : i + 2 < s₁.sb.ninodes := by
    show i + 2 < s.sb.ninodes
    rw [hs.ninodes]
    omega
  have hfree : ∃ e, (s₁.inode e).ref = 0 := by
    obtain ⟨e, he⟩ := exists_ne dp
    exact ⟨e, by rw [hother e he, hunused]⟩
  obtain ⟨ip, t₂, -, hget₂, hlock₂⟩ := iget_ilock_fresh hin (hs.file_type i f hi) hno hfree
  set s₂ := s₁.loaded ip (i + 2)
  have hip : s₂.inode ip = ⟨s.vol.dinode (i + 2), ROOTDEV, i + 2, 1, true⟩ := loaded_self ..
  have hfound : dirlookup dp f.shortname s₁ = .ok (some (ip, 16 * (i + 2))) t₂ := by
    rw [hs.dirlookup_eq (t := s₁) (e := dp) hn hnames hi rfl (by rw [hdp]), bind_of_ok hget₂]
    rfl
  have hread := hs.readi_eq (t := s₂) (e := ip) hi rfl (by rw [hip])
  refine ⟨s₂, ?_⟩
  unfold readNamed
  rw [bind_of_ok hget, bind_of_ok hlock, bind_of_ok hfound]
  dsimp only
  rw [bind_of_ok hlock₂, bind_of_ok (get_run s₂), bind_of_ok hread]
  rfl

/-- Also the last entry of a root directory whose size is too large is found, and its file is read. -/
theorem main_readNamed_last : ∃ im t, main (smallFiles 62) blank = .ok () im ∧
    readNamed [0x66, 0x6d] (booted im) = .ok (some ([61, 7], 2)) t := by
  have hlen : (smallFiles 62).length + 2 ≤ NINODES := by
    rw [show (smallFiles 62).length = 62 by simp [smallFiles]]
    decide
  have hnames : (∀ f ∈ smallFiles 62, 0 ∉ f.shortname) ∧ (∀ f ∈ smallFiles 62, f.shortname ≠ [0x2e]) ∧
      (∀ f ∈ smallFiles 62, f.shortname ≠ [0x2e, 0x2e]) ∧
      ((smallFiles 62).map fun f => f.shortname.take DIRSIZ).Nodup := by decide +kernel
  obtain ⟨h1, h2, h3, h4⟩ := hnames
  obtain ⟨-, hval, hfit⟩ := smallFiles_evaluated
  have hrun := Res.eq_ok_of_value hval
  have hmem : (⟨[0x66, 0x6d], [[61, 7]]⟩ : File) ∈ smallFiles 62 := mem_map.2 ⟨61, by simp, rfl⟩
  obtain ⟨t, ht⟩ := main_readNamed hlen hrun hfit ⟨h1, h2, h3, h4⟩ hmem
  exact ⟨_, t, hrun, ht⟩

end Mkfs

end Xv6
