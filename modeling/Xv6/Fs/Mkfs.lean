import Xv6.Fs.Owner

/-!
# Making a file system (`mkfs.c`)

`mkfs` lays files out with a counter of free blocks: it has no bitmap until its last step.  Still it
does to the blocks what the kernel does: a kernel whose bitmap marks the blocks below `freeblock` takes
the same block in `balloc`, and `iappend` is the `writei` of that kernel at the end of the file.

The image is the array of its blocks.  It begins zeroed.

* `Mkfs.iappend`, `Mkfs.main`: the program; a failed assertion is a panic;
* `Mkfs.Shows`: the kernel state that shows an image;
* `Mkfs.Sims`, `Mkfs.Sims.bind`: a program of `mkfs` does what a program of the kernel does;
* `Mkfs.iappend_sims`: `iappend` simulates `writei`.
-/

namespace Xv6

open Stateful Function List
open Prog (bind_of_ok get_run)

namespace Mkfs

/-- Size of the file system in blocks. -/
abbrev FSSIZE : ℕ := 2000

abbrev NINODES : ℕ := 200

abbrev FSMAGIC : ℕ := 0x10203040

/-- Length of a name in a directory entry. -/
abbrev DIRSIZ : ℕ := 14

/-- Root inode number. -/
abbrev ROOTINO : ℕ := 1

abbrev T_DIR : BitVec 16 := 1

abbrev T_FILE : BitVec 16 := 2

abbrev nbitmap : ℕ := FSSIZE / (BSIZE * 8) + 1

abbrev ninodeblocks : ℕ := NINODES / IPB + 1

/-- Number of meta blocks: boot block, superblock, log, inodes and bitmap. -/
abbrev nmeta : ℕ := 2 + LOGSIZE + ninodeblocks + nbitmap

def sb : Superblock :=
  ⟨FSSIZE, FSSIZE - nmeta, NINODES, LOGSIZE, 2, 2 + LOGSIZE, 2 + LOGSIZE + ninodeblocks⟩

/-- The block with the superblock. -/
def superBlock : Block :=
  Bytes.putWords (fun _ => 0) 0
    [FSMAGIC, sb.size, sb.nblocks, sb.ninodes, sb.nlog, sb.logstart, sb.inodestart, sb.bmapstart]

/-- `readsb` of the kernel. -/
def readsb (b : Block) : Superblock :=
  ⟨b.getLE 4 4, b.getLE 4 8, b.getLE 4 12, b.getLE 4 16, b.getLE 4 20, b.getLE 4 24, b.getLE 4 28⟩

/-- The image and the counters of `mkfs`. -/
structure Img where
  disk : ℕ → Block
  freeinode : ℕ
  freeblock : ℕ

/-! ### The program -/

def wsect (sec : ℕ) (buf : Block) : Prog Img Unit := Prog.modify fun im =>
  { im with disk := update im.disk sec buf }

def rsect (sec : ℕ) : Prog Img Block := fun im => .ok (im.disk sec) im

def winode (inum : ℕ) (ip : Dinode) : Prog Img Unit := do
  let buf ← rsect (sb.iblock inum)
  wsect (sb.iblock inum) (encodeDinode buf (inum % IPB) ip)

def rinode (inum : ℕ) : Prog Img Dinode := do
  let buf ← rsect (sb.iblock inum)
  return decodeDinode buf (inum % IPB)

def ialloc (type : BitVec 16) : Prog Img ℕ := do
  let inum := (← Prog.get).freeinode
  Prog.modify fun im => { im with freeinode := im.freeinode + 1 }
  winode inum { Dinode.zero with type := type, nlink := 1 }
  return inum

/-- `freeblock++`. -/
def nextBlock : Prog Img ℕ := fun im => .ok im.freeblock { im with freeblock := im.freeblock + 1 }

/-- The address at `addrs[k]`, after a block was taken for it if there was none. -/
def mapSlot (din : Dinode) (k : Fin (NDIRECT + 1)) : Prog Img (Dinode × ℕ) :=
  if (din.addrs k).toNat = 0 then do
    let x ← nextBlock
    return (din.setAddr k x, ((din.setAddr k x).addrs k).toNat)
  else
    return (din, (din.addrs k).toNat)

/-- The part of `iappend` that finds the block `fbn` of a file. -/
def mapBlock (din : Dinode) (fbn : ℕ) : Prog Img (Dinode × ℕ) :=
  if h : fbn < NDIRECT then
    mapSlot din ⟨fbn, Nat.lt_succ_of_lt h⟩
  else do
    let r ← mapSlot din Fs.indirectSlot
    let indirect ← rsect r.2
    if indirect.getLE 4 (4 * (fbn - NDIRECT)) = 0 then
      let x ← nextBlock
      wsect r.2 (indirect.putLE 4 (4 * (fbn - NDIRECT)) x)
      return (r.1, (indirect.putLE 4 (4 * (fbn - NDIRECT)) x).getLE 4 (4 * (fbn - NDIRECT)))
    else
      return (r.1, indirect.getLE 4 (4 * (fbn - NDIRECT)))

/-- The loop of `iappend`; `p` is what is still to be appended. -/
def iappendLoop : ℕ → Dinode → ℕ → List Byte → Prog Img (Dinode × ℕ)
  | 0, din, off, _ => pure (din, off)
  | fuel + 1, din, off, p =>
    if 0 < p.length then
      if off / BSIZE < MAXFILE then do
        let r ← mapBlock din (off / BSIZE)
        let n1 := min p.length ((off / BSIZE + 1) * BSIZE - off)
        let buf ← rsect r.2
        wsect r.2 (buf.blit (off - off / BSIZE * BSIZE) (p.take n1))
        iappendLoop fuel r.1 (off + n1) (p.drop n1)
      else
        Prog.panic "fbn < MAXFILE"
    else
      pure (din, off)

def iappend (inum : ℕ) (p : List Byte) : Prog Img Unit := do
  let din ← rinode inum
  let r ← iappendLoop p.length din din.size.toNat p
  winode inum { r.1 with size := BitVec.ofNat 32 r.2 }

/-- `struct dirent`, with the name copied by `strncpy`. -/
def dirent (inum : ℕ) (name : List Byte) : List Byte :=
  leBytes 2 inum ++ (name.take DIRSIZ ++ List.replicate (DIRSIZ - name.length) 0)

/-- An input file: its path, and what the calls of `read` return until the end. -/
structure File where
  path : List Byte
  reads : List (List Byte)

/-- The bytes of the file. -/
def File.content (f : File) : List Byte := f.reads.flatten

/-- The bytes of `user/`. -/
def userDir : List Byte := [0x75, 0x73, 0x65, 0x72, 0x2f]

/-- The path without `user/`. -/
def File.stripped (f : File) : List Byte :=
  if f.path.take 5 = userDir then f.path.drop 5 else f.path

/-- The name on the image: a leading `_` is skipped. -/
def File.shortname (f : File) : List Byte :=
  if f.stripped.head? = some 0x5f then f.stripped.drop 1 else f.stripped

/-- The loop that copies a file. -/
def copyFile (inum : ℕ) : List (List Byte) → Prog Img Unit
  | [] => pure ()
  | buf :: bufs => do
    iappend inum buf
    copyFile inum bufs

/-- One turn of the loop of `main`. -/
def addFile (f : File) : Prog Img Unit :=
  if 0x2f ∈ f.stripped then Prog.panic "index(shortname, '/') == 0"
  else do
    let inum ← ialloc T_FILE
    iappend ROOTINO (dirent inum f.shortname)
    copyFile inum f.reads

def addFiles : List File → Prog Img Unit
  | [] => pure ()
  | f :: fs => do
    addFile f
    addFiles fs

/-- The bitmap with the first `used` bits set. -/
def bitmap : ℕ → Block
  | 0 => fun _ => 0
  | used + 1 => (bitmap used).setBit used

def balloc (used : ℕ) : Prog Img Unit :=
  if used < BSIZE * 8 then wsect sb.bmapstart (bitmap used) else Prog.panic "used < BSIZE*8"

/-- The size of the root directory is rounded up. -/
def fixRoot : Prog Img Unit := do
  let din ← rinode ROOTINO
  winode ROOTINO { din with size := BitVec.ofNat 32 ((din.size.toNat / BSIZE + 1) * BSIZE) }

/-- The root directory with its first two entries. -/
def makeRoot : Prog Img Unit := do
  wsect 1 superBlock
  let rootino ← ialloc T_DIR
  if rootino = ROOTINO then
    iappend rootino (dirent rootino [0x2e])
    iappend rootino (dirent rootino [0x2e, 0x2e])
  else
    Prog.panic "rootino == ROOTINO"

def main (files : List File) : Prog Img Unit := do
  makeRoot
  addFiles files
  fixRoot
  balloc (← Prog.get).freeblock

/-- The zeroed image. -/
def blank : Img := ⟨fun _ => fun _ => 0, 1, nmeta⟩

/-! ### The kernel state that shows an image -/

theorem sb_ok : sb.Ok := ⟨by decide, by decide, by decide⟩

theorem dataStart_eq : sb.dataStart = nmeta := by decide

theorem bblock_eq {x : ℕ} (hx : x < FSSIZE) : sb.bblock x = sb.bmapstart := by
  show x / BPB + sb.bmapstart = sb.bmapstart
  rw [Nat.div_eq_of_lt (hx.trans (by decide)), Nat.zero_add]

theorem mod_bpb {x : ℕ} (hx : x < FSSIZE) : x % BPB = x := Nat.mod_eq_of_lt (hx.trans (by decide))

/-- A kernel with this state sees the image, with the blocks below `freeblock` marked in its bitmap. -/
structure Shows (im : Img) (g : Fs) : Prop where
  sb : g.sb = Mkfs.sb
  dirty : g.dirty = fun _ => none
  disk : ∀ b, b ≠ Mkfs.sb.bmapstart → g.disk b = im.disk b
  used : ∀ x < FSSIZE, g.vol.used x = decide (x < im.freeblock)
  fresh : ∀ x, im.freeblock ≤ x → x < FSSIZE → im.disk x = fun _ => 0
  lo : nmeta ≤ im.freeblock
  super : im.disk 1 = superBlock

namespace Shows

variable {im : Img} {g : Fs}

section

variable (h : Shows im g)
include h

theorem view {b : ℕ} (hb : b ≠ Mkfs.sb.bmapstart) : g.view b = im.disk b := by
  rw [Fs.view, h.dirty, Option.getD_none, h.disk b hb]

theorem ok : g.sb.Ok := by
  rw [h.sb]
  exact sb_ok

theorem congr {g' : Fs} (hsb : g'.sb = g.sb) (hdirty : g'.dirty = g.dirty)
    (hdisk : g'.disk = g.disk) : Shows im g' := by
  have hvol : g'.vol.used = g.vol.used := by
    funext x
    exact Fs.vol_used_congr hsb fun _ => by rw [Fs.view, Fs.view, hdirty, hdisk]
  exact ⟨hsb.trans h.sb, hdirty.trans h.dirty, by rw [hdisk]; exact h.disk, by rw [hvol]; exact h.used,
    h.fresh, h.lo, h.super⟩

/-- A write of a block that is in use, other than the bitmap and the superblock. -/
theorem write {b : ℕ} (hb : b ≠ Mkfs.sb.bmapstart) (hlo : 1 < b) (hhi : b < im.freeblock)
    (v : Block) : Shows { im with disk := update im.disk b v } (g.write b v) where
  sb := h.sb
  dirty := by
    show update g.dirty b none = _
    rw [h.dirty, update_eq_self_iff]
  disk c hc := by
    show update g.disk b v c = update im.disk b v c
    rcases eq_or_ne c b with rfl | hne
    · rw [update_self, update_self]
    · rw [update_of_ne hne, update_of_ne hne, h.disk c hc]
  used x hx := by
    rw [← h.used x hx]
    refine Fs.vol_used_congr rfl fun _ => ?_
    rw [Fs.view_write, if_neg]
    rw [h.sb, bblock_eq hx]
    exact hb.symm
  fresh x h1 h2 := by
    show update im.disk b v x = _
    have hlt : im.freeblock ≤ x := h1
    rw [update_of_ne (by omega), h.fresh x h1 h2]
  lo := h.lo
  super := by
    show update im.disk b v 1 = _
    rw [update_of_ne (by omega), h.super]

/-- The state after `balloc`. -/
theorem alloc (hfit : im.freeblock < FSSIZE) :
    Shows { im with freeblock := im.freeblock + 1 } (g.alloc im.freeblock) where
  sb := h.sb
  dirty := by
    show update (update g.dirty _ none) _ none = _
    rw [h.dirty]
    funext b
    simp [update_apply]
  disk c hc := by
    show update (update g.disk _ _) im.freeblock (fun _ => 0) c = im.disk c
    rcases eq_or_ne c im.freeblock with rfl | hne
    · rw [update_self, h.fresh _ le_rfl hfit]
    · rw [update_of_ne hne, update_of_ne, h.disk c hc]
      rwa [h.sb, bblock_eq hfit]
  used x hx := by
    have hlo : g.sb.dataStart ≤ im.freeblock := by
      rw [h.sb, dataStart_eq]
      exact h.lo
    rw [Fs.vol_alloc h.ok hlo (by rwa [h.sb])]
    show update g.vol.used im.freeblock true x = decide (x < im.freeblock + 1)
    rcases eq_or_ne x im.freeblock with rfl | hne
    · simp
    · rw [update_of_ne hne, h.used x hx]
      exact decide_eq_decide.2 (by omega)
  fresh x h1 h2 := h.fresh x (Nat.le_of_succ_le h1) h2
  lo := h.lo.trans (Nat.le_succ _)
  super := h.super

/-- The first free block is the one `mkfs` takes. -/
theorem findBit (hfit : im.freeblock < FSSIZE) {fuel bi : ℕ} (hbi : bi ≤ im.freeblock)
    (hfuel : im.freeblock < bi + fuel) :
    Fs.findBit (g.view Mkfs.sb.bmapstart) 0 FSSIZE fuel bi = some im.freeblock := by
  have hbit : ∀ x < FSSIZE, (g.view Mkfs.sb.bmapstart).getBit x = decide (x < im.freeblock) := by
    intro x hx
    have hused := h.used x hx
    rwa [Fs.vol_used (by rwa [h.sb]), h.sb, bblock_eq hx, mod_bpb hx] at hused
  induction fuel generalizing bi with
  | zero => omega
  | succ fuel ih =>
    have hB : FSSIZE < BPB := by decide
    rw [Fs.findBit, if_pos ⟨by omega, by omega⟩, hbit bi (by omega)]
    rcases Nat.eq_or_lt_of_le hbi with rfl | hlt
    · rw [if_neg (by simp)]
    · rw [if_pos (by simpa using hlt)]
      exact ih hlt (by omega)

/-- **`balloc`** of the kernel takes the block that `mkfs` takes. -/
theorem balloc (hfit : im.freeblock < FSSIZE) :
    Fs.balloc g = .ok im.freeblock (g.alloc im.freeblock) := by
  have hB : FSSIZE < BPB := by decide
  have hfind := h.findBit hfit (Nat.zero_le _) (show im.freeblock < 0 + BPB by omega)
  have h0 : Mkfs.sb.bblock 0 = Mkfs.sb.bmapstart := bblock_eq (by decide)
  show Fs.ballocLoop g.sb (g.sb.size / BPB + 1) 0 g = _
  rw [Fs.ballocLoop, h.sb, if_pos (by decide), bind_of_ok (Fs.bread_run _ _), h0]
  have hfind' : Fs.findBit (g.view Mkfs.sb.bmapstart) 0 Mkfs.sb.size BPB 0 = some im.freeblock := hfind
  rw [hfind']
  unfold Fs.alloc
  rw [h.sb, bblock_eq hfit, mod_bpb hfit]
  simp only [Nat.zero_add]
  rfl

end

end Shows

/-! ### `iappend` simulates `writei` -/

section Sims

variable {α β γ δ : Type} {im : Img} {g : Fs} {e : Fin NINODE}

theorem wp_rsect {Q : Block → Img → Prop} {A : Stop → Img → Prop} {b : ℕ} :
    wp (rsect b) Q A im ↔ Q (im.disk b) im := Iff.rfl

theorem wp_wsect {Q : Unit → Img → Prop} {A : Stop → Img → Prop} {b : ℕ} {v : Block} :
    wp (wsect b v) Q A im ↔ Q () { im with disk := update im.disk b v } := Iff.rfl

theorem wp_nextBlock {Q : ℕ → Img → Prop} {A : Stop → Img → Prop} :
    wp nextBlock Q A im ↔ Q im.freeblock { im with freeblock := im.freeblock + 1 } := Iff.rfl

/-- The program takes blocks and makes no inodes. -/
def Mono (m : Prog Img α) : Prop :=
  ∀ im, wp m (fun _ t => im.freeblock ≤ t.freeblock ∧ t.freeinode = im.freeinode) (fun _ _ => True) im

theorem mono_pure (a : α) : Mono (pure a : Prog Img α) := fun _ => ⟨le_rfl, rfl⟩

theorem mono_rsect (b : ℕ) : Mono (rsect b) := fun _ => ⟨le_rfl, rfl⟩

theorem mono_wsect (b : ℕ) (v : Block) : Mono (wsect b v) := fun _ => ⟨le_rfl, rfl⟩

theorem mono_nextBlock : Mono nextBlock := fun _ => ⟨Nat.le_succ _, rfl⟩

theorem mono_panic (msg : String) : Mono (Prog.panic msg : Prog Img α) := fun _ => trivial

theorem Mono.bind {m : Prog Img α} {m' : α → Prog Img γ} (h : Mono m) (h' : ∀ a, Mono (m' a)) :
    Mono (m >>= m') := by
  intro im
  refine wp_seq (h im) fun a t ht => ?_
  exact wp_post (h' a t) fun _ u hu => ⟨ht.1.trans hu.1, hu.2.trans ht.2⟩

theorem mono_winode (inum : ℕ) (d : Dinode) : Mono (winode inum d) :=
  (mono_rsect _).bind fun _ => mono_wsect _ _

theorem mono_mapSlot (din : Dinode) (k : Fin (NDIRECT + 1)) : Mono (mapSlot din k) := by
  unfold mapSlot
  split_ifs
  · exact mono_nextBlock.bind fun _ => mono_pure _
  · exact mono_pure _

theorem mono_mapBlock (din : Dinode) (fbn : ℕ) : Mono (mapBlock din fbn) := by
  unfold mapBlock
  split_ifs
  · exact mono_mapSlot _ _
  · refine (mono_mapSlot _ _).bind fun r => (mono_rsect _).bind fun v => ?_
    split_ifs
    · exact mono_nextBlock.bind fun _ => (mono_wsect _ _).bind fun _ => mono_pure _
    · exact mono_pure _

theorem mono_iappendLoop (fuel : ℕ) (din : Dinode) (off : ℕ) (p : List Byte) :
    Mono (iappendLoop fuel din off p) := by
  induction fuel generalizing din off p with
  | zero => exact mono_pure _
  | succ fuel ih =>
    rw [iappendLoop]
    split_ifs
    · exact (mono_mapBlock _ _).bind fun r => (mono_rsect _).bind fun v => (mono_wsect _ _).bind fun _ =>
        ih _ _ _
    · exact mono_panic _
    · exact mono_pure _

theorem mono_iappend (inum : ℕ) (p : List Byte) : Mono (iappend inum p) :=
  ((mono_rsect _).bind fun _ => mono_pure _).bind fun _ =>
    (mono_iappendLoop _ _ _ _).bind fun _ => mono_winode _ _

/-- What the program does to an image that fits the disk, the kernel does to the state that shows it. -/
def Sims (m : Prog Img α) (k : Prog Fs β) (im : Img) (g : Fs) (out : α → β → Img → Fs → Prop) : Prop :=
  wp m (fun a t => t.freeblock ≤ FSSIZE → ∃ b g', k g = .ok b g' ∧ out a b t g') (fun _ _ => True) im

theorem Sims.bind {m : Prog Img α} {m' : α → Prog Img γ} {k : Prog Fs β} {k' : β → Prog Fs δ}
    {mid : α → β → Img → Fs → Prop} {out : γ → δ → Img → Fs → Prop} (h : Sims m k im g mid)
    (hmono : ∀ a, Mono (m' a))
    (h' : ∀ a b t g', t.freeblock ≤ FSSIZE → mid a b t g' → Sims (m' a) (k' b) t g' out) :
    Sims (m >>= m') (k >>= k') im g out := by
  unfold Sims
  refine wp_seq h fun a t ht => ?_
  by_cases hfit : t.freeblock ≤ FSSIZE
  · obtain ⟨b, g', hk, hmid⟩ := ht hfit
    refine wp_post (h' a b t g' hfit hmid) fun c u hu hfit' => ?_
    obtain ⟨d, g'', hk', hout⟩ := hu hfit'
    exact ⟨d, g'', by rw [bind_of_ok hk, hk'], hout⟩
  · -- the image is too large already
    exact wp_post (hmono a t) fun c u hu hfit' => absurd (hu.1.trans hfit') hfit

theorem Sims.pure {a : α} {b : β} {out : α → β → Img → Fs → Prop} (h : out a b im g) :
    Sims (Pure.pure a) (Pure.pure b) im g out := fun _ => ⟨b, g, rfl, h⟩

theorem Sims.and_wp {m : Prog Img α} {k : Prog Fs β} {out : α → β → Img → Fs → Prop}
    {Q : β → Fs → Prop} {A : Stop → Fs → Prop} (h : Sims m k im g out) (hk : wp k Q A g) :
    Sims m k im g fun a b t g' => out a b t g' ∧ Q b g' := by
  refine wp_post h fun a t ht hfit => ?_
  obtain ⟨b, g', hrun, hout⟩ := ht hfit
  exact ⟨b, g', hrun, hout, wp_ok hk hrun⟩

/-- The blocks of the files are between the meta blocks and `freeblock`. -/
theorem Shows.block_range (h : Shows im g) (hs : FsInv g (some e)) {x : ℕ} {p : ℕ × Slot} (hx : x ≠ 0)
    (hp : g.slots (some e) p = x) : nmeta ≤ x ∧ x < im.freeblock ∧ x < FSSIZE := by
  subst hp
  obtain ⟨h1, h2⟩ := hs.slot_range hx
  rw [h.sb, dataStart_eq] at h1
  have h2' : g.slots (some e) p < FSSIZE := by
    rwa [h.sb] at h2
  have hused := hs.owns.used_own hx
  rw [h.used _ h2'] at hused
  exact ⟨h1, by simpa using hused, h2'⟩

theorem ne_bmapstart {x : ℕ} (hx : nmeta ≤ x) : x ≠ sb.bmapstart := by
  have : sb.bmapstart < nmeta := by decide
  omega

/-- **An address of the inode.** -/
theorem mapSlot_sims (h : Shows im g) {din : Dinode} (hd : (g.inode e).toDinode = din)
    (k : Fin (NDIRECT + 1)) :
    Sims (mapSlot din k) (Fs.mapSlot e k) im g fun r x t g' =>
      x = r.2 ∧ x ≠ 0 ∧ Shows t g' ∧ (g'.inode e).toDinode = r.1 := by
  subst hd
  have hlo := h.lo
  have hmeta : 0 < nmeta := by decide
  unfold mapSlot Sims
  split_ifs with h0
  · rw [wp_bind, wp_nextBlock, wp_pure]
    intro hfit
    replace hfit : im.freeblock + 1 ≤ FSSIZE := hfit
    have hne : im.freeblock ≠ 0 := by omega
    refine ⟨im.freeblock, (g.alloc im.freeblock).upd e fun ip =>
      { ip with addrs := update ip.addrs k (BitVec.ofNat 32 im.freeblock) }, ?_, ?_, hne, ?_, ?_⟩
    · unfold Fs.mapSlot
      rw [bind_of_ok (get_run g), if_pos h0, bind_of_ok (h.balloc (by omega)), if_neg hne]
      rfl
    · show im.freeblock = (update (g.inode e).addrs k (BitVec.ofNat 32 im.freeblock) k).toNat
      have hF : FSSIZE < 2 ^ 32 := by decide
      rw [update_self, BitVec.toNat_ofNat, Nat.mod_eq_of_lt (by omega)]
    · exact (h.alloc (by omega)).congr rfl rfl rfl
    · rw [Fs.upd_addr]
      rfl
  · intro _
    refine ⟨((g.inode e).addrs k).toNat, g, ?_, rfl, h0, h, rfl⟩
    unfold Fs.mapSlot
    rw [bind_of_ok (get_run g), if_neg h0]
    rfl

section

-- the cases of a hypothesis do not run the programs of the goal
attribute [local irreducible] Sims

/-- **An entry of the indirect block** `ind`, of a file whose inode is `din` by now. -/
theorem mapEntry_sims (h : Shows im g) {din : Dinode} (hd : (g.inode e).toDinode = din) {ind : ℕ}
    (h1 : nmeta ≤ ind) (h2 : ind < im.freeblock) {k : ℕ} (hk : k < NINDIRECT) :
    Sims
      (do
        let indirect ← rsect ind
        if indirect.getLE 4 (4 * k) = 0 then
          let x ← nextBlock
          wsect ind (indirect.putLE 4 (4 * k) x)
          return (din, (indirect.putLE 4 (4 * k) x).getLE 4 (4 * k))
        else
          return (din, indirect.getLE 4 (4 * k)))
      (do
        let data ← Fs.bread ind
        let addr := data.getLE 4 (4 * k)
        if addr = 0 then
          let addr ← Fs.balloc
          if addr ≠ 0 then
            Fs.logWrite ind (data.putLE 4 (4 * k) addr)
          return addr
        else
          return addr)
      im g fun r x t g' => x = r.2 ∧ x ≠ 0 ∧ Shows t g' ∧ (g'.inode e).toDinode = r.1 := by
  have hview : g.view ind = im.disk ind := h.view (ne_bmapstart h1)
  have hlo := h.lo
  have hmeta : 1 < nmeta := by decide
  unfold Sims
  rw [wp_bind, wp_rsect]
  split_ifs with hz
  · rw [wp_bind, wp_nextBlock, wp_bind, wp_wsect, wp_pure]
    intro hfit
    replace hfit : im.freeblock + 1 ≤ FSSIZE := hfit
    have hne : im.freeblock ≠ 0 := by omega
    refine ⟨im.freeblock, (g.alloc im.freeblock).write ind
      ((g.view ind).putLE 4 (4 * k) im.freeblock), ?_, ?_, hne, ?_, hd⟩
    · rw [bind_of_ok (Fs.bread_run g ind)]
      rw [if_pos (by rwa [hview]), bind_of_ok (h.balloc (by omega)), if_pos hne]
      rfl
    · show im.freeblock = ((im.disk ind).putLE 4 (4 * k) im.freeblock).getLE 4 _
      have hF : FSSIZE < 256 ^ 4 := by decide
      rw [Bytes.getLE_putLE_self _ _ (by simp only [NINDIRECT, BSIZE] at *; omega),
        Nat.mod_eq_of_lt (by omega)]
    · rw [hview]
      exact (h.alloc (by omega)).write (ne_bmapstart h1) (by omega) (show ind < im.freeblock + 1 by omega) _
  · intro _
    refine ⟨(im.disk ind).getLE 4 (4 * k), g, ?_, rfl, hz, h, hd⟩
    rw [bind_of_ok (Fs.bread_run g ind)]
    rw [if_neg (by rwa [hview]), hview]
    rfl

/-- **A block of the file.** -/
theorem mapBlock_sims (h : Shows im g) (hs : FsInv g (some e)) (he : g.Live e) {din : Dinode}
    (hd : (g.inode e).toDinode = din) {fbn : ℕ} (hfbn : fbn < MAXFILE) :
    Sims (mapBlock din fbn) (Fs.bmap e fbn) im g fun r x t g' =>
      x = r.2 ∧ x ≠ 0 ∧ Shows t g' ∧ (g'.inode e).toDinode = r.1 := by
  unfold mapBlock Fs.bmap
  split_ifs with hdir
  · exact mapSlot_sims h hd _
  · have hind : fbn - NDIRECT < NINDIRECT := by
      simp only [MAXFILE, NDIRECT, NINDIRECT] at *
      omega
    rw [if_pos hind]
    refine Sims.bind ((mapSlot_sims h hd _).and_wp (Fs.wp_mapSlot_indirect hs he)) (fun r => ?_) ?_
    · refine (mono_rsect _).bind fun v => ?_
      split_ifs
      · exact mono_nextBlock.bind fun _ => (mono_wsect _ _).bind fun _ => mono_pure _
      · exact mono_pure _
    intro r ind t g' hfit hpost
    obtain ⟨⟨hx, h0, ht, hd'⟩, hfound, -⟩ := hpost
    obtain ⟨hinv, hg, hfill, -⟩ := hfound.mapped hs
    obtain ⟨h1, h2, -⟩ := ht.block_range hinv h0 (hfill h0)
    rw [if_neg h0, ← hx]
    exact mapEntry_sims ht hd' h1 h2 hind

/-- A source with the bytes of a list. -/
def listSource (p : List Byte) : Source where
  copyin tot m := ((p.drop tot).take m, decide (tot + m ≤ p.length))
  length_le tot m := by simp
  length_eq tot m h := by
    have : tot + m ≤ p.length := by simpa using h
    simp only [length_take, length_drop]
    omega

theorem listSource_reads (p : List Byte) : (listSource p).Reads fun k => p[k]?.getD 0 := by
  intro tot m j b h
  have hj : ((p.drop tot).take m)[j]? = some b := h
  rw [getElem?_take] at hj
  split_ifs at hj
  rw [getElem?_drop] at hj
  simp [hj]

theorem block_rest (off : ℕ) : (off / BSIZE + 1) * BSIZE - off = BSIZE - off % BSIZE := by
  show (off / 1024 + 1) * 1024 - off = 1024 - off % 1024
  omega

theorem block_start (off : ℕ) : off - off / BSIZE * BSIZE = off % BSIZE := by
  show off - off / 1024 * 1024 = off % 1024
  omega

/-- **The loop of `iappend`** does what the loop of `writei` does. -/
theorem iappendLoop_sims {p : List Byte} {fuel tot off : ℕ} {din : Dinode} (h : Shows im g)
    (hs : FsInv g (some e)) (he : g.Live e) (hd : (g.inode e).toDinode = din) (htot : tot ≤ p.length)
    (hfuel : p.length - tot ≤ fuel) :
    Sims (iappendLoop fuel din off (p.drop tot)) (Fs.writeiLoop (listSource p) e p.length fuel tot off) im g
      fun r k t g' => k = (p.length, r.2) ∧ r.2 = off + (p.length - tot) ∧ Shows t g' ∧
        (g'.inode e).toDinode = r.1 := by
  induction fuel generalizing im g din tot off with
  | zero =>
    have : tot = p.length := by omega
    exact Sims.pure ⟨by rw [this], by show off = _; omega, h, hd⟩
  | succ fuel ih =>
    rw [iappendLoop, Fs.writeiLoop, length_drop]
    by_cases hlt : tot < p.length
    swap
    · rw [if_neg (by omega), if_neg hlt]
      have : tot = p.length := by omega
      exact Sims.pure ⟨by rw [this], by show off = _; omega, h, hd⟩
    rw [if_pos (by omega), if_pos hlt]
    by_cases hmax : off / BSIZE < MAXFILE
    swap
    · rw [if_neg hmax]
      unfold Sims
      trivial
    rw [if_pos hmax]
    obtain ⟨k, hk⟩ := Dinode.blockSlot_of_lt hmax
    refine Sims.bind ((mapBlock_sims h hs he hd hmax).and_wp (Fs.wp_bmap hs he hk)) (fun r => ?_) ?_
    · exact (mono_rsect _).bind fun _ => (mono_wsect _ _).bind fun _ => mono_iappendLoop _ _ _ _
    rintro r addr t g' - ⟨⟨haddr, h0, ht, hd'⟩, hinv, hg, hfill, -⟩
    obtain ⟨h1, h2, h3⟩ := ht.block_range hinv h0 (hfill h0)
    have hmeta : 1 < nmeta := by decide
    rw [← haddr, block_rest, block_start]
    set m := min (p.length - tot) (BSIZE - off % BSIZE) with hm
    have hmod : off % BSIZE < BSIZE := Nat.mod_lt _ (by decide)
    have hcopy : (listSource p).copyin tot m = ((p.drop tot).take m, true) := by
      have hle : tot + m ≤ p.length := by omega
      simp [listSource, hle]
    have hlen : ((p.drop tot).take m).length = m := by
      simp only [length_take, length_drop]
      omega
    have hv : ∀ j, (j < off % BSIZE ∨ off % BSIZE + m ≤ j) →
        ((g'.view addr).blit (off % BSIZE) ((p.drop tot).take m)).get j = (g'.view addr).get j := by
      intro j hj
      exact Bytes.get_blit_of_not_mem _ (by omega)
    have hp : g'.slots (some e) ((g'.inode e).inum, k) = addr := by
      rw [hg.inum]
      exact hfill h0
    obtain ⟨hinv', hw, -⟩ := Fs.wrote_block hinv hk h0 hp hv
      (t := g'.write addr ((g'.view addr).blit (off % BSIZE) ((p.drop tot).take m))) rfl rfl
      Fs.view_write (fun c hc => update_of_ne hc _ _)
    have hlive := (hw.live e).2 ((hg.live e).2 he)
    have hshows := ht.write (ne_bmapstart h1) (by omega) h2
      ((g'.view addr).blit (off % BSIZE) ((p.drop tot).take m))
    have hnext : Sims (iappendLoop fuel r.1 (off + m) (p.drop (tot + m)))
        (Fs.writeiLoop (listSource p) e p.length fuel (tot + m) (off + m)) _ _ _ :=
      ih hshows hinv' hlive hd' (by omega) (by omega)
    unfold Sims at hnext ⊢
    rw [wp_bind, wp_rsect, wp_bind, wp_wsect, drop_drop, ← ht.view (ne_bmapstart h1)]
    refine wp_post hnext fun r' u hu hfit => ?_
    obtain ⟨k', g₂, hrun, hout, hoff, hu⟩ := hu hfit
    refine ⟨k', g₂, ?_, hout, by omega, hu⟩
    rwa [if_neg h0, bind_of_ok (Fs.bread_run g' addr), hcopy]

end

theorem iblock_range {inum : ℕ} (hi : inum < NINODES) : 1 < sb.iblock inum ∧
    sb.iblock inum < sb.bmapstart := by
  have hlt := sb_ok.iblock_lt (i := inum) hi
  refine ⟨?_, hlt⟩
  have := Nat.zero_le (inum / IPB)
  show 1 < inum / IPB + (2 + LOGSIZE)
  omega

/-- The inode `mkfs` reads. -/
theorem Shows.dinode (h : Shows im g) {inum : ℕ} (hi : inum < NINODES) :
    decodeDinode (im.disk (Mkfs.sb.iblock inum)) (inum % IPB) = g.vol.dinode inum := by
  rw [Fs.vol_dinode (by rwa [h.sb]), h.sb, h.view (iblock_range hi).2.ne]

/-- **`iappend`** does what `writei` does at the end of the file. -/
theorem iappend_sims {p : List Byte} (h : Shows im g) (hs : FsInv g none) (he : g.Live e)
    (hmax : (g.inode e).size.toNat + p.length ≤ MAXFILE * BSIZE) :
    Sims (iappend (g.inode e).inum p)
      (Fs.writei (listSource p) e (g.inode e).size (BitVec.ofNat 32 p.length)) im g
      fun _ r t g' => r = BitVec.ofNat 32 p.length ∧ Shows t g' := by
  have hM : MAXFILE * BSIZE < 2 ^ 32 := by decide
  have hinum : (g.inode e).inum < NINODES := by
    have := (hs.inum e he.1).2
    rwa [h.sb] at this
  have hlen : (BitVec.ofNat 32 p.length).toNat = p.length := by
    rw [BitVec.toNat_ofNat, Nat.mod_eq_of_lt (by omega)]
  have hsum : ((g.inode e).size + BitVec.ofNat 32 p.length).toNat = (g.inode e).size.toNat + p.length := by
    rw [BitVec.toNat_add, hlen, Nat.mod_eq_of_lt (by omega)]
  have hcopy : (g.inode e).toDinode = g.vol.dinode (g.inode e).inum := (hs.copy e he).2 (by simp)
  obtain ⟨hb1, hb2⟩ := iblock_range hinum
  have hbad : ¬((g.inode e).size > (g.inode e).size ∨
      (g.inode e).size + BitVec.ofNat 32 p.length < (g.inode e).size) := by
    rw [gt_iff_lt, BitVec.lt_def, BitVec.lt_def, hsum]
    omega
  have hloop : Sims (iappendLoop p.length (g.inode e).toDinode (g.inode e).size.toNat p)
      (Fs.writeiLoop (listSource p) e p.length p.length 0 (g.inode e).size.toNat) im g _ :=
    (iappendLoop_sims h (hs.lock he) he rfl (Nat.zero_le _) le_rfl).and_wp
      (Fs.wp_writeiLoop (f := fun _ => 0) (hs.lock he) he (Nat.zero_le _) le_rfl (by omega))
  unfold Sims iappend rinode
  rw [wp_bind, wp_bind, wp_rsect, wp_pure, h.dinode hinum, ← hcopy]
  refine wp_seq hloop fun r t ht => ?_
  unfold winode
  rw [wp_bind, wp_rsect, wp_wsect]
  intro hfit
  obtain ⟨k, g', hrun, ⟨rfl, hoff, hshows, hdin⟩, hfilled⟩ := ht hfit
  rw [Nat.sub_zero] at hoff
  have hinum' := hfilled.wrote.inum
  have hlo := hshows.lo
  have hmeta : sb.bmapstart < nmeta := by decide
  -- the inode that the kernel writes
  have hself : (g'.setSize e r.2).inode e = { g'.inode e with size := BitVec.ofNat 32 r.2 } :=
    Fs.setSize_self g' e r.2
  have hupdate : (g'.setSize e r.2).update e = (g'.setSize e r.2).write (sb.iblock (g.inode e).inum)
      (encodeDinode (t.disk (sb.iblock (g.inode e).inum)) ((g.inode e).inum % IPB)
        { r.1 with size := BitVec.ofNat 32 r.2 }) := by
    have hview : (g'.setSize e r.2).view (sb.iblock (g.inode e).inum) =
      t.disk (sb.iblock (g.inode e).inum) :=
      hshows.view hb2.ne
    unfold Fs.update
    rw [hself, show (g'.setSize e r.2).sb = sb from hshows.sb]
    show (g'.setSize e r.2).write (sb.iblock (g'.inode e).inum) (encodeDinode _ ((g'.inode e).inum % IPB)
      { (g'.inode e).toDinode with size := BitVec.ofNat 32 r.2 }) = _
    rw [hinum', hview, hdin]
  refine ⟨BitVec.ofNat 32 p.length, (g'.setSize e r.2).update e, ?_, rfl, ?_⟩
  · unfold Fs.writei
    rw [bind_of_ok (get_run g), if_neg hbad, if_neg (by omega), hlen, bind_of_ok hrun]
    change (if r.2 > (g.inode e).size.toNat then
        (Prog.modify fun s => s.upd e fun ip => { ip with size := BitVec.ofNat 32 r.2 }) >>= fun _ =>
          Fs.iupdate e >>= fun _ => pure (BitVec.ofNat 32 p.length)
      else Fs.iupdate e >>= fun _ => pure (BitVec.ofNat 32 p.length) : Prog Fs (BitVec 32)) g' = _
    by_cases hbig : r.2 > (g.inode e).size.toNat
    · rw [if_pos hbig]
      rfl
    · rw [if_neg hbig]
      have hsame : g'.setSize e r.2 = g' := by
        refine Fs.setSize_eq_self ?_
        rw [hfilled.wrote.size, show r.2 = (g.inode e).size.toNat by omega, BitVec.ofNat_toNat,
          BitVec.setWidth_eq]
      rw [hsame]
      rfl
  · rw [hupdate]
    have hsize : Shows t (g'.setSize e r.2) := hshows.congr rfl rfl rfl
    exact hsize.write hb2.ne hb1 (by omega) _

end Sims

end Mkfs

end Xv6
