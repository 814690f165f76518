import Xv6.Fs.Mkfs

/-!
# The image `mkfs` writes

As `iappend` simulates `writei`, the invariant of the kernel and what `writei` writes carry over to the
image: `Good im l` says that a kernel with its invariant shows the image, with the files `l`.

* `Mkfs.Good.iappend`, `Mkfs.Good.ialloc`: what `iappend` and `ialloc` do to the files on the image;
* `Mkfs.Laid`, `Mkfs.main_laid`: the image at the end, which has the size of the root directory rounded up;
* `Mkfs.main_inv`: the image has the kernel's invariant, exactly if the entries of the root directory do
  not fill its blocks.
-/

namespace Xv6

open Stateful Function List

namespace Mkfs

/-! ### The files on an image -/

section Good

variable {im : Img} {g : Fs}

/-- An entry of the inode table that nobody refers to. -/
def unused : Inode := ⟨Dinode.zero, 0, 0, 0, false⟩

/-- The state with no inode in memory. -/
def closed (g : Fs) : Fs := { g with inode := fun _ => unused }

/-- The state with one inode in memory. -/
def withEntry (g : Fs) (inum : ℕ) : Fs :=
  { g with inode := fun e => if e = 0 then ⟨g.vol.dinode inum, ROOTDEV, inum, 1, true⟩ else unused }

theorem withEntry_self (g : Fs) (inum : ℕ) :
    (withEntry g inum).inode 0 = ⟨g.vol.dinode inum, ROOTDEV, inum, 1, true⟩ := by simp [withEntry]

theorem withEntry_live (g : Fs) (inum : ℕ) : (withEntry g inum).Live 0 := by
  rw [Fs.Live, withEntry_self]
  exact ⟨Nat.one_pos, rfl⟩

theorem withEntry_ref {e : Fin NINODE} {inum : ℕ} (h : 0 < ((withEntry g inum).inode e).ref) : e = 0 := by
  by_contra hne
  rw [show (withEntry g inum).inode e = unused by simp [withEntry, hne]] at h
  exact Nat.lt_irrefl 0 h

theorem closed_inv (h : FsInv g none) : FsInv (closed g) none :=
  h.of_table rfl rfl rfl (fun _ hr => absurd hr (Nat.lt_irrefl 0))
    (fun _ _ hr => absurd hr (Nat.lt_irrefl 0))
    fun _ hl => absurd hl.1 (Nat.lt_irrefl 0)

theorem withEntry_inv (h : FsInv g none) {inum : ℕ} (hi : inum < g.sb.ninodes)
    (ht : (g.vol.dinode inum).type ≠ 0) : FsInv (withEntry g inum) none := by
  refine h.of_table rfl rfl rfl (fun e hr => ?_) (fun e e' hr hr' _ => ?_) fun e hl => ?_
  · cases withEntry_ref hr
    rw [withEntry_self]
    exact ⟨rfl, hi⟩
  · rw [withEntry_ref hr, withEntry_ref hr']
  · cases withEntry_ref hl.1
    rw [withEntry_self]
    exact ⟨ht, rfl⟩

/-- The inode has no direct block beyond its size. -/
def Tight (d : Dinode) : Prop :=
  ∀ k : Fin (NDIRECT + 1), k.val < NDIRECT → d.size.toNat ≤ k.val * BSIZE → (d.addrs k).toNat = 0

/-- The inodes from 1 on have these types and contents, and the others are free. -/
structure Files (g : Fs) (l : List (BitVec 16 × List Byte)) : Prop where
  node : ∀ j d cs, l[j]? = some (d, cs) → (g.vol.dinode (j + 1)).type = d ∧ d ≠ 0 ∧
    (g.vol.dinode (j + 1)).size.toNat = cs.length ∧ ∀ k b, cs[k]? = some b → g.byte none (j + 1) k = b
  free : ∀ i, l.length < i → g.vol.dinode i = Dinode.zero
  root : Tight (g.vol.dinode ROOTINO)

/-- The image holds these files. -/
def Good (im : Img) (l : List (BitVec 16 × List Byte)) : Prop :=
  l.length < NINODES ∧ ∃ g, Shows im g ∧ FsInv g none ∧ Files g l

/-- The same, if the image fits the disk. -/
structure Fits (im : Img) (l : List (BitVec 16 × List Byte)) : Prop where
  freeinode : im.freeinode = l.length + 1
  good : im.freeblock ≤ FSSIZE → Good im l

theorem iappendLoop_short (fuel : ℕ) (din : Dinode) (off : ℕ) (p : List Byte) (hfuel : p.length ≤ fuel)
    (hoff : off ≤ MAXFILE * BSIZE) :
    wp (iappendLoop fuel din off p) (fun _ _ => off + p.length ≤ MAXFILE * BSIZE) (fun _ _ => True) im := by
  induction fuel generalizing im din off p with
  | zero =>
    show off + p.length ≤ _
    omega
  | succ fuel ih =>
    rw [iappendLoop]
    split_ifs with hp hmax
    · refine wp_seq (mono_mapBlock _ _ im) fun r t _ => ?_
      rw [wp_bind, wp_rsect, wp_bind, wp_wsect, block_rest]
      have hle : (off / BSIZE + 1) * BSIZE ≤ MAXFILE * BSIZE := Nat.mul_le_mul_right _ hmax
      have hrest := block_rest off
      have hmod : off % BSIZE < BSIZE := Nat.mod_lt _ (by decide)
      have hlen : (p.drop (min p.length (BSIZE - off % BSIZE))).length =
          p.length - min p.length (BSIZE - off % BSIZE) := length_drop
      refine wp_post (ih _ _ _ (by omega) (by omega)) fun _ _ h => ?_
      omega
    · trivial
    · show off + p.length ≤ _
      omega

/-- `mapBlock` changes no other direct address than that of its block. -/
theorem wp_mapBlock_addrs (din : Dinode) (fbn : ℕ) :
    wp (mapBlock din fbn) (fun r _ => ∀ k : Fin (NDIRECT + 1), k.val < NDIRECT → k.val ≠ fbn →
      r.1.addrs k = din.addrs k) (fun _ _ => True) im := by
  have hslot : ∀ j : Fin (NDIRECT + 1), wp (mapSlot din j) (fun r _ => ∀ k, k ≠ j →
    r.1.addrs k = din.addrs k)
      (fun _ _ => True) im := by
    intro j
    unfold mapSlot
    split_ifs
    · rw [wp_bind, wp_nextBlock, wp_pure]
      exact fun k hk => update_of_ne hk _ _
    · exact fun _ _ => rfl
  unfold mapBlock
  split_ifs with h
  · exact wp_post (hslot _) fun r t hr k _ hk => hr k fun heq => hk (congrArg Fin.val heq)
  · refine wp_seq (hslot _) fun r t hr => ?_
    have hdone : ∀ k : Fin (NDIRECT + 1), k.val < NDIRECT → k.val ≠ fbn → r.1.addrs k = din.addrs k :=
      fun k hk _ => hr k fun heq => by simp [heq, Fs.indirectSlot] at hk
    rw [wp_bind, wp_rsect]
    split_ifs
    · rw [wp_bind, wp_nextBlock, wp_bind, wp_wsect]
      exact hdone
    · exact hdone

/-- The loop of `iappend` allocates blocks up to where it stops. -/
theorem wp_iappendLoop_tight (fuel : ℕ) (din : Dinode) (off : ℕ) (p : List Byte)
    (h : ∀ k : Fin (NDIRECT + 1), k.val < NDIRECT → off ≤ k.val * BSIZE → (din.addrs k).toNat = 0) :
    wp (iappendLoop fuel din off p) (fun r _ => r.2 ≤ off + p.length ∧
      ∀ k : Fin (NDIRECT + 1), k.val < NDIRECT → r.2 ≤ k.val * BSIZE → (r.1.addrs k).toNat = 0)
      (fun _ _ => True) im := by
  induction fuel generalizing im din off p with
  | zero => exact ⟨Nat.le_add_right _ _, h⟩
  | succ fuel ih =>
    rw [iappendLoop]
    split_ifs with hp hmax
    · refine wp_seq (wp_mapBlock_addrs din _) fun r t hr => ?_
      rw [wp_bind, wp_rsect, wp_bind, wp_wsect, block_rest]
      have hmod : off % BSIZE < BSIZE := Nat.mod_lt _ (by decide)
      refine wp_post (ih _ _ _ fun k hk hle => ?_) fun _ _ hres => ⟨?_, hres.2⟩
      · -- the block taken is below the new offset
        have hne : k.val ≠ off / BSIZE := by
          intro heq
          have := Nat.div_mul_le_self off BSIZE
          rw [heq] at hle
          omega
        rw [hr k hk hne]
        exact h k hk (by omega)
      · have := hres.1
        rw [length_drop] at this
        omega
    · trivial
    · exact ⟨Nat.le_add_right _ _, h⟩

/-- The root directory has no direct block beyond its size when `iappend` has appended to it. -/
theorem wp_iappend_tight {p : List Byte}
    (h : Tight (decodeDinode (im.disk (sb.iblock ROOTINO)) (ROOTINO % IPB)))
    (hmax : (decodeDinode (im.disk (sb.iblock ROOTINO)) (ROOTINO % IPB)).size.toNat + p.length < 2 ^ 32) :
    wp (iappend ROOTINO p)
      (fun _ t => Tight (decodeDinode (t.disk (sb.iblock ROOTINO)) (ROOTINO % IPB)))
      (fun _ _ => True) im := by
  unfold iappend rinode winode
  rw [wp_bind, wp_bind, wp_rsect, wp_pure]
  refine wp_seq (wp_iappendLoop_tight _ _ _ _ h) fun r t hr => ?_
  rw [wp_bind, wp_rsect, wp_wsect]
  dsimp only
  rw [update_self, decodeDinode_encodeDinode_self _ _ (show ROOTINO % IPB < IPB by decide)]
  intro k hk hle
  refine hr.2 k hk ?_
  have hsize : (BitVec.ofNat 32 r.2).toNat = r.2 := by
    rw [BitVec.toNat_ofNat, Nat.mod_eq_of_lt (by omega)]
  have hle' : (BitVec.ofNat 32 r.2).toNat ≤ k.val * BSIZE := hle
  rwa [hsize] at hle'

/-- What `writei` at the end of a file makes of the files. -/
theorem Files.append {l : List (BitVec 16 × List Byte)} (h : Files g l) {j : ℕ} {d : BitVec 16}
    {c p : List Byte} {g' : Fs} (hj : l[j]? = some (d, c)) (hmax : c.length + p.length ≤ MAXFILE * BSIZE)
    (hw : Fs.Written (listSource p) (fun k => p[k]?.getD 0) 0 c.length p.length p.length
      (withEntry g (j + 1)) g') (hroot : j = 0 → Tight (g'.vol.dinode ROOTINO)) :
    Files (closed g') (l.set j (d, c ++ p)) := by
  have hM : MAXFILE * BSIZE < 2 ^ 32 := by decide
  have hjl : j < l.length := (List.getElem?_eq_some_iff.1 hj).1
  obtain ⟨htype, hd, hsize, hbytes⟩ := h.node j d c hj
  have hself := withEntry_self g (j + 1)
  obtain ⟨a, ha⟩ := hw.self
  have hdinode : g'.vol.dinode = update g.vol.dinode (j + 1) (g'.inode 0).toDinode := by
    have := hw.dinode
    rwa [hself] at this
  have hother : ∀ i, i ≠ j + 1 → g'.vol.dinode i = g.vol.dinode i := by
    intro i hi
    rw [hdinode, update_of_ne hi]
  refine ⟨fun j' d' c' hj' => ?_, fun i hi => ?_, ?_⟩
  · show (g'.vol.dinode (j' + 1)).type = d' ∧ d' ≠ 0 ∧ (g'.vol.dinode (j' + 1)).size.toNat = c'.length ∧
      ∀ k b, c'[k]? = some b → g'.byte none (j' + 1) k = b
    rw [getElem?_set] at hj'
    split_ifs at hj' with hjj
    · -- the file
      subst hjj
      cases hj'
      have hnew : g'.vol.dinode (j + 1) = { g.vol.dinode (j + 1) with
          addrs := a, size := BitVec.ofNat 32 (max c.length (c.length + p.length)) } := by
        rw [hdinode, update_self, ha, hself]
        rw [← hsize]
      refine ⟨by rwa [hnew], hd, ?_, fun k b hk => ?_⟩
      · rw [hnew]
        rw [BitVec.toNat_ofNat, Nat.mod_eq_of_lt (by omega), length_append]
        omega
      · have hinum : ((withEntry g (j + 1)).inode 0).inum = j + 1 := by rw [hself]
        rcases lt_or_ge k c.length with hlt | hge
        · rw [getElem?_append_left hlt] at hk
          rw [hw.bytes _ _ fun _ => .inl hlt]
          exact hbytes k b hk
        · rw [getElem?_append_right hge] at hk
          have hlt : k - c.length < p.length := (List.getElem?_eq_some_iff.1 hk).1
          have hval := hw.written (listSource_reads p) k hge (by omega)
          rw [hinum] at hval
          rw [hval, hk, Option.getD_some]
    · obtain ⟨h1, h2, h3, h4⟩ := h.node j' d' c' hj'
      have hne : j' + 1 ≠ j + 1 := by omega
      rw [hother _ hne]
      refine ⟨h1, h2, h3, fun k b hk => ?_⟩
      rw [hw.bytes _ _ fun hi => absurd (by rw [hself] at hi; exact hi) hne]
      exact h4 k b hk
  · rw [length_set] at hi
    show g'.vol.dinode i = _
    rw [hother i (by omega)]
    exact h.free i hi
  · show Tight (g'.vol.dinode ROOTINO)
    by_cases hj0 : j = 0
    · exact hroot hj0
    · rw [hother ROOTINO (by simp only [ROOTINO]; omega)]
      exact h.root

/-- **`iappend`** appends to one file. -/
theorem Good.iappend {l : List (BitVec 16 × List Byte)} (h : Good im l) {j : ℕ} {d : BitVec 16}
    {c : List Byte} (hj : l[j]? = some (d, c)) (p : List Byte) :
    wp (iappend (j + 1) p) (fun _ t => t.freeblock ≤ FSSIZE → Good t (l.set j (d, c ++ p)))
      (fun _ _ => True) im := by
  obtain ⟨hlt, g, hshows, hinv, hfiles⟩ := h
  have hjl : j < l.length := (List.getElem?_eq_some_iff.1 hj).1
  obtain ⟨htype, hd, hsize, hbytes⟩ := hfiles.node j d c hj
  have hinum : j + 1 < g.sb.ninodes := by
    rw [hshows.sb]
    show j + 1 < NINODES
    omega
  have hentry : FsInv (withEntry g (j + 1)) none := withEntry_inv hinv hinum (by rwa [htype])
  have hlive := withEntry_live g (j + 1)
  have hself := withEntry_self g (j + 1)
  have hs : Shows im (withEntry g (j + 1)) := hshows.congr rfl rfl rfl
  have hM : MAXFILE * BSIZE < 2 ^ 31 := by decide
  have hc : c.length ≤ MAXFILE * BSIZE := by
    have := (hentry.lock hlive).size_le hlive
    rw [hself] at this
    rwa [← hsize]
  by_cases hmax : c.length + p.length ≤ MAXFILE * BSIZE
  swap
  · -- the assertion fails
    unfold Mkfs.iappend rinode
    rw [wp_bind, wp_bind, wp_rsect, wp_pure, hshows.dinode (by omega)]
    refine wp_seq (iappendLoop_short _ _ _ _ le_rfl (by omega)) fun r t hle => ?_
    omega
  have hmax' : ((withEntry g (j + 1)).inode 0).size.toNat + p.length ≤ MAXFILE * BSIZE := by
    rw [hself]
    show (g.vol.dinode (j + 1)).size.toNat + p.length ≤ _
    omega
  have hsim := (iappend_sims hs hentry hlive hmax').and_wp
    (Fs.wp_writei (f := fun k => p[k]?.getD 0) hentry hlive _ _)
  have hinum' : ((withEntry g (j + 1)).inode 0).inum = j + 1 := by rw [hself]
  rw [hinum'] at hsim
  have htight : wp (Mkfs.iappend (j + 1) p)
      (fun _ t => j = 0 → Tight (decodeDinode (t.disk (sb.iblock ROOTINO)) (ROOTINO % IPB)))
      (fun _ _ => True) im := by
    by_cases hj0 : j = 0
    · subst hj0
      have hdin := hshows.dinode (show ROOTINO < NINODES by decide)
      have hroot : (g.vol.dinode ROOTINO).size.toNat = c.length := hsize
      exact wp_post (wp_iappend_tight (by rw [hdin]; exact hfiles.root) (by rw [hdin]; omega))
        fun _ _ ht _ => ht
    · exact wp_post (mono_iappend (j + 1) p im) fun _ _ _ h0 => absurd h0 hj0
  refine wp_mono (wp_and hsim htight) (fun _ t ht hfit => ?_) (fun _ _ _ => trivial)
  obtain ⟨r, g', -, ⟨rfl, hshows'⟩, hinv', hwrote⟩ := ht.1 hfit
  have hlen : (BitVec.ofNat 32 p.length).toNat = p.length := by
    rw [BitVec.toNat_ofNat, Nat.mod_eq_of_lt (by omega)]
  have hwritten : Fs.Written (listSource p) (fun k => p[k]?.getD 0) 0 c.length p.length p.length
      (withEntry g (j + 1)) g' := by
    have hoff : ((withEntry g (j + 1)).inode 0).size.toNat = c.length := by
      rwa [hself]
    rcases hwrote with ⟨-, hneg, -⟩ | ⟨-, tot, htot, hw⟩
    · -- `writei` does not return -1
      have := congrArg BitVec.toNat hneg
      rw [hlen] at this
      have hone : (-1 : BitVec 32).toNat = 2 ^ 32 - 1 := by decide
      omega
    · have hle := hw.le
      rw [hlen] at hle
      have := congrArg BitVec.toNat htot
      rw [hlen, BitVec.toNat_ofNat, Nat.mod_eq_of_lt (by omega)] at this
      subst this
      rwa [hoff, hlen] at hw
  refine ⟨by rwa [length_set], closed g', hshows'.congr rfl rfl rfl, closed_inv hinv', ?_⟩
  refine hfiles.append hj hmax hwritten fun hj0 => ?_
  rw [← hshows'.dinode (by decide)]
  exact ht.2 hj0

/-- The number of the next inode is not part of the image. -/
theorem Shows.freeinode (h : Shows im g) (n : ℕ) : Shows { im with freeinode := n } g :=
  ⟨h.sb, h.dirty, h.disk, h.used, h.fresh, h.lo, h.super⟩

/-- **`ialloc`** makes an empty file. -/
theorem Good.ialloc {l : List (BitVec 16 × List Byte)} (h : Good im l) (hlt : l.length + 1 < NINODES)
    {d : BitVec 16} (hd : d ≠ 0) {v : Block} (hv : v = encodeDinode (im.disk (sb.iblock (l.length + 1)))
      ((l.length + 1) % IPB) { Dinode.zero with type := d, nlink := 1 }) (n : ℕ) :
    Good ⟨update im.disk (sb.iblock (l.length + 1)) v, n, im.freeblock⟩ (l ++ [(d, [])]) := by
  obtain ⟨-, g, hshows, hinv, hfiles⟩ := h
  obtain ⟨hb1, hb2⟩ := iblock_range hlt
  have hlo := hshows.lo
  have hmeta : sb.bmapstart < nmeta := by decide
  have hninodes : l.length + 1 < g.sb.ninodes := by
    rwa [hshows.sb]
  have hfree : g.vol.dinode (l.length + 1) = Dinode.zero := hfiles.free _ (Nat.lt_succ_self _)
  set g' := closed (g.write (sb.iblock (l.length + 1)) v) with hg'
  have hvol : g'.vol = g.vol.setDinode (l.length + 1) { Dinode.zero with type := d, nlink := 1 } := by
    have hwrite := Fs.vol_write_dinode hinv.sb hninodes { Dinode.zero with type := d, nlink := 1 }
    rwa [hshows.sb, hshows.view hb2.ne, ← hv] at hwrite
  have hdata : g'.vol.data = g.vol.data := by
    rw [hvol]
    rfl
  have hdinode : g'.vol.dinode = update g.vol.dinode (l.length + 1)
      { Dinode.zero with type := d, nlink := 1 } := by
    rw [hvol]
    rfl
  refine ⟨by rwa [length_append], g', ?_, ?_, ?_⟩
  · exact ((hshows.write hb2.ne hb1 (by omega) v).freeinode n).congr rfl rfl rfl
  · refine hinv.of_dinode rfl hvol (fun b hb => ?_) (fun k => ?_) rfl rfl
      (fun _ hr => absurd hr (Nat.lt_irrefl 0)) (fun _ _ hr => absurd hr (Nat.lt_irrefl 0))
      fun _ hl => absurd hl.1 (Nat.lt_irrefl 0)
    · show update g.dirty _ none b = none
      rw [update_apply, hb, ite_self]
    · refine if_pos ?_
      show (g.vol.dinode (l.length + 1)).type = 0
      rw [hfree]
      rfl
  · refine ⟨fun j d' c hj => ?_, fun i hi => ?_, ?_⟩
    · rcases lt_or_ge j l.length with hjl | hjl
      · rw [getElem?_append_left hjl] at hj
        obtain ⟨h1, h2, h3, h4⟩ := hfiles.node j d' c hj
        have hne : j + 1 ≠ l.length + 1 := by omega
        have hsame : g'.vol.dinode (j + 1) = g.vol.dinode (j + 1) := by
          rw [hdinode, update_of_ne hne]
        refine ⟨by rwa [hsame], h2, by rwa [hsame], fun k b hk => ?_⟩
        rw [← h4 k b hk]
        have hslot : ∀ sl, g'.slots none (j + 1, sl) = g.slots none (j + 1, sl) := by
          intro sl
          show own g'.vol.dinode g'.vol.data (j + 1, sl) = own g.vol.dinode g.vol.data (j + 1, sl)
          unfold own
          rw [hdata]
          rw [hsame]
        unfold Fs.byte Fs.contents
        rw [hdata]
        split
        · rw [hslot]
        · rfl
      · rw [getElem?_append_right hjl] at hj
        have hzero : j - l.length = 0 := by
          have := (List.getElem?_eq_some_iff.1 hj).1
          rw [length_singleton] at this
          omega
        have hjeq : j = l.length := by omega
        subst hjeq
        rw [hzero] at hj
        cases hj
        rw [hdinode, update_self]
        exact ⟨rfl, hd, rfl, fun k b hk => by simp at hk⟩
    · rw [length_append, length_singleton] at hi
      rw [hdinode, update_of_ne (by omega)]
      exact hfiles.free i (by omega)
    · rw [hdinode]
      by_cases hl : ROOTINO = l.length + 1
      · rw [← hl, update_self]
        exact fun _ _ _ => rfl
      · rw [update_of_ne hl]
        exact hfiles.root

namespace Fits

variable {l rest : List (BitVec 16 × List Byte)}

theorem iappend (h : Fits im l) {j : ℕ} {d : BitVec 16} {c : List Byte} (hj : l[j]? = some (d, c))
    (p : List Byte) :
    wp (iappend (j + 1) p) (fun _ t => Fits t (l.set j (d, c ++ p))) (fun _ _ => True) im := by
  by_cases hfit : im.freeblock ≤ FSSIZE
  · refine wp_mono (wp_and (mono_iappend (j + 1) p im) ((h.good hfit).iappend hj p)) (fun _ t ht => ?_)
      (fun _ _ _ => trivial)
    exact ⟨by rw [ht.1.2, h.freeinode, length_set], ht.2⟩
  · refine wp_post (mono_iappend (j + 1) p im) fun _ t ht => ?_
    exact ⟨by rw [ht.2, h.freeinode, length_set], fun hfit' => absurd (ht.1.trans hfit') hfit⟩

theorem ialloc (h : Fits im l) (hlt : l.length + 1 < NINODES) {d : BitVec 16} (hd : d ≠ 0) :
    wp (ialloc d) (fun inum t => inum = l.length + 1 ∧ Fits t (l ++ [(d, [])])) (fun _ _ => True) im := by
  unfold Mkfs.ialloc winode
  rw [wp_bind, wp_get, wp_bind, wp_modify, wp_bind, wp_bind, wp_rsect, wp_wsect, wp_pure]
  refine ⟨h.freeinode, ?_, fun hfit => ?_⟩
  · show im.freeinode + 1 = _
    rw [h.freeinode, length_append]
    rfl
  · have hgood := (h.good hfit).ialloc hlt hd rfl (im.freeinode + 1)
    rwa [← h.freeinode] at hgood

theorem copyFile (h : Fits im l) {j : ℕ} {d : BitVec 16} {c : List Byte} (hj : l[j]? = some (d, c))
    (bufs : List (List Byte)) :
    wp (copyFile (j + 1) bufs) (fun _ t => Fits t (l.set j (d, c ++ bufs.flatten)))
      (fun _ _ => True) im := by
  induction bufs generalizing im l c with
  | nil =>
    rw [flatten_nil, append_nil]
    have hset : l.set j (d, c) = l := by
      obtain ⟨hlt, hget⟩ := List.getElem?_eq_some_iff.1 hj
      rw [← hget]
      exact set_getElem_self hlt
    rwa [hset]
  | cons buf bufs ih =>
    rw [Mkfs.copyFile]
    refine wp_seq (h.iappend hj buf) fun _ t ht => ?_
    have hlt := (List.getElem?_eq_some_iff.1 hj).1
    refine wp_post (ih ht (getElem?_set_self hlt)) fun _ u hu => ?_
    rwa [set_set, append_assoc] at hu

/-- **One file** is added: an entry in the root directory, and its contents. -/
theorem addFile {rc : List Byte} (h : Fits im ((T_DIR, rc) :: rest)) (hlt : rest.length + 2 < NINODES)
    (f : File) :
    wp (addFile f) (fun _ t => Fits t ((T_DIR, rc ++ dirent (rest.length + 2) f.shortname) ::
      (rest ++ [(T_FILE, f.content)]))) (fun _ _ => True) im := by
  unfold Mkfs.addFile
  split_ifs
  · trivial
  refine wp_seq (h.ialloc hlt (by decide)) ?_
  rintro inum t ⟨rfl, ht⟩
  refine wp_seq (ht.iappend (j := 0) rfl _) fun _ u hu => ?_
  have hj : (((T_DIR, rc) :: rest ++ [(T_FILE, [])]).set 0
      (T_DIR, rc ++ dirent (rest.length + 2) f.shortname))[rest.length + 1]? = some (T_FILE, []) := by
    simp
  refine wp_post (hu.copyFile hj f.reads) fun _ w hw => ?_
  simpa [File.content, set_append] using hw

end Fits

/-- The entries of the root directory for files that get the inodes from `inum` on. -/
def entries : ℕ → List File → List Byte
  | _, [] => []
  | inum, f :: fs => dirent inum f.shortname ++ entries (inum + 1) fs

/-- **The loop of `main`** adds all files. -/
theorem Fits.addFiles {rest : List (BitVec 16 × List Byte)} {rc : List Byte} {files : List File}
    (h : Fits im ((T_DIR, rc) :: rest)) (hlt : rest.length + files.length + 1 < NINODES) :
    wp (addFiles files) (fun _ t => Fits t ((T_DIR, rc ++ entries (rest.length + 2) files) ::
      (rest ++ files.map fun f => (T_FILE, f.content)))) (fun _ _ => True) im := by
  induction files generalizing im rest rc with
  | nil =>
    rwa [entries, append_nil, map_nil, append_nil]
  | cons f fs ih =>
    rw [length_cons] at hlt
    rw [Mkfs.addFiles]
    refine wp_seq (h.addFile (by omega) f) fun _ t ht => ?_
    refine wp_post (ih ht (by rw [length_append, length_singleton]; omega)) fun _ u hu => ?_
    rw [length_append, length_singleton] at hu
    simpa [entries, append_assoc, Nat.add_right_comm] using hu

end Good

/-! ### The whole program -/

theorem getBit_bitmap {n x : ℕ} (hn : n ≤ BSIZE * 8) : (bitmap n).getBit x = decide (x < n) := by
  induction n with
  | zero =>
    simp [bitmap, Bytes.getBit, Bytes.get]
  | succ n ih =>
    rw [bitmap, Bytes.getBit_setBit _ (by omega), ih (by omega), Bool.eq_iff_iff]
    simp only [Bool.or_eq_true, decide_eq_true_eq]
    omega

theorem decodeDinode_zero (k : ℕ) : decodeDinode (fun _ => 0) k = Dinode.zero := by
  unfold decodeDinode Dinode.zero
  simp only [Bytes.getLE_zero]
  rfl

/-- The image with the superblock. -/
def labelled : Img := ⟨update blank.disk 1 superBlock, 1, nmeta⟩

/-- The kernel state that shows it. -/
def labelledFs : Fs :=
  ⟨sb, update labelled.disk sb.bmapstart (bitmap nmeta), fun _ => none, [], fun _ => unused⟩

theorem labelledFs_used {x : ℕ} (hx : x < FSSIZE) : labelledFs.vol.used x = decide (x < nmeta) := by
  have hview : labelledFs.view sb.bmapstart = bitmap nmeta := by
    show update labelled.disk sb.bmapstart (bitmap nmeta) sb.bmapstart = _
    rw [update_self]
  rw [Fs.vol_used (s := labelledFs) hx]
  show (labelledFs.view (sb.bblock x)).getBit (x % BPB) = _
  rw [bblock_eq hx, mod_bpb hx, hview, getBit_bitmap (by decide)]

theorem labelledFs_dinode (i : ℕ) : labelledFs.vol.dinode i = Dinode.zero := by
  by_cases hi : i < NINODES
  · obtain ⟨hb1, hb2⟩ := iblock_range hi
    have hview : labelledFs.view (sb.iblock i) = fun _ => 0 := by
      show update (update blank.disk 1 superBlock) _ _ _ = _
      rw [update_of_ne hb2.ne, update_of_ne hb1.ne']
      rfl
    rw [Fs.vol_dinode (s := labelledFs) hi]
    show decodeDinode (labelledFs.view (sb.iblock i)) _ = _
    rw [hview, decodeDinode_zero]
  · exact Fs.vol_dinode_of_not hi

theorem labelledFs_inv : FsInv labelledFs none where
  sb := sb_ok
  owns := by
    have hslots : labelledFs.slots none = fun _ => 0 := by
      funext p
      refine if_pos ?_
      show (labelledFs.vol.dinode p.1).type = 0
      rw [labelledFs_dinode]
      rfl
    have hlo : 0 < nmeta := by decide
    rw [hslots, show labelledFs.sb.dataStart = nmeta from dataStart_eq]
    refine ⟨hlo, fun _ h => absurd rfl h, fun _ _ h => absurd rfl h, fun x hx => ?_⟩
    rw [labelledFs_used hx, decide_eq_true_eq]
    constructor
    · exact Or.inl
    · rintro (h | ⟨-, rfl⟩)
      · exact h
      · exact hlo
  below i ht := absurd (by
    show (labelledFs.vol.dinode i).type = 0
    rw [labelledFs_dinode]
    rfl) ht
  clean _ _ := rfl
  clean_ind _ _ _ := rfl
  inum _ h := absurd h (Nat.lt_irrefl 0)
  uniq _ _ h := absurd h (Nat.lt_irrefl 0)
  copy _ h := absurd h.1 (Nat.lt_irrefl 0)

theorem labelled_fits : Fits labelled [] := by
  refine ⟨rfl, fun _ => ⟨by decide, labelledFs, ?_, labelledFs_inv, ?_⟩⟩
  · refine ⟨rfl, rfl, fun b hb => update_of_ne hb _ _, fun x hx => labelledFs_used hx,
      fun x h1 h2 => ?_, le_rfl, ?_⟩
    swap
    · show update blank.disk 1 superBlock 1 = superBlock
      rw [update_self]
    have hmeta : 1 < nmeta := by decide
    have hx : nmeta ≤ x := h1
    show update blank.disk 1 superBlock x = _
    rw [update_of_ne (by omega)]
    rfl
  · refine ⟨fun j d c hj => by simp at hj, fun i _ => labelledFs_dinode i, ?_⟩
    rw [labelledFs_dinode]
    exact fun _ _ _ => rfl

/-- The contents of the root directory. -/
def rootContent (files : List File) : List Byte :=
  dirent ROOTINO [0x2e] ++ dirent ROOTINO [0x2e, 0x2e] ++ entries 2 files

/-- The files of the image, in the order of their inodes. -/
def layout (files : List File) : List (BitVec 16 × List Byte) :=
  (T_DIR, rootContent files) :: files.map fun f => (T_FILE, f.content)

theorem wp_makeRoot :
    wp makeRoot (fun _ t => Fits t [(T_DIR, dirent ROOTINO [0x2e] ++ dirent ROOTINO [0x2e, 0x2e])])
      (fun _ _ => True) blank := by
  unfold makeRoot
  rw [wp_bind, wp_wsect]
  refine wp_seq (labelled_fits.ialloc (d := T_DIR) (by decide) (by decide)) ?_
  rintro inum t ⟨rfl, ht⟩
  rw [if_pos (show ([] : List (BitVec 16 × List Byte)).length + 1 = ROOTINO from rfl)]
  refine wp_seq (ht.iappend (j := 0) rfl _) fun _ u hu => ?_
  exact wp_post (hu.iappend (j := 0) rfl _) fun _ w hw => hw

/-- The size `main` gives the root directory. -/
def rounded (n : ℕ) : ℕ := (n / BSIZE + 1) * BSIZE

/-- The kernel's file system after boot: the superblock is read from the image. -/
def booted (im : Img) : Fs := ⟨readsb (im.disk 1), im.disk, fun _ => none, [], fun _ => unused⟩

/-- The image of the files: as the kernel would have written them, but for the size of the root. -/
def Laid (files : List File) (used : ℕ) (s : Fs) : Prop :=
  ∃ g, FsInv g none ∧ g.sb = sb ∧ g.dirty = (fun _ => none) ∧ Files g (layout files) ∧ s.sb = sb ∧
    s.dirty = (fun _ => none) ∧ s.inode = (fun _ => unused) ∧
    s.vol = g.vol.setDinode ROOTINO { g.vol.dinode ROOTINO with
      size := BitVec.ofNat 32 (rounded (rootContent files).length) } ∧
    ∀ x < FSSIZE, s.vol.used x = decide (x < used)

theorem readsb_superBlock : readsb superBlock = sb := by
  have h : superBlock.getLE 4 4 = 2000 ∧ superBlock.getLE 4 8 = 1954 ∧ superBlock.getLE 4 12 = 200 ∧
      superBlock.getLE 4 16 = 30 ∧ superBlock.getLE 4 20 = 2 ∧ superBlock.getLE 4 24 = 32 ∧
      superBlock.getLE 4 28 = 45 := by
    decide +kernel
  obtain ⟨h1, h2, h3, h4, h5, h6, h7⟩ := h
  unfold readsb
  rw [h1, h2, h3, h4, h5, h6, h7]
  rfl

/-- **After boot** the kernel sees what the state that shows the image sees. -/
theorem Shows.after_boot {im : Img} {g : Fs} (h : Shows im g) (hused : im.freeblock ≤ BSIZE * 8) :
    (booted { im with disk := update im.disk Mkfs.sb.bmapstart (bitmap im.freeblock) }).sb = Mkfs.sb ∧
      (booted { im with disk := update im.disk Mkfs.sb.bmapstart (bitmap im.freeblock) }).vol =
        g.vol := by
  set b := booted { im with disk := update im.disk Mkfs.sb.bmapstart (bitmap im.freeblock) } with hb
  have hsb : b.sb = Mkfs.sb := by
    show readsb (update im.disk _ _ 1) = Mkfs.sb
    rw [update_of_ne (by decide), h.super, readsb_superBlock]
  have hview : ∀ c, c ≠ Mkfs.sb.bmapstart → b.view c = g.view c := by
    intro c hc
    rw [h.view hc]
    exact update_of_ne hc _ _
  have hmap : b.view Mkfs.sb.bmapstart = bitmap im.freeblock := by
    show update im.disk Mkfs.sb.bmapstart (bitmap im.freeblock) Mkfs.sb.bmapstart = _
    rw [update_self]
  have hbg : b.sb = g.sb := hsb.trans h.sb.symm
  refine ⟨hsb, Vol.ext (funext fun i => ?_) (funext fun x => ?_) (funext fun x => ?_)⟩
  · refine Fs.vol_dinode_congr hbg fun hi => ?_
    rw [h.sb] at hi ⊢
    exact hview _ (iblock_range hi).2.ne
  · by_cases hx : x < FSSIZE
    · rw [h.used x hx, Fs.vol_used (by rwa [hsb]), hsb, bblock_eq hx, mod_bpb hx, hmap,
        getBit_bitmap hused]
    · rw [Fs.vol_used_of_not (by rwa [hsb]), Fs.vol_used_of_not (by rwa [h.sb])]
  · refine Fs.vol_data_congr hbg fun hx => ?_
    rw [h.sb, dataStart_eq] at hx
    exact hview x (ne_bmapstart hx.1)

/-- The last two steps of `main`. -/
theorem Good.finish {im : Img} {files : List File} (h : Good im (layout files)) :
    wp (do fixRoot; balloc (← Prog.get).freeblock) 
      (fun _ t => Laid files t.freeblock (booted t)) (fun _ _ => True) im := by
  obtain ⟨-, g, hshows, hinv, hfiles⟩ := h
  obtain ⟨-, -, hsize, -⟩ := hfiles.node 0 _ _ rfl
  obtain ⟨hb1, hb2⟩ := iblock_range (show ROOTINO < NINODES by decide)
  set d : Dinode := { g.vol.dinode ROOTINO with
    size := BitVec.ofNat 32 (rounded (rootContent files).length) } with hd
  have hmeta : sb.bmapstart < nmeta := by decide
  have hlo := hshows.lo
  unfold fixRoot rinode winode Mkfs.balloc
  rw [wp_bind, wp_bind, wp_bind, wp_rsect, wp_pure, wp_bind, wp_rsect, wp_wsect, wp_bind, wp_get,
    hshows.dinode (by decide)]
  split_ifs with hused
  swap
  · trivial
  rw [wp_wsect]
  have hsz : (g.vol.dinode ROOTINO).size.toNat = (rootContent files).length := hsize
  rw [hsz]
  have hvol := Fs.vol_write_dinode hinv.sb (show ROOTINO < g.sb.ninodes by rw [hshows.sb]; decide) d
  rw [hshows.sb, hshows.view hb2.ne] at hvol
  set v := encodeDinode (im.disk (sb.iblock ROOTINO)) (ROOTINO % IPB) d with hv
  have hshows' := hshows.write hb2.ne hb1 (by omega) v
  obtain ⟨hsb, hbooted⟩ := hshows'.after_boot hused.le
  exact ⟨g, hinv, hshows.sb, hshows.dirty, hfiles, hsb, rfl, rfl, hbooted.trans hvol,
    fun x hx => (congrFun (congrArg Vol.used hbooted) x).trans (hshows'.used x hx)⟩

theorem mono_finish : Mono (do fixRoot; balloc (← Prog.get).freeblock) := by
  have hget : Mono (Prog.get : Prog Img Img) := fun _ => ⟨le_rfl, rfl⟩
  have hfix : Mono fixRoot :=
    ((mono_rsect _).bind fun _ => mono_pure _).bind fun _ => mono_winode _ _
  refine hfix.bind fun _ => hget.bind fun im => ?_
  unfold balloc
  split_ifs
  · exact mono_wsect _ _
  · exact mono_panic _

/-- **`main`** lays out the files. -/
theorem wp_main {files : List File} (hn : files.length + 2 ≤ NINODES) :
    wp (main files) (fun _ t => t.freeblock ≤ FSSIZE → Laid files t.freeblock (booted t))
      (fun _ _ => True) blank := by
  unfold main
  refine wp_seq wp_makeRoot fun _ t ht => ?_
  rw [wp_bind]
  have hlt : ([] : List (BitVec 16 × List Byte)).length + files.length + 1 < NINODES := by
    rw [length_nil]
    omega
  refine wp_post (ht.addFiles hlt) fun _ u hu => ?_
  by_cases hfit : u.freeblock ≤ FSSIZE
  · exact wp_post (hu.good hfit).finish fun _ w hw _ => hw
  · refine wp_post (mono_finish u) fun _ w hw hfit' => absurd (hw.1.trans hfit') hfit

theorem main_laid {files : List File} {im : Img} (hn : files.length + 2 ≤ NINODES)
    (h : main files blank = .ok () im) (hfit : im.freeblock ≤ FSSIZE) :
    Laid files im.freeblock (booted im) := wp_ok (wp_main hn) h hfit

@[simp] theorem length_dirent (inum : ℕ) (name : List Byte) : (dirent inum name).length = 16 := by
  simp only [dirent, length_append, length_leBytes, length_take, length_replicate]
  show 2 + (min 14 name.length + (14 - name.length)) = 16
  omega

theorem length_entries (inum : ℕ) (files : List File) : (entries inum files).length =
    16 * files.length := by
  induction files generalizing inum with
  | nil => rfl
  | cons f fs ih =>
    rw [entries, length_append, length_dirent, ih, length_cons]
    omega

theorem length_rootContent (files : List File) : (rootContent files).length = 16 * (files.length + 2) := by
  simp only [rootContent, length_append, length_dirent, length_entries]
  omega

/-- The invariant of the kernel, if the entries of the root directory do not fill its last block. -/
theorem Laid.inv {files : List File} {used : ℕ} {s : Fs} (h : Laid files used s)
    (hround : (rootContent files).length % BSIZE ≠ 0) : FsInv s none := by
  obtain ⟨g, hinv, hgsb, hgdirty, hfiles, hsb, hdirty, hinode, hvol, -⟩ := h
  obtain ⟨htype, hd, hsize, -⟩ := hfiles.node 0 _ _ rfl
  have hroot : ROOTINO < g.sb.ninodes := by
    rw [hgsb]
    decide
  have hentry : FsInv (withEntry g ROOTINO) none := withEntry_inv hinv hroot (by rwa [htype])
  have hlive := withEntry_live g ROOTINO
  have hself := withEntry_self g ROOTINO
  have hlen : ((withEntry g ROOTINO).inode 0).size.toNat = (rootContent files).length := by
    rwa [hself]
  have hmax := (hentry.lock hlive).size_le hlive
  rw [hlen] at hmax
  generalize (rootContent files).length = n at *
  have hle : n ≤ 268 * 1024 := hmax
  have hmod : n % 1024 ≠ 0 := hround
  have hsetsize : FsInv ((withEntry g ROOTINO).setSize 0 (rounded n)) (some 0) := by
    refine Fs.setSize_inv (hentry.lock hlive) hlive ?_ fun bn k hk hbn => ?_
    · show (n / 1024 + 1) * 1024 ≤ 268 * 1024
      omega
    · refine (hentry.lock hlive).slot_ne_zero hlive hk ?_
      rw [hlen]
      have hbn' : bn * 1024 < (n / 1024 + 1) * 1024 := hbn
      show bn * 1024 < n
      omega
  have hself' := Fs.setSize_self (withEntry g ROOTINO) 0 (rounded n)
  have href : 0 < (((withEntry g ROOTINO).setSize 0 (rounded n)).inode 0).ref := by
    rw [hself', hself]
    exact Nat.one_pos
  have hlast := hsetsize.update href
  have hlastvol := Fs.vol_update hsetsize.sb (hsetsize.inum 0 href).2
  rw [hself', hself] at hlastvol
  refine hlast.of_table (hsb.trans hgsb.symm) (hvol.trans hlastvol.symm) ?_ ?_ ?_ ?_
  · rw [hdirty]
    show _ = update g.dirty _ none
    rw [hgdirty, update_eq_self_iff.2 rfl]
  · intro e hr
    rw [hinode] at hr
    exact absurd hr (Nat.lt_irrefl 0)
  · intro e e' hr
    rw [hinode] at hr
    exact absurd hr (Nat.lt_irrefl 0)
  · intro e hl
    rw [Fs.Live, hinode] at hl
    exact absurd hl.1 (Nat.lt_irrefl 0)

/-- A root directory whose entries fill whole blocks has a size of one block more, which is not
allocated. -/
theorem Laid.unallocated {files : List File} {used : ℕ} {s : Fs} (h : Laid files used s)
    (hn : files.length + 2 ≤ NINODES) (hround : (rootContent files).length % BSIZE = 0) :
    (s.vol.dinode ROOTINO).type ≠ 0 ∧
      (rootContent files).length / BSIZE * BSIZE < (s.vol.dinode ROOTINO).size.toNat ∧
      (s.vol.dinode ROOTINO).fileBlock s.vol.data ((rootContent files).length / BSIZE) = 0 := by
  obtain ⟨g, -, -, -, hfiles, -, -, -, hvol, -⟩ := h
  obtain ⟨htype, hd, hsize, -⟩ := hfiles.node 0 _ _ rfl
  have hdinode : s.vol.dinode ROOTINO = { g.vol.dinode ROOTINO with
      size := BitVec.ofNat 32 (rounded (rootContent files).length) } := by
    rw [hvol]
    show update g.vol.dinode ROOTINO _ ROOTINO = _
    exact update_self ..
  have hlen := length_rootContent files
  have hN : NINODES = 200 := rfl
  generalize (rootContent files).length = n at *
  have hn' : n ≤ 3200 := by omega
  refine ⟨by rw [hdinode]; rwa [htype.symm] at hd, ?_, ?_⟩
  · rw [hdinode]
    show n / 1024 * 1024 < (BitVec.ofNat 32 ((n / 1024 + 1) * 1024)).toNat
    rw [BitVec.toNat_ofNat, Nat.mod_eq_of_lt (by omega)]
    omega
  · have hdirect : n / BSIZE < NDIRECT := by
      show n / 1024 < 12
      omega
    rw [hdinode, Dinode.fileBlock, Dinode.blockSlot, dif_pos hdirect]
    refine hfiles.root ⟨n / BSIZE, Nat.lt_succ_of_lt hdirect⟩ hdirect ?_
    rw [show (g.vol.dinode ROOTINO).size.toNat = n from hsize]
    exact (Nat.div_mul_cancel (Nat.dvd_of_mod_eq_zero hround)).ge

/-- What the kernel expects of an image: every block of a file or directory below its size is allocated, no
two of them are the same, the bitmap marks the blocks in use, and `readi` of any inode of the image leaves
the file system as it is. -/
structure Expected (im : Img) : Prop where
  allocated : ∀ i, ((booted im).vol.dinode i).type ≠ 0 → ∀ bn,
    bn * BSIZE < ((booted im).vol.dinode i).size.toNat →
      ((booted im).vol.dinode i).fileBlock (booted im).vol.data bn ≠ 0
  distinct : ∀ p q, (booted im).slots none p ≠ 0 → (booted im).slots none p =
    (booted im).slots none q → p = q
  marked : ∀ x < FSSIZE, (booted im).vol.used x = true ↔ x < nmeta ∨ ∃ p, (booted im).slots none p = x
  reads : ∀ i < NINODES, ((booted im).vol.dinode i).type ≠ 0 →
    ∀ (τ : Type) (sink : τ → ℕ → List Byte → τ × Bool) (a : τ) (off n : BitVec 32),
      ∃ r, Fs.readi sink a 0 off n (withEntry (booted im) i) = .ok r (withEntry (booted im) i)

/-- **`mkfs` establishes the kernel's invariant, if and only if** the entries of the root directory do not
fill whole blocks. -/
theorem main_inv {files : List File} {im : Img} (hn : files.length + 2 ≤ NINODES)
    (h : main files blank = .ok () im) (hfit : im.freeblock ≤ FSSIZE) :
    Expected im ↔ (files.length + 2) % (BSIZE / 16) ≠ 0 := by
  have hlaid := main_laid hn h hfit
  have hmod : (files.length + 2) % (BSIZE / 16) = 0 ↔ (rootContent files).length % BSIZE = 0 := by
    rw [length_rootContent]
    show (files.length + 2) % 64 = 0 ↔ 16 * (files.length + 2) % 1024 = 0
    omega
  rw [Ne, hmod]
  constructor
  · intro hexp hround
    obtain ⟨htype, hlt, hzero⟩ := hlaid.unallocated hn hround
    exact hexp.allocated ROOTINO htype _ hlt hzero
  intro hround
  have hinv := hlaid.inv hround
  obtain ⟨-, -, -, -, -, hsb, -⟩ := hlaid
  have howns := hinv.owns
  rw [hsb, dataStart_eq] at howns
  refine ⟨fun i ht => (hinv.below i ht).2, howns.inj, howns.exact, fun i hi ht τ sink a off n => ?_⟩
  have hentry : FsInv (withEntry (booted im) i) none := withEntry_inv hinv (by rwa [hsb]) ht
  have hread : wp (Fs.readi sink a 0 off n) (fun _ t => t = withEntry (booted im) i) (fun _ _ => False)
      (withEntry (booted im) i) := Fs.wp_readi hentry (withEntry_live _ _) a off n
  obtain ⟨r, t, hrun, ht⟩ := wp_returns hread fun _ _ hf => hf
  exact ⟨r, ht ▸ hrun⟩

/-- Files of two bytes, `n` of them. -/
def smallFiles (n : ℕ) : List File :=
  (List.range n).map fun i => ⟨[0x66, BitVec.ofNat 8 (0x30 + i)], [[BitVec.ofNat 8 i, 7]]⟩

-- evaluated together: an image of three files, and one of 62
theorem smallFiles_evaluated : ((main (smallFiles 3) blank).value = some () ∧
      (main (smallFiles 3) blank).state.freeblock ≤ FSSIZE) ∧
    (main (smallFiles 62) blank).value = some () ∧ (main (smallFiles 62) blank).state.freeblock ≤
    FSSIZE := by
  decide +kernel

/-- An image of three files. -/
theorem main_inv_three : ∃ im, main (smallFiles 3) blank = .ok () im ∧ Expected im := by
  obtain ⟨⟨hval, hfit⟩, -⟩ := smallFiles_evaluated
  have hrun := Res.eq_ok_of_value hval
  exact ⟨_, hrun, (main_inv (by decide) hrun hfit).2 (by decide)⟩

/-- **A root directory that fills its block**: with 62 files the directory has 64 entries in one block, and
`main` gives it the size of two blocks, the second of which is not allocated. -/
theorem exists_unallocated : ∃ im, main (smallFiles 62) blank = .ok () im ∧ im.freeblock ≤ FSSIZE ∧
    ((booted im).vol.dinode ROOTINO).type ≠ 0 ∧
    1 * BSIZE < ((booted im).vol.dinode ROOTINO).size.toNat ∧
    ((booted im).vol.dinode ROOTINO).fileBlock (booted im).vol.data 1 = 0 := by
  obtain ⟨-, hval, hfit⟩ := smallFiles_evaluated
  have hrun := Res.eq_ok_of_value hval
  have hn : (smallFiles 62).length = 62 := by simp [smallFiles]
  have hlen : (rootContent (smallFiles 62)).length = 1024 := by rw [length_rootContent, hn]
  have hone := (main_laid (by rw [hn]; decide) hrun hfit).unallocated (by rw [hn]; decide)
    (by rw [hlen]; rfl)
  rw [hlen] at hone
  exact ⟨_, hrun, hfit, hone⟩

end Mkfs

end Xv6
