import Xv6.Fs.Fs

/-!
# The panics of the inode functions

Whatever is on the disk and in the table, the functions of `fs.c` stop only with their own messages.
-/

namespace Xv6

open Stateful

/-- The messages of `fs.c`. -/
def fsMessages : List String :=
  ["freeing free block", "iget: no inodes", "ilock", "ilock: no type", "bmap: out of range"]

/-- The inode functions stopped the machine. -/
def FsPanic (w : Stop) : Prop := ∃ msg ∈ fsMessages, w = .panic msg

theorem fsPanic {α : Type} {msg : String} (h : msg ∈ fsMessages) :
    Stops FsPanic (Prog.panic msg : Prog Fs α) := keeps_panic ⟨msg, h, rfl⟩

namespace Fs

variable {τ : Type}

theorem bread_stops (b : ℕ) : Stops FsPanic (bread b) := ⟨fun _ => rfl⟩

theorem logWrite_stops (b : ℕ) (data : Block) : Stops FsPanic (logWrite b data) := stops_modify _

theorem ballocLoop_stops (sb : Superblock) (fuel b : ℕ) : Stops FsPanic (ballocLoop sb fuel b) := by
  induction fuel generalizing b with
  | zero => exact keeps_pure _
  | succ fuel ih =>
    rw [ballocLoop]
    refine keeps_when fun _ => keeps_bind (bread_stops _) fun data => ?_
    cases findBit data b sb.size BPB 0 with
    | none => exact ih _
    | some bi =>
      exact keeps_bind (logWrite_stops _ _) fun _ => keeps_bind (keeps_bind (bread_stops _)
        fun _ => logWrite_stops _ _) fun _ => keeps_pure _

theorem balloc_stops : Stops FsPanic balloc := by
  unfold balloc
  exact keeps_bind keeps_get fun s => ballocLoop_stops _ _ _

theorem bfree_stops (b : ℕ) : Stops FsPanic (bfree b) := by
  unfold bfree
  exact keeps_bind keeps_get fun s => keeps_bind (bread_stops _) fun data => keeps_ite
    (fun _ => fsPanic (by simp [fsMessages])) fun _ => logWrite_stops _ _

theorem iget_stops (inum : ℕ) : Stops FsPanic (iget inum) := by
  unfold iget
  refine keeps_bind keeps_get fun s => ?_
  split
  · exact keeps_bind (stops_set _) fun _ => keeps_pure _
  · split
    · exact keeps_bind (stops_set _) fun _ => keeps_pure _
    · exact fsPanic (by simp [fsMessages])

theorem iupdate_stops (e : Fin NINODE) : Stops FsPanic (iupdate e) := by
  unfold iupdate
  exact keeps_bind keeps_get fun s => keeps_bind (bread_stops _) fun data => logWrite_stops _ _

theorem ilock_stops (e : Fin NINODE) : Stops FsPanic (ilock e) := by
  unfold ilock
  refine keeps_bind keeps_get fun s => keeps_ite (fun _ => fsPanic (by simp [fsMessages])) fun _ =>
    keeps_when fun _ => ?_
  exact keeps_bind (bread_stops _) fun data => keeps_bind (stops_modify _) fun _ =>
    keeps_when fun _ => fsPanic (by simp [fsMessages])

theorem mapSlot_stops (e : Fin NINODE) (k : Fin (NDIRECT + 1)) : Stops FsPanic (mapSlot e k) := by
  unfold mapSlot
  refine keeps_bind keeps_get fun s => keeps_when fun _ => ?_
  exact keeps_bind balloc_stops fun addr => keeps_unless fun _ =>
    keeps_bind (stops_modify _) fun _ => keeps_pure _

theorem bmap_stops (e : Fin NINODE) (bn : ℕ) : Stops FsPanic (bmap e bn) := by
  unfold bmap
  split
  · exact mapSlot_stops _ _
  · refine keeps_ite (fun _ => ?_) fun _ => fsPanic (by simp [fsMessages])
    refine keeps_bind (mapSlot_stops _ _) fun ind => keeps_unless fun _ =>
      keeps_bind (bread_stops _) fun data => keeps_when fun _ => ?_
    exact keeps_bind balloc_stops fun addr => keeps_when fun _ => keeps_bind (logWrite_stops _ _)
      fun _ => keeps_pure _

theorem truncSlot_stops (e : Fin NINODE) (k : Fin (NDIRECT + 1)) : Stops FsPanic (truncSlot e k) := by
  unfold truncSlot
  exact keeps_bind keeps_get fun s => keeps_when fun _ => keeps_bind (bfree_stops _) fun _ =>
    stops_modify _

theorem truncEntries_stops (data : Block) (fuel j : ℕ) : Stops FsPanic (truncEntries data fuel j) := by
  induction fuel generalizing j with
  | zero => exact keeps_pure _
  | succ fuel ih =>
    rw [truncEntries]
    exact keeps_ite (fun _ => keeps_bind (bfree_stops _) fun _ => ih _) fun _ => ih _

theorem itrunc_stops (e : Fin NINODE) : Stops FsPanic (itrunc e) := by
  unfold itrunc
  have hend : Stops FsPanic (do
      Prog.modify fun s => s.upd e fun ip => { ip with size := 0 }
      iupdate e) := keeps_bind (stops_modify _) fun _ => iupdate_stops e
  refine keeps_bind (keeps_forRange (fun i => truncSlot_stops _ _) _ _) fun _ =>
    keeps_bind keeps_get fun s => keeps_ite (fun _ => ?_) fun _ => hend
  exact keeps_bind (bread_stops _) fun data => keeps_bind (truncEntries_stops _ _ _) fun _ =>
    keeps_bind (truncSlot_stops _ _) fun _ => hend

theorem iput_stops (e : Fin NINODE) : Stops FsPanic (iput e) := by
  unfold iput
  refine keeps_bind keeps_get fun s => keeps_ite (fun _ => ?_) fun _ => stops_modify _
  exact keeps_bind (itrunc_stops e) fun _ => keeps_bind (stops_modify _) fun _ =>
    keeps_bind (iupdate_stops e) fun _ => keeps_bind (stops_modify _) fun _ => stops_modify _

theorem readiLoop_stops (sink : τ → ℕ → List Byte → τ × Bool) (e : Fin NINODE) (n fuel tot off : ℕ)
    (t : τ) : Stops FsPanic (readiLoop sink e n fuel tot off t) := by
  induction fuel generalizing tot off t with
  | zero => exact keeps_pure _
  | succ fuel ih =>
    rw [readiLoop]
    exact keeps_when fun _ => keeps_bind (bmap_stops _ _) fun addr => keeps_unless fun _ =>
      keeps_bind (bread_stops _) fun data => keeps_unless fun _ => ih _ _ _

theorem readi_stops (sink : τ → ℕ → List Byte → τ × Bool) (t : τ) (e : Fin NINODE)
    (off n : BitVec 32) : Stops FsPanic (readi sink t e off n) := by
  unfold readi
  exact keeps_bind keeps_get fun s => keeps_unless fun _ =>
    readiLoop_stops _ _ _ _ _ _ _

/-- What the sink keeps of what it fills, whatever it is given. -/
theorem wp_readiLoop_sink {sink : τ → ℕ → List Byte → τ × Bool} {I : τ → Prop}
    (hI : ∀ t tot bytes, I t → I (sink t tot bytes).1) (e : Fin NINODE) (n fuel tot off : ℕ) {t : τ}
    (ht : I t) (s : Fs) :
    wp (readiLoop sink e n fuel tot off t) (fun r _ => I r.1) (fun w _ => FsPanic w) s := by
  induction fuel generalizing tot off t s with
  | zero => exact ht
  | succ fuel ih =>
    rw [readiLoop]
    split_ifs
    · refine wp_seq ((bmap_stops _ _).wp_keeps s) fun addr s₁ _ => ?_
      split_ifs
      · exact ht
      · refine wp_seq ((bread_stops _).wp_keeps s₁) fun data s₂ _ => ?_
        dsimp only
        split_ifs
        · exact hI _ _ _ ht
        · exact ih _ _ (hI _ _ _ ht) s₂
    · exact ht

theorem wp_readi_sink {sink : τ → ℕ → List Byte → τ × Bool} {I : τ → Prop}
    (hI : ∀ t tot bytes, I t → I (sink t tot bytes).1) (e : Fin NINODE) (off n : BitVec 32) {t : τ}
    (ht : I t) (s : Fs) : wp (readi sink t e off n) (fun r _ => I r.1) (fun w _ => FsPanic w) s := by
  unfold readi
  rw [wp_bind, wp_get]
  dsimp only
  split_ifs
  · exact ht
  · exact wp_readiLoop_sink hI e _ _ _ _ ht s
  · exact wp_readiLoop_sink hI e _ _ _ _ ht s

theorem writeiLoop_stops (src : Source) (e : Fin NINODE) (n fuel tot off : ℕ) :
    Stops FsPanic (writeiLoop src e n fuel tot off) := by
  induction fuel generalizing tot off with
  | zero => exact keeps_pure _
  | succ fuel ih =>
    rw [writeiLoop]
    refine keeps_when fun _ => keeps_bind (bmap_stops _ _) fun addr => keeps_unless fun _ =>
      keeps_bind (bread_stops _) fun data => keeps_ite
      (fun _ => ?_) fun _ => ?_
    · exact keeps_bind (stops_modify _) fun _ => keeps_pure _
    · exact keeps_bind (logWrite_stops _ _) fun _ => ih _ _

theorem writei_stops (src : Source) (e : Fin NINODE) (off n : BitVec 32) :
    Stops FsPanic (writei src e off n) := by
  unfold writei
  refine keeps_bind keeps_get fun s => keeps_unless fun _ => keeps_unless fun _ =>
    keeps_bind (writeiLoop_stops _ _ _ _ _ _) fun r => keeps_ite
    (fun _ => ?_) fun _ => ?_
  · exact keeps_bind (stops_modify _) fun _ => keeps_bind (iupdate_stops e) fun _ => keeps_pure _
  · exact keeps_bind (iupdate_stops e) fun _ => keeps_pure _

end Fs

end Xv6
