import Xv6.Proc.Refs

/-!
# The reference counts of the file table

Between system calls the counter of an entry is the number of descriptors and valid mapped regions that
refer to it.  The invariant is `Refs.Ok`: the counters are exact, and a process that cannot run refers
to nothing.  Each call is followed through its failure paths, where references it has taken are given
back.

Main result: `file_references`.
-/

namespace Xv6

open Stateful Function List

/-- The counters are exact, and only busy processes refer to files. -/
structure Refs.Ok (r : Refs) (busy : Fin NPROC → Prop) : Prop where
  counted : Counted r.hold r.ref
  idle : ∀ p, ¬ busy p → ∀ x, r.hold (p, x) = none

/-- A new reference is to an entry that nobody referred to. -/
def Refs.Fresh (r r' : Refs) : Prop :=
  ∀ x f, r'.hold x = some f → r.hold x = some f ∨ ∀ y, r.hold y ≠ some f

namespace Refs

variable {r : Refs} {busy busy' : Fin NPROC → Prop} {x : Holder} {f : Fin NFILE}

theorem Ok.mono (h : r.Ok busy) (hb : ∀ p, busy p → busy' p) : r.Ok busy' :=
  ⟨h.counted, fun p hp => h.idle p fun hp' => hp (hb p hp')⟩

theorem Ok.acquire (h : r.Ok busy) (hp : busy x.1) (hx : r.hold x = none) (f : Fin NFILE) :
    ((r.put x (some f)).count f (r.ref f + 1)).Ok busy where
  counted := h.counted.acquire hx f
  idle := fun q hq y => by
    show update r.hold x (some f) (q, y) = none
    rw [update_of_ne]
    · exact h.idle q hq y
    · rintro rfl
      exact hq hp

theorem Ok.drop (h : r.Ok busy) (hx : r.hold x = some f) :
    ((r.put x none).count f (r.ref f - 1)).Ok busy where
  counted := h.counted.drop hx
  idle := fun q hq y => by
    show update r.hold x none (q, y) = none
    by_cases hy : (q, y) = x
    · rw [hy, update_self]
    · rw [update_of_ne hy]
      exact h.idle q hq y

theorem fresh_refl (r : Refs) : r.Fresh r := fun _ _ h => Or.inl h

theorem Ok.fresh (h : r.Ok busy) {r' : Refs} (hf : r.Fresh r') (h0 : r.ref f = 0) (n : ℕ) :
    r.Fresh ((r'.put x (some f)).count f n) := by
  intro y g hy
  change update r'.hold x (some f) y = some g at hy
  by_cases hx : y = x
  · rw [hx, update_self] at hy
    cases hy
    exact Or.inr fun z => h.counted.ne_of_zero h0 z
  · rw [update_of_ne hx] at hy
    exact hf y g hy

end Refs

namespace Kernel

variable {α : Type} {s : Kernel} {p : Fin NPROC} {f : Fin NFILE}

/-- The state between calls. -/
def RefInv (s : Kernel) : Prop := s.refs.Ok s.refs.live

/-- How a call may stop. -/
abbrev refStop : Stop → Kernel → Prop := fun w _ => RefSafe w

theorem wp_quiet {x : Prog Kernel α} {Q : α → Kernel → Prop} (hx : Quiet x)
    (h : ∀ a t, t.refs = s.refs → Q a t) : wp x Q refStop s :=
  wp_post (hx.wp_keeps s) h

theorem RefInv.of_eq {t : Kernel} (h : s.RefInv) (ht : t.refs = s.refs) : t.RefInv := by
  unfold RefInv
  rwa [ht]

theorem RefInv.quiet {x : Prog Kernel α} (h : s.RefInv) (hx : Quiet x) :
    wp x (fun _ t => t.RefInv) refStop s := wp_quiet hx fun _ _ ht => h.of_eq ht

theorem refSafe_kerneltrap : RefSafe (.panic "kerneltrap") := by
  simp [RefSafe]

/-! ### The file table -/

theorem wp_filealloc : wp filealloc (fun r t =>
    (r = none → t.refs = s.refs) ∧
    ∀ f, r = some f → s.refs.ref f = 0 ∧ t.refs = s.refs.count f 1) refStop s := by
  unfold filealloc
  rw [wp_bind, wp_get]
  cases hf : (List.finRange NFILE).find? fun f => decide ((s.file f).ref = 0) with
  | none => exact ⟨fun _ => rfl, by simp⟩
  | some f =>
    refine ⟨by simp, fun g hg => ?_⟩
    cases hg
    have h0 : (s.file f).ref = 0 := by simpa using find?_some hf
    exact ⟨h0, refs_updFile s f _⟩

theorem wp_filedup (h : 0 < s.refs.ref f) :
    wp (filedup f) (fun _ t => t.refs = s.refs.count f (s.refs.ref f + 1)) refStop s := by
  unfold filedup
  rw [wp_bind, wp_get, if_neg (by change ¬ s.refs.ref f < 1; omega)]
  exact refs_updFile s f _

/-- Closing a file that somebody refers to takes one reference from it. -/
theorem wp_fileclose (h : 0 < s.refs.ref f) :
    wp (fileclose f) (fun _ t => t.refs = s.refs.count f (s.refs.ref f - 1)) refStop s := by
  have hlast : ∀ {β : Type} {x : Prog Kernel β} (t : Kernel), Quiet x → t.refs = s.refs.count f 0 →
      ¬ 0 < s.refs.ref f - 1 →
      wp x (fun _ t => t.refs = s.refs.count f (s.refs.ref f - 1)) refStop t := by
    intro β x t hx ht hle
    refine wp_quiet hx fun _ u hu => ?_
    rw [hu, ht, show s.refs.ref f - 1 = 0 by omega]
  unfold fileclose
  rw [wp_bind, wp_get]
  rw [if_neg (by change ¬ s.refs.ref f < 1; omega)]
  by_cases hmany : 0 < (s.file f).ref - 1
  · rw [if_pos hmany, wp_set, refs_updFile]
    rfl
  · rw [if_neg hmany, wp_bind, wp_set]
    have ht : (s.updFile f fun fl => { fl with ref := 0, type := .none }).refs = s.refs.count f 0 :=
      refs_updFile s f _
    cases (s.file f).type with
    | pipe => exact hlast _ (quiet_pipeclose _ _) ht hmany
    | inode => exact hlast _ (keeps_bind (quiet_deref _) fun e => quiet_onFs (Fs.iput_stops e)) ht hmany
    | device => exact hlast _ (keeps_bind (quiet_deref _) fun e => quiet_onFs (Fs.iput_stops e)) ht hmany
    | none => exact hlast _ (keeps_pure ()) ht hmany

/-- An entry that was free and has been taken goes back. -/
theorem wp_fileclose_new {r : Refs} (hs : s.refs = r.count f 1) (h0 : r.ref f = 0) :
    wp (fileclose f) (fun _ t => t.refs = r) refStop s := by
  refine wp_post (wp_fileclose (f := f) (by rw [hs]; simp)) fun _ t ht => ?_
  rw [ht, hs, Refs.count_count, Refs.count_ref_self, Refs.count_eq_self h0]

theorem wp_fdalloc : wp (fdalloc p f) (fun r t =>
    (r = none → t.refs = s.refs) ∧
    ∀ fd, r = some fd → s.refs.hold (p, .inl fd) = none ∧
      t.refs = s.refs.put (p, .inl fd) (some f)) refStop s := by
  unfold fdalloc
  rw [wp_bind, wp_get]
  cases hfd : (List.finRange NOFILE).find? fun fd => decide ((s.proc p).ofile fd = none) with
  | none => exact ⟨fun _ => rfl, by simp⟩
  | some fd =>
    refine ⟨by simp, fun g hg => ?_⟩
    cases hg
    have h0 : (s.proc p).ofile fd = none := by simpa using find?_some hfd
    exact ⟨h0, refs_setOfile s p fd _⟩

/-! ### References taken and given up -/

theorem wp_closeOfile {busy : Fin NPROC → Prop} (h : s.refs.Ok busy) (fd : Fin NOFILE) :
    wp (closeOfile p fd) (fun _ t => t.refs.Ok busy ∧ t.refs.live = s.refs.live ∧
      t.refs.hold = update s.refs.hold (p, .inl fd) none) refStop s := by
  unfold closeOfile
  rw [wp_bind, wp_get]
  cases hf : (s.proc p).ofile fd with
  | none =>
    refine ⟨h, rfl, ?_⟩
    rw [show none = s.refs.hold (p, .inl fd) from hf.symm, update_eq_self]
  | some f =>
    have hx : s.refs.hold (p, .inl fd) = some f := hf
    refine wp_seq (wp_fileclose (h.counted.pos hx)) fun _ t ht => ?_
    rw [wp_modify, refs_setOfile, ht]
    exact ⟨h.drop hx, rfl, rfl⟩

theorem wp_dropVma {busy : Fin NPROC → Prop} (h : s.refs.Ok busy) {i : Fin VMAMAX}
    (hx : s.refs.hold (p, .inr i) = some f) :
    wp (do
      fileclose f
      Prog.modify fun s => s.updVma p i fun v => { v with valid := false })
      (fun _ t => t.refs.Ok busy ∧ t.refs.live = s.refs.live ∧
        t.refs.hold = update s.refs.hold (p, .inr i) none) refStop s := by
  refine wp_seq (wp_fileclose (h.counted.pos hx)) fun _ t ht => ?_
  rw [wp_modify, refs_updVma, ht]
  exact ⟨h.drop hx, rfl, rfl⟩

theorem hold_vma {i : Fin VMAMAX} (hv : ((s.proc p).vma i).valid = true)
    (hf : ((s.proc p).vma i).f = some f) : s.refs.hold (p, .inr i) = some f := by
  show ((s.proc p).vma i).held = some f
  unfold Vma.held
  rw [if_pos hv, hf]

theorem hold_vma_invalid {i : Fin VMAMAX} (hv : ¬ ((s.proc p).vma i).valid = true) :
    s.refs.hold (p, .inr i) = none := by
  show ((s.proc p).vma i).held = none
  unfold Vma.held
  rw [if_neg hv]

theorem wp_releaseVma {busy : Fin NPROC → Prop} (h : s.refs.Ok busy) (i : Fin VMAMAX) :
    wp (releaseVma p i) (fun _ t => t.refs.Ok busy ∧ t.refs.live = s.refs.live ∧
      t.refs.hold = update s.refs.hold (p, .inr i) none) refStop s := by
  unfold releaseVma
  rw [wp_bind, wp_get]
  by_cases hv : ((s.proc p).vma i).valid = true
  · rw [if_pos hv, wp_bind]
    refine wp_quiet (quiet_sweep _ _ _ _ _) fun _ t ht => ?_
    cases hf : ((s.proc p).vma i).f with
    | none => exact refSafe_kerneltrap
    | some f =>
      have hx : t.refs.hold (p, .inr i) = some f := by rw [ht]; exact hold_vma hv hf
      rw [← ht]
      exact wp_dropVma (by rwa [ht]) hx
  · rw [if_neg hv]
    refine ⟨h, rfl, ?_⟩
    rw [← hold_vma_invalid hv, update_eq_self]

/-! ### Processes -/

theorem wp_freeproc (hp : ¬ s.refs.live p) :
    wp (freeproc p) (fun _ t => t.refs = s.refs) refStop s := by
  -- both conditional parts are quiet; the last step resets a process that was not live
  have hlast : ∀ t : Kernel, t.refs = s.refs → (t.updProc p fun pr =>
      { pr with pagetable := 0, sz := 0, pid := 0, parent := none, killed := false, xstate := 0
                state := .unused }).refs = s.refs := by
    intro t ht
    rw [refs_updProc rfl]
    · exact ht
    · have : ¬ t.refs.live p := by rwa [ht]
      exact ⟨fun h => absurd h (by simp), fun h => absurd h this⟩
  have hrest : ∀ t : Kernel, t.refs = s.refs → wp (do
      Prog.modify fun s => s.updProc p fun pr => { pr with trapframe := 0 }
      if (s.proc p).pagetable ≠ 0 then
        procFreepagetable (s.proc p).pagetable (s.proc p).sz
      Prog.modify fun s => s.updProc p fun pr =>
        { pr with pagetable := 0, sz := 0, pid := 0, parent := none, killed := false, xstate := 0
                  state := .unused }) (fun _ t => t.refs = s.refs) refStop t := by
    intro t ht
    rw [wp_bind]
    refine wp_quiet (quiet_updProc p (fun _ => rfl) fun _ => rfl) fun _ u hu => ?_
    by_cases hpt : (s.proc p).pagetable ≠ 0
    · rw [if_pos hpt, wp_bind]
      refine wp_quiet (quiet_procFreepagetable _ _) fun _ v hv => ?_
      exact hlast v (hv.trans (hu.trans ht))
    · rw [if_neg hpt]
      exact hlast u (hu.trans ht)
  unfold freeproc
  rw [wp_bind, wp_get]
  by_cases htf : (s.proc p).trapframe ≠ 0
  · rw [if_pos htf, wp_bind]
    exact wp_quiet (quiet_onMem (kfree_stops _)) fun _ t ht => hrest t ht
  · rw [if_neg htf]
    exact hrest s rfl

/-- A new process refers to nothing: its regions are reset, and it had no descriptors. -/
theorem wp_allocproc (h : s.RefInv) : wp allocproc (fun r t =>
    t.refs = s.refs ∧ ∀ np, r = some np → ¬ s.refs.live np) refStop s := by
  unfold allocproc
  rw [wp_bind, wp_get]
  cases hp : (List.finRange NPROC).find? fun p => decide ((s.proc p).state = .unused) with
  | none => exact ⟨rfl, by simp⟩
  | some p =>
    have hun : (s.proc p).state = .unused := by simpa using find?_some hp
    have hlive : ¬ s.refs.live p := by
      show ¬ (s.proc p).state = .runnable
      rw [hun]
      simp
    have hfree : ∀ t : Kernel, t.refs = s.refs → wp (do
        freeproc p
        return (none : Option (Fin NPROC))) (fun r t =>
          t.refs = s.refs ∧ ∀ np, r = some np → ¬ s.refs.live np) refStop t := by
      intro t ht
      refine wp_seq (wp_freeproc (s := t) (by rwa [ht])) fun _ u hu => ?_
      exact ⟨hu.trans ht, by simp⟩
    rw [wp_bind, wp_modify, wp_bind, wp_modify, wp_bind]
    refine wp_quiet (quiet_onMem kalloc_stops) fun trapframe t ht => ?_
    have ht' : t.refs = s.refs := by
      rw [ht, refs_updProc]
      · rfl
      · funext x
        cases x with
        | inl fd => rfl
        | inr i => exact (h.idle p hlive (.inr i)).symm
      · exact ⟨fun hr => absurd hr (by simp), fun hr => absurd hr hlive⟩
    rw [wp_bind]
    refine wp_quiet (quiet_updProc p (fun _ => rfl) fun _ => rfl) fun _ u hu => ?_
    by_cases h0 : trapframe = 0
    · rw [if_pos h0]
      exact hfree u (hu.trans ht')
    · rw [if_neg h0, wp_bind]
      refine wp_quiet (quiet_onMem (procPagetable_stops _)) fun pagetable v hv => ?_
      rw [wp_bind]
      refine wp_quiet (quiet_updProc p (fun _ => rfl) fun _ => rfl) fun _ w hw => ?_
      have hw' : w.refs = s.refs := hw.trans (hv.trans (hu.trans ht'))
      by_cases h1 : pagetable = 0
      · rw [if_pos h1]
        exact hfree w hw'
      · rw [if_neg h1]
        refine ⟨hw', fun np hnp => ?_⟩
        cases hnp
        exact hlive

theorem wp_inherit {busy : Fin NPROC → Prop} (h : s.refs.Ok busy) {x y : Holder} (hb : busy y.1)
    (hx : s.refs.hold x = some f) (hy : s.refs.hold y = none) {g : Kernel → Kernel}
    (hg : ∀ t : Kernel, (g t).refs = t.refs.put y (some f)) :
    wp (do
      filedup f
      Prog.modify g) (fun _ t => t.refs.Ok busy ∧ t.refs.live = s.refs.live ∧
        t.refs.hold = update s.refs.hold y (some f)) refStop s := by
  refine wp_seq (wp_filedup (h.counted.pos hx)) fun _ t ht => ?_
  rw [wp_modify, hg, ht]
  exact ⟨h.acquire hb hy f, rfl, rfl⟩

theorem wp_forkVma {busy : Fin NPROC → Prop} (h : s.refs.Ok busy) {np : Fin NPROC} (hb : busy np)
    {i : Fin VMAMAX} (hi : s.refs.hold (np, .inr i) = none) :
    wp (forkVma p np i) (fun _ t => t.refs.Ok busy ∧ t.refs.live = s.refs.live ∧
      ∀ x, x ≠ (np, .inr i) → t.refs.hold x = s.refs.hold x) refStop s := by
  unfold forkVma
  rw [wp_bind, wp_get]
  by_cases hv : ((s.proc p).vma i).valid = true
  · rw [if_pos hv]
    cases hf : ((s.proc p).vma i).f with
    | none => exact refSafe_kerneltrap
    | some f =>
      refine wp_post (wp_inherit h (y := (np, .inr i)) hb (hold_vma hv hf) hi fun t => ?_)
        fun _ t ht => ⟨ht.1, ht.2.1, fun x hx => ?_⟩
      · rw [refs_updVma]
        have : ((s.proc p).vma i).held = some f := hold_vma hv hf
        rw [this]
      · rw [ht.2.2, update_of_ne hx]
  · rw [if_neg hv]
    exact ⟨h, rfl, fun _ _ => rfl⟩

theorem wp_forkOfile {busy : Fin NPROC → Prop} (h : s.refs.Ok busy) {np : Fin NPROC} (hb : busy np)
    {fd : Fin NOFILE} (hfd : s.refs.hold (np, .inl fd) = none) :
    wp (forkOfile p np fd) (fun _ t => t.refs.Ok busy ∧ t.refs.live = s.refs.live ∧
      ∀ x, x ≠ (np, .inl fd) → t.refs.hold x = s.refs.hold x) refStop s := by
  unfold forkOfile
  rw [wp_bind, wp_get]
  cases hf : (s.proc p).ofile fd with
  | none => exact ⟨h, rfl, fun _ _ => rfl⟩
  | some f =>
    refine wp_post (wp_inherit h (x := (p, .inl fd)) (y := (np, .inl fd)) hb hf hfd
      fun t => refs_setOfile t np fd _) fun _ t ht => ⟨ht.1, ht.2.1, fun x hx => ?_⟩
    rw [ht.2.2, update_of_ne hx]

/-- **`fork`**: the child gets a reference wherever the parent has one. -/
theorem wp_fork (h : s.RefInv) : wp (fork p) (fun _ t => t.RefInv) refStop s := by
  unfold fork
  refine wp_seq (wp_allocproc h) fun r t ht => ?_
  obtain ⟨ht, hnew⟩ := ht
  cases r with
  | none => exact h.of_eq ht
  | some np =>
    have hnp := hnew np rfl
    rw [wp_bind, wp_get, wp_bind]
    refine wp_quiet (quiet_onMem (uvmcopy_stops _ _ _)) fun ok u hu => ?_
    have hu' : u.refs = s.refs := hu.trans ht
    by_cases hok : (!ok) = true
    · rw [if_pos hok]
      refine wp_seq (wp_freeproc (s := u) (by rwa [hu'])) fun _ v hv => ?_
      exact h.of_eq (hv.trans hu')
    rw [if_neg hok, wp_bind]
    refine wp_quiet (quiet_updProc np (fun _ => rfl) fun _ => rfl) fun _ v hv => ?_
    rw [wp_bind]
    refine wp_quiet (quiet_onMem (stops_modify _)) fun _ w hw => ?_
    rw [wp_bind]
    refine wp_quiet (quiet_updProc np (fun _ => rfl) fun _ => rfl) fun _ s₁ hs₁ => ?_
    have h1 : s₁.refs = s.refs := hs₁.trans (hw.trans (hv.trans hu'))
    -- while the references are copied the child is not live and already has some
    let busy : Fin NPROC → Prop := fun q => s.refs.live q ∨ q = np
    have hbusy : s₁.refs.Ok busy := by
      rw [h1]
      exact h.mono fun q hq => Or.inl hq
    have hnone : ∀ x, s₁.refs.hold (np, x) = none := by
      rw [h1]
      exact h.idle np hnp
    refine wp_seq (wp_forRange (fun i t => t.refs.Ok busy ∧ t.refs.live = s.refs.live ∧
      (∀ fd, t.refs.hold (np, .inl fd) = none) ∧
      ∀ j : Fin VMAMAX, i ≤ j.val → t.refs.hold (np, .inr j) = none) ?_ ?_) ?_
    · exact ⟨hbusy, by rw [h1], fun fd => hnone _, fun j _ => hnone _⟩
    · rintro i t - hi ⟨hok, hlive, hfd, hj⟩
      have hval : (Fin.ofNat VMAMAX i).val = i := Nat.mod_eq_of_lt (by omega)
      refine wp_post (wp_forkVma hok (Or.inr rfl) (hj _ (by rw [hval]))) ?_
      rintro - t' ⟨hok', hlive', hsame⟩
      refine ⟨hok', hlive'.trans hlive, fun fd => ?_, fun j hij => ?_⟩
      · rw [hsame _ (by simp)]
        exact hfd fd
      · rw [hsame]
        · exact hj j (by omega)
        · intro he
          simp only [Prod.mk.injEq, Sum.inr.injEq, true_and] at he
          rw [he, hval] at hij
          omega
    rintro - s₂ ⟨h2, hlive2, hfd2, -⟩
    rw [wp_bind]
    refine wp_quiet (quiet_setReg _ _ _) fun _ s₃ h3 => ?_
    refine wp_seq (wp_forRange (fun i t => t.refs.Ok busy ∧ t.refs.live = s.refs.live ∧
      ∀ fd : Fin NOFILE, i ≤ fd.val → t.refs.hold (np, .inl fd) = none) ?_ ?_) ?_
    · rw [h3]
      exact ⟨h2, hlive2, fun fd _ => hfd2 fd⟩
    · rintro i t - hi ⟨hok, hlive, hfd⟩
      have hval : (Fin.ofNat NOFILE i).val = i := Nat.mod_eq_of_lt (by omega)
      refine wp_post (wp_forkOfile hok (Or.inr rfl) (hfd _ (by rw [hval]))) ?_
      rintro - t' ⟨hok', hlive', hsame⟩
      refine ⟨hok', hlive'.trans hlive, fun fd hij => ?_⟩
      rw [hsame]
      · exact hfd fd (by omega)
      · intro he
        simp only [Prod.mk.injEq, Sum.inl.injEq, true_and] at he
        rw [he, hval] at hij
        omega
    rintro - s₄ ⟨h4, hlive4, -⟩
    cases (t.proc p).cwd with
    | none => exact refSafe_kerneltrap
    | some e =>
      rw [wp_bind]
      refine wp_quiet (quiet_onFs (stops_modify _)) fun _ s₅ h5 => ?_
      rw [wp_bind, wp_modify]
      -- the child becomes runnable
      show Refs.Ok _ _
      rw [refs_updProc_live rfl, h5]
      refine ⟨h4.counted, (h4.mono fun q hq => ?_).idle⟩
      show update s₄.refs.live np _ q
      by_cases hqn : q = np
      · rw [hqn, update_self]
      · rw [update_of_ne hqn, hlive4]
        exact hq.resolve_right hqn

/-- **`exit`** gives up every reference of the process. -/
theorem wp_exit (h : s.RefInv) (status : BitVec 32) :
    wp (exit p status) (fun _ t => t.RefInv) refStop s := by
  unfold exit
  refine wp_seq (wp_forRange (fun i t => t.RefInv ∧
    ∀ j : Fin VMAMAX, j.val < i → t.refs.hold (p, .inr j) = none) ⟨h, by omega⟩ ?_) ?_
  · rintro i t - hi ⟨hok, hj⟩
    have hval : (Fin.ofNat VMAMAX i).val = i := Nat.mod_eq_of_lt (by omega)
    refine wp_post (wp_releaseVma hok _) ?_
    rintro - t' ⟨hok', hlive, hhold⟩
    refine ⟨by rwa [RefInv, hlive], fun j hji => ?_⟩
    rw [hhold]
    by_cases hje : j = Fin.ofNat VMAMAX i
    · rw [hje, update_self]
    · have : j.val ≠ i := fun he => hje (Fin.ext (he.trans hval.symm))
      rw [update_of_ne (by simpa using hje)]
      exact hj j (by omega)
  rintro - s₁ ⟨h1, hvma⟩
  by_cases hinit : p = initproc
  · rw [if_pos hinit]
    exact (by simp [RefSafe] : RefSafe (.panic "init exiting"))
  rw [if_neg hinit]
  refine wp_seq (wp_forRange (fun i t => t.RefInv ∧ (∀ j, t.refs.hold (p, .inr j) = none) ∧
    ∀ fd : Fin NOFILE, fd.val < i → t.refs.hold (p, .inl fd) = none)
    ⟨h1, fun j => hvma j (by omega), by omega⟩ ?_) ?_
  · rintro i t - hi ⟨hok, hj, hfd⟩
    have hval : (Fin.ofNat NOFILE i).val = i := Nat.mod_eq_of_lt (by omega)
    refine wp_post (wp_closeOfile hok _) ?_
    rintro - t' ⟨hok', hlive, hhold⟩
    refine ⟨by rwa [RefInv, hlive], fun j => ?_, fun fd hfi => ?_⟩
    · rw [hhold, update_of_ne (by simp)]
      exact hj j
    · rw [hhold]
      by_cases hje : fd = Fin.ofNat NOFILE i
      · rw [hje, update_self]
      · have : fd.val ≠ i := fun he => hje (Fin.ext (he.trans hval.symm))
        rw [update_of_ne (by simpa using hje)]
        exact hfd fd (by omega)
  rintro - s₂ ⟨h2, hvma2, hfd2⟩
  rw [wp_bind, wp_get]
  cases (s₂.proc p).cwd with
  | none => exact refSafe_kerneltrap
  | some e =>
    rw [wp_bind]
    refine wp_quiet (quiet_onFs (Fs.iput_stops e)) fun _ s₃ h3 => ?_
    rw [wp_bind, wp_modify, wp_modify]
    show Refs.Ok _ _
    rw [refs_updProc_live rfl, refs_reparent, h3]
    refine ⟨h2.counted, fun q hq x => ?_⟩
    by_cases hqp : q = p
    · subst hqp
      cases x with
      | inl fd => exact hfd2 fd (by omega)
      | inr j => exact hvma2 j
    · refine h2.idle q (fun hl => hq ?_) x
      show update s₂.refs.live p _ q
      rwa [update_of_ne hqp]

theorem wp_wait (h : s.RefInv) (addr : ℕ) : wp (wait p addr) (fun _ t => t.RefInv) refStop s := by
  unfold wait
  rw [wp_bind, wp_get]
  cases hq : (List.finRange NPROC).find? fun q =>
      decide ((s.proc q).parent = some p ∧ (s.proc q).state = .zombie) with
  | some q =>
    have hz : (s.proc q).state = .zombie := by
      have := find?_some hq
      simp only [decide_eq_true_eq] at this
      exact this.2
    have hlive : ¬ s.refs.live q := by
      show ¬ (s.proc q).state = .runnable
      rw [hz]
      simp
    have hfree : ∀ t : Kernel, t.refs = s.refs → wp (do
        freeproc q
        return some q) (fun _ t => t.RefInv) refStop t := by
      intro t ht
      refine wp_seq (wp_freeproc (s := t) (by rwa [ht])) fun _ u hu => ?_
      exact h.of_eq (hu.trans ht)
    dsimp only
    by_cases ha : addr ≠ 0
    · rw [if_pos ha, wp_bind, wp_modify]
      by_cases hok : (!(copyout s.mem (s.proc p).pagetable addr
        (leBytes 4 (s.proc q).xstate.toNat)).2) = true
      · rwa [if_pos hok]
      · rw [if_neg hok]
        exact hfree _ rfl
    · rw [if_neg ha]
      exact hfree s rfl
  | none =>
    dsimp only
    split_ifs
    · exact (by simp [RefSafe] : RefSafe .sleep)
    · exact h

/-! ### System calls -/

theorem wp_sysDup (h : s.RefInv) (hp : s.refs.live p) (fd : Fin NOFILE) :
    wp (sysDup p fd) (fun _ t => t.RefInv) refStop s := by
  unfold sysDup
  rw [wp_bind, wp_get]
  cases hf : (s.proc p).ofile fd with
  | none => exact h
  | some f =>
    have hx : s.refs.hold (p, .inl fd) = some f := hf
    refine wp_seq (wp_fdalloc (p := p) (f := f)) fun r t ht => ?_
    cases r with
    | none => exact h.of_eq (ht.1 rfl)
    | some fd' =>
      obtain ⟨hnone, ht⟩ := ht.2 fd' rfl
      have hpos : 0 < t.refs.ref f := by rw [ht]; exact h.counted.pos hx
      refine wp_post (wp_filedup hpos) fun _ u hu => ?_
      rw [RefInv, hu, ht]
      exact h.acquire (x := (p, .inl fd')) hp hnone f

theorem wp_sysClose (h : s.RefInv) (fd : Fin NOFILE) :
    wp (sysClose p fd) (fun _ t => t.RefInv) refStop s := by
  unfold sysClose
  rw [wp_bind, wp_get]
  cases hf : (s.proc p).ofile fd with
  | none => exact h
  | some f =>
    have hx : s.refs.hold (p, .inl fd) = some f := hf
    rw [wp_bind, wp_modify]
    have ht := refs_setOfile s p fd none
    have hpos : 0 < (s.setOfile p fd none).refs.ref f := by rw [ht]; exact h.counted.pos hx
    refine wp_post (wp_fileclose hpos) fun _ u hu => ?_
    rw [RefInv, hu, ht]
    exact h.drop hx

/-- A new descriptor is for an entry that nobody referred to. -/
theorem wp_sysOpen (h : s.RefInv) (hp : s.refs.live p) (path : Option ℕ) (omode : BitVec 32) :
    wp (sysOpen p path omode) (fun _ t => t.RefInv ∧ s.refs.Fresh t.refs) refStop s := by
  have hsame : ∀ t : Kernel, t.refs = s.refs → t.RefInv ∧ s.refs.Fresh t.refs := by
    intro t ht
    exact ⟨h.of_eq ht, by rw [ht]; exact Refs.fresh_refl _⟩
  unfold sysOpen
  cases path with
  | none => exact hsame s rfl
  | some inum =>
    dsimp only
    rw [wp_bind]
    refine wp_quiet (quiet_onFs (Fs.iget_stops _)) fun e s₁ h1 => ?_
    rw [wp_bind]
    refine wp_quiet (quiet_onFs (Fs.ilock_stops _)) fun _ s₂ h2 => ?_
    rw [wp_bind, wp_get]
    have h2' : s₂.refs = s.refs := h2.trans h1
    split_ifs with hbad
    · exact wp_quiet (quiet_onFs (Fs.iput_stops _)) fun _ t ht => hsame t (ht.trans h2')
    refine wp_seq (wp_filealloc (s := s₂)) fun r s₃ h3 => ?_
    cases r with
    | none =>
      exact wp_quiet (quiet_onFs (Fs.iput_stops _)) fun _ t ht => hsame t (ht.trans ((h3.1 rfl).trans h2'))
    | some f =>
      obtain ⟨h0, h3⟩ := h3.2 f rfl
      rw [h2'] at h0 h3
      refine wp_seq (wp_fdalloc (s := s₃) (p := p) (f := f)) fun r s₄ h4 => ?_
      cases r with
      | none =>
        refine wp_seq (wp_fileclose_new ((h4.1 rfl).trans h3) h0) fun _ s₅ h5 => ?_
        exact wp_quiet (quiet_onFs (Fs.iput_stops _)) fun _ t ht => hsame t (ht.trans h5)
      | some fd =>
        obtain ⟨hnone, h4⟩ := h4.2 fd rfl
        refine wp_quiet (quiet_openFile _ _ _ _) fun _ t ht => ?_
        have hmove : t.refs = (s.refs.put (p, .inl fd) (some f)).count f (s.refs.ref f + 1) := by
          rw [ht, h4, h3, h0]
          rfl
        rw [h3] at hnone
        refine ⟨?_, ?_⟩
        · rw [RefInv, hmove]
          exact h.acquire (x := (p, .inl fd)) hp hnone f
        · rw [hmove]
          exact h.fresh (Refs.fresh_refl _) h0 _

theorem wp_fileclose_both {r : Refs} {g : Fin NFILE} (hfg : f ≠ g)
    (hs : s.refs = (r.count f 1).count g 1) (hf : r.ref f = 0) (hg : r.ref g = 0) :
    wp (fileclose f) (fun _ t => wp (fileclose g) (fun _ u => u.refs = r) refStop t) refStop s := by
  have hf' : (r.count g 1).ref f = 0 := by
    show update r.ref g 1 f = 0
    rw [update_of_ne hfg, hf]
  refine wp_post (wp_fileclose_new (hs.trans (r.count_comm hfg 1 1)) hf') fun _ t ht => ?_
  exact wp_fileclose_new ht hg

theorem wp_pipealloc : wp pipealloc (fun r t =>
    (r = none → t.refs = s.refs) ∧
    ∀ f g, r = some (f, g) → f ≠ g ∧ s.refs.ref f = 0 ∧ s.refs.ref g = 0 ∧
      t.refs = (s.refs.count f 1).count g 1) refStop s := by
  unfold pipealloc
  refine wp_seq (wp_filealloc (s := s)) fun r s₁ h1 => ?_
  cases r with
  | none => exact ⟨fun _ => h1.1 rfl, by simp⟩
  | some f =>
    obtain ⟨hf, h1⟩ := h1.2 f rfl
    refine wp_seq (wp_filealloc (s := s₁)) fun r s₂ h2 => ?_
    cases r with
    | none =>
      unfold pipeBad
      refine wp_seq (wp_fileclose_new ((h2.1 rfl).trans h1) hf) fun _ t ht => ?_
      exact ⟨fun _ => ht, by simp⟩
    | some g =>
      obtain ⟨hg, h2⟩ := h2.2 g rfl
      -- the second entry is another one, since the first is now in use
      have hfg : f ≠ g := by
        rintro rfl
        simp [h1, Refs.count_ref_self] at hg
      rw [h1, show (s.refs.count f 1).ref g = s.refs.ref g from update_of_ne hfg.symm _ _] at hg
      rw [h1] at h2
      rw [wp_bind]
      refine wp_quiet (quiet_onMem kalloc_stops) fun pi s₃ h3 => ?_
      split_ifs with hpi
      · unfold pipeBad
        refine wp_seq (wp_fileclose_both hfg (h3.trans h2) hf hg) fun _ t ht => ?_
        refine wp_seq ht fun _ u hu => ?_
        exact ⟨fun _ => hu, by simp⟩
      · rw [wp_bind, wp_modify, wp_bind]
        refine wp_quiet (quiet_updFile f fun _ => rfl) fun _ s₄ h4 => ?_
        rw [wp_bind]
        refine wp_quiet (quiet_updFile g fun _ => rfl) fun _ s₅ h5 => ?_
        refine ⟨by simp, fun f' g' he => ?_⟩
        cases he
        exact ⟨hfg, hf, hg, h5.trans (h4.trans (h3.trans h2))⟩

theorem wp_sysPipe (h : s.RefInv) (hp : s.refs.live p) (fdarray : ℕ) :
    wp (sysPipe p fdarray) (fun _ t => t.RefInv ∧ s.refs.Fresh t.refs) refStop s := by
  have hsame : ∀ t : Kernel, t.refs = s.refs → t.RefInv ∧ s.refs.Fresh t.refs := by
    intro t ht
    exact ⟨h.of_eq ht, by rw [ht]; exact Refs.fresh_refl _⟩
  unfold sysPipe
  refine wp_seq wp_pipealloc fun r s₁ h1 => ?_
  cases r with
  | none => exact hsame s₁ (h1.1 rfl)
  | some fg =>
    obtain ⟨f, g⟩ := fg
    obtain ⟨hfg, hf, hg, h1⟩ := h1.2 f g rfl
    -- every failure ends with both entries given back
    have hclose : ∀ t : Kernel, t.refs = (s.refs.count f 1).count g 1 → wp (do
        fileclose f
        fileclose g) (fun _ t => t.RefInv ∧ s.refs.Fresh t.refs) refStop t := by
      intro t ht
      refine wp_seq (wp_fileclose_both hfg ht hf hg) fun _ u hu => ?_
      exact wp_post hu fun _ v hv => hsame v hv
    refine wp_seq (wp_fdalloc (s := s₁) (p := p) (f := f)) fun r s₂ h2 => ?_
    cases r with
    | none => exact hclose s₂ ((h2.1 rfl).trans h1)
    | some fd0 =>
      obtain ⟨hfd0, h2⟩ := h2.2 fd0 rfl
      rw [h1] at hfd0 h2
      refine wp_seq (wp_fdalloc (s := s₂) (p := p) (f := g)) fun r s₃ h3 => ?_
      have hundo : ∀ r : Refs, r = s₂.refs → r.put (p, .inl fd0) none = (s.refs.count f 1).count g 1 := by
        rintro r rfl
        rw [h2, Refs.put_put, Refs.put_eq_self hfd0]
      cases r with
      | none =>
        rw [wp_bind, wp_modify]
        refine hclose _ ?_
        rw [refs_setOfile]
        exact hundo _ (h3.1 rfl)
      | some fd1 =>
        obtain ⟨hfd1, h3⟩ := h3.2 fd1 rfl
        have hne : fd1 ≠ fd0 := by
          rintro rfl
          rw [h2, Refs.put_hold_self] at hfd1
          cases hfd1
        have hok : ∀ t : Kernel, t.refs = s₃.refs → t.RefInv ∧ s.refs.Fresh t.refs := by
          intro t ht
          have hmove : t.refs = (((s.refs.put (p, .inl fd0) (some f)).count f (s.refs.ref f + 1)).put
              (p, .inl fd1) (some g)).count g (((s.refs.put (p, .inl fd0) (some f)).count f
                (s.refs.ref f + 1)).ref g + 1) := by
            rw [Refs.count_ref_of_ne hfg.symm, Refs.put_ref, hf, hg, ht, h3, h2]
            rfl
          have hnone : ((s.refs.put (p, .inl fd0) (some f)).count f (s.refs.ref f + 1)).hold
              (p, .inl fd1) = none := by
            rwa [h2] at hfd1
          have h1 := h.acquire (x := (p, .inl fd0)) hp hfd0 f
          refine ⟨?_, ?_⟩
          · rw [RefInv, hmove]
            exact h1.acquire (x := (p, .inl fd1)) hp hnone g
          · rw [hmove]
            exact h.fresh (h.fresh (Refs.fresh_refl _) hf _) hg _
        have hbad : ∀ t : Kernel, t.refs = s₃.refs → wp (do
            Prog.modify fun s => s.setOfile p fd0 none
            Prog.modify fun s => s.setOfile p fd1 none
            fileclose f
            fileclose g) (fun _ t => t.RefInv ∧ s.refs.Fresh t.refs) refStop t := by
          intro t ht
          rw [wp_bind, wp_modify, wp_bind, wp_modify]
          refine hclose _ ?_
          rw [refs_setOfile, refs_setOfile, ht, h3, Refs.put_comm (by simpa using hne.symm), Refs.put_put,
            Refs.put_eq_self hfd1]
          exact hundo _ rfl
        dsimp only
        rw [wp_bind, wp_get, wp_bind]
        refine wp_quiet (quiet_copyOut _ _ _) fun ok0 s₄ h4 => ?_
        by_cases hok0 : ok0 = true
        · rw [if_pos hok0, wp_bind]
          refine wp_quiet (quiet_copyOut _ _ _) fun ok s₅ h5 => ?_
          by_cases hok1 : (!ok) = true
          · rw [if_pos hok1]
            exact hbad s₅ (h5.trans h4)
          · rw [if_neg hok1]
            exact hok s₅ (h5.trans h4)
        · rw [if_neg hok0, wp_bind, wp_pure, if_pos (by rfl)]
          exact hbad s₄ h4

/-! ### Mapped files -/

section Mapped

-- unfolding would evaluate the 64-bit numbers in the programs
attribute [local irreducible] wp

theorem quiet_updVma {g : Vma → Vma} (p : Fin NPROC) (i : Fin VMAMAX) (h : ∀ v, (g v).held = v.held) :
    Quiet (Prog.modify fun s => s.updVma p i g) := by
  refine keeps_modify fun s => ?_
  rw [refs_updVma, h]
  exact Refs.put_eq_self rfl

theorem quiet_refcnt (p : Fin NPROC) (i : Fin VMAMAX) (n : Vma → ℕ) :
    Quiet (Prog.modify fun s => s.updVma p i fun v => { v with refcnt := n v }) :=
  quiet_updVma (g := fun v => { v with refcnt := n v }) p i fun _ => rfl

theorem wp_sysMmap (h : s.RefInv) (hp : s.refs.live p) (len prot flags : BitVec 32) (fd : Fin NOFILE)
    (off : BitVec 32) : wp (sysMmap p len prot flags fd off) (fun _ t => t.RefInv) refStop s := by
  have hfull : RefSafe (.panic "All VMA struct is full!") := by simp [RefSafe]
  unfold sysMmap
  rw [wp_bind, wp_get]
  dsimp only
  cases hf : (s.proc p).ofile fd with
  | none =>
    split_ifs
    · exact (wp_panic _).2 hfull
    · exact (wp_panic _).2 refSafe_kerneltrap
  | some f =>
    have hx : s.refs.hold (p, .inl fd) = some f := hf
    dsimp only
    split_ifs with hro
    · exact (wp_pure _).2 h
    cases hi : (List.finRange VMAMAX).find? fun i => decide (((s.proc p).vma i).valid = false) with
    | none => exact (wp_panic _).2 hfull
    | some i =>
      have hv : ((s.proc p).vma i).valid = false := by simpa using find?_some hi
      have hnone : s.refs.hold (p, .inr i) = none := hold_vma_invalid (by rw [hv]; simp)
      dsimp only
      unfold fillVma
      rw [wp_bind, wp_modify]
      set s₁ := s.updVma p i fun v =>
        { v with valid := true, len := len, flags := flags, off := off, prot := prot, f := some f }
      have h1 : s₁.refs = s.refs.put (p, .inr i) (some f) := refs_updVma s p i _
      have hpos : 0 < s₁.refs.ref f := by rw [h1]; exact h.counted.pos hx
      refine wp_seq (wp_filedup hpos) fun _ s₂ h2 => ?_
      have hinv : s₂.RefInv := by
        rw [RefInv, h2, h1]
        exact h.acquire (x := (p, .inr i)) hp hnone f
      rw [wp_bind, wp_get, wp_bind]
      refine wp_quiet (quiet_updProc p (fun _ => rfl) fun _ => rfl) fun _ s₃ h3 => ?_
      exact wp_quiet (quiet_updVma p i fun _ => rfl) fun _ s₄ h4 => hinv.of_eq (h4.trans h3)

theorem findVma_valid {pr : Proc} {va : ℕ} {i : Fin VMAMAX} (h : findVma pr va = some i) :
    (pr.vma i).valid = true := by
  have := find?_some h
  simp only [decide_eq_true_eq] at this
  exact this.2.2

theorem wp_sysMunmap (h : s.RefInv) (addr : ℕ) (len : BitVec 32) :
    wp (sysMunmap p addr len) (fun _ t => t.RefInv) refStop s := by
  unfold sysMunmap
  rw [wp_bind, wp_get]
  dsimp only
  cases hi : findVma (s.proc p) addr with
  | none => exact (wp_panic _).2 (by simp [RefSafe])
  | some i =>
    have hv := findVma_valid hi
    dsimp only
    by_cases hw : walkaddr s.mem (s.proc p).pagetable addr ≠ 0
    · rw [if_pos hw]
      have hun : Quiet (onMem (uvmunmap (s.proc p).pagetable addr
          (sext64 (BitVec.ofInt 32 (len.toInt.tdiv PGSIZE))) true)) := quiet_onMem (uvmunmap_stops _ _ _ _)
      refine h.quiet (keeps_ite (fun _ => ?_) fun _ => hun)
      cases ((s.proc p).vma i).f with
      | none => exact keeps_bind quiet_kerneltrap fun _ => hun
      | some f => exact keeps_bind (quiet_filewrite _ _ _ _) fun _ => hun
    · rw [if_neg hw, wp_bind]
      apply wp_quiet (quiet_refcnt p i fun _ => sub64 ((s.proc p).vma i).refcnt 1)
      intro _ t ht
      by_cases hr : sub64 ((s.proc p).vma i).refcnt 1 ≠ 0
      · rw [if_pos hr]
        cases hf : ((s.proc p).vma i).f with
        | none => exact (wp_panic _).2 refSafe_kerneltrap
        | some f =>
          have hx : t.refs.hold (p, .inr i) = some f := by rw [ht]; exact hold_vma hv hf
          have hok : t.refs.Ok s.refs.live := by rwa [ht]
          refine wp_post (wp_dropVma hok hx) ?_
          rintro - u ⟨hok, hlive, -⟩
          rwa [RefInv, hlive, ht]
      · rw [if_neg hr]
        exact (wp_pure _).2 (h.of_eq ht)

/-- A load fault after the page is mapped: the page is counted and read. -/
theorem quiet_loadPage (p : Fin NPROC) (i : Fin VMAMAX) (v : Vma) (mem va : ℕ) : Quiet (do
    Prog.modify fun s => s.updVma p i fun v => { v with refcnt := add64 v.refcnt 1 }
    match v.f with
    | none => Prog.panic "kerneltrap"
    | some f =>
      let e ← lockFile f
      let _ ← readPage e mem (BitVec.ofNat 32 (sub64 va v.addr)) (BitVec.ofNat 32 PGSIZE)) := by
  refine keeps_bind (quiet_refcnt p i _) fun _ => ?_
  cases v.f with
  | none => exact quiet_kerneltrap
  | some f =>
    exact keeps_bind (quiet_lockFile f) fun e => keeps_bind (quiet_readPage _ _ _ _) fun _ => keeps_pure _

theorem wp_loadFault (h : s.RefInv) (va : ℕ) :
    wp (loadFault p va) (fun _ t => t.RefInv) refStop s := by
  unfold loadFault
  rw [wp_bind, wp_get]
  dsimp only
  cases findVma (s.proc p) va with
  | none =>
    rw [wp_bind]
    refine wp_quiet (quiet_updProc p (fun _ => rfl) fun _ => rfl) fun _ t ht => ?_
    exact wp_exit (h.of_eq ht) _
  | some i =>
    refine h.quiet (keeps_bind (quiet_onMem kalloc_stops) fun mem => keeps_bind
      (quiet_onMem (memset_stops _ _)) fun _ => keeps_bind (quiet_onMem (mappages_stops _ _ _ _ _))
      fun ok => ?_)
    have hload := quiet_loadPage p i ((s.proc p).vma i) mem va
    exact keeps_ite (fun _ => keeps_bind (quiet_panic (by simp [RefSafe])) fun _ => hload)
      fun _ => hload

theorem wp_userStore (h : s.RefInv) (va : ℕ) (b : Byte) :
    wp (userStore p va b) (fun _ t => t.RefInv) refStop s := by
  unfold userStore
  rw [wp_bind, wp_get]
  split_ifs with hm
  · exact (wp_modify _).2 h
  · rw [wp_bind]
    refine wp_quiet (quiet_updProc p (fun _ => rfl) fun _ => rfl) fun _ t ht => ?_
    exact wp_exit (h.of_eq ht) _

end Mapped

/-! ### Runs -/

/-- Every call of a process that can run keeps the counters exact. -/
theorem wp_call (h : s.RefInv) (hp : s.refs.live p) (c : Sys) :
    wp (call p c) (fun _ t => t.RefInv) refStop s := by
  cases c with
  | «open» path omode => exact wp_post (wp_sysOpen h hp path omode) fun _ t ht => ht.1
  | dup fd => exact wp_sysDup h hp fd
  | close fd => exact wp_sysClose h fd
  | pipe fdarray => exact wp_post (wp_sysPipe h hp fdarray) fun _ t ht => ht.1
  | read fd addr n =>
    refine h.quiet (keeps_bind keeps_get fun t => ?_)
    cases (t.proc p).ofile fd with
    | none => exact keeps_pure ()
    | some f => exact quiet_fileread p f addr n
  | write fd addr n =>
    refine h.quiet (keeps_bind keeps_get fun t => ?_)
    cases (t.proc p).ofile fd with
    | none => exact keeps_pure ()
    | some f => exact keeps_bind (quiet_filewrite p f addr n) fun _ => keeps_pure ()
  | fork =>
    unfold call
    exact wp_seq (wp_fork h) fun _ t ht => ht
  | exec path uargv => exact h.quiet (quiet_sysExec p path uargv)
  | exit status => exact wp_exit h status
  | wait addr =>
    unfold call
    exact wp_seq (wp_wait h addr) fun _ t ht => ht
  | sbrk n => exact h.quiet (keeps_bind (quiet_growproc p n) fun _ => keeps_pure ())
  | mmap len prot flags fd off => exact wp_sysMmap h hp len prot flags fd off
  | munmap addr len => exact wp_sysMunmap h addr len
  | load va =>
    unfold call userLoad
    rw [wp_bind, wp_get]
    split_ifs
    · exact h
    · exact wp_loadFault h va
  | store va b => exact wp_userStore h va b

theorem wp_exec (h : s.RefInv) (e : Fin NPROC × Sys) :
    wp (exec e) (fun _ t => t.RefInv) refStop s := by
  unfold exec
  rw [wp_bind, wp_get]
  split_ifs with hp
  · refine wp_attempt (wp_mono (wp_call h hp e.2) (fun _ _ ht => ht) fun w t hw => ?_)
    exact ⟨fun _ => h, fun _ => hw⟩
  · exact h

theorem wp_userinit (h : s.RefInv) (initcode : List Byte) :
    wp (userinit initcode) (fun _ t => t.RefInv) refStop s := by
  unfold userinit
  refine wp_seq (wp_allocproc h) fun r t ht => ?_
  cases r with
  | none => exact refSafe_kerneltrap
  | some p =>
    rw [wp_bind, wp_get, wp_bind]
    refine wp_quiet (quiet_onMem (uvmfirst_stops _ _)) fun _ s₁ h1 => ?_
    rw [wp_bind]
    refine wp_quiet (quiet_setReg _ _ _) fun _ s₂ h2 => ?_
    rw [wp_bind]
    refine wp_quiet (quiet_setReg _ _ _) fun _ s₃ h3 => ?_
    rw [wp_bind]
    refine wp_quiet (quiet_onFs (Fs.iget_stops _)) fun e s₄ h4 => ?_
    have h4' : s₄.refs = s.refs := h4.trans (h3.trans (h2.trans (h1.trans ht.1)))
    show Refs.Ok _ _
    rw [refs_updProc_live rfl, h4']
    refine ⟨h.counted, (h.mono fun q hq => ?_).idle⟩
    show update s.refs.live p _ q
    by_cases hqp : q = p
    · rw [hqp, update_self]
    · rwa [update_of_ne hqp]

theorem refInv_initial (mem : Mem) (fs : Fs) : (initial mem fs).RefInv := by
  have hnone : ∀ x, (initial mem fs).refs.hold x = none := by
    rintro ⟨p, fd | i⟩ <;> rfl
  exact ⟨Counted.of_none hnone fun _ => rfl, fun p _ x => hnone (p, x)⟩

/-- Every run keeps the counters exact, and never stops in `filedup` or `fileclose`. -/
theorem wp_run_refs (mem : Mem) (fs : Fs) (initcode : List Byte) (es : List (Fin NPROC × Sys)) :
    wp (run initcode es) (fun _ t => t.RefInv) refStop (initial mem fs) := by
  unfold run
  refine wp_seq (wp_userinit (refInv_initial mem fs) initcode) fun _ t ht => ?_
  have halong : Along (fun _ _ => True) exec es t := along_of_forall (fun _ _ => trivial) es t
  exact wp_runs (fun e s hs _ => wp_exec hs e) ht halong

end Kernel

/-! ### The counts -/

/-- The process has been created and has not exited. -/
def Proc.Alive (pr : Proc) : Prop := pr.state = .used ∨ pr.state = .runnable

instance (pr : Proc) : Decidable pr.Alive := inferInstanceAs (Decidable (_ ∨ _))

/-- The descriptors of processes that have not exited that refer to an entry of the file table. -/
def Kernel.openFds (s : Kernel) (f : Fin NFILE) : Finset (Fin NPROC × Fin NOFILE) :=
  Finset.univ.filter fun x => (s.proc x.1).Alive ∧ (s.proc x.1).ofile x.2 = some f

/-- The valid regions of processes that have not exited that refer to an entry of the file table. -/
def Kernel.openVmas (s : Kernel) (f : Fin NFILE) : Finset (Fin NPROC × Fin VMAMAX) :=
  Finset.univ.filter fun x => (s.proc x.1).Alive ∧ ((s.proc x.1).vma x.2).valid = true ∧
    ((s.proc x.1).vma x.2).f = some f

theorem Kernel.mem_openFds {s : Kernel} {f : Fin NFILE} {x : Fin NPROC × Fin NOFILE} :
    x ∈ s.openFds f ↔ (s.proc x.1).Alive ∧ (s.proc x.1).ofile x.2 = some f := by
  simp [Kernel.openFds]

theorem Kernel.mem_openVmas {s : Kernel} {f : Fin NFILE} {x : Fin NPROC × Fin VMAMAX} :
    x ∈ s.openVmas f ↔ (s.proc x.1).Alive ∧ ((s.proc x.1).vma x.2).valid = true ∧
      ((s.proc x.1).vma x.2).f = some f := by
  simp [Kernel.openVmas]

theorem Kernel.RefInv.alive {s : Kernel} (h : s.RefInv) {p : Fin NPROC} {f : Fin NFILE}
    {x : Fin NOFILE ⊕ Fin VMAMAX} (hx : s.refs.hold (p, x) = some f) : (s.proc p).Alive := by
  by_contra hp
  have hlive : ¬ s.refs.live p := fun hl => hp (Or.inr hl)
  simp [h.idle p hlive x] at hx

/-- The holders of an entry are descriptors and regions. -/
theorem Kernel.RefInv.card_holders {s : Kernel} (h : s.RefInv) (f : Fin NFILE) :
    (holders s.refs.hold f).card = (s.openFds f).card + (s.openVmas f).card := by
  suffices hsum : (holders s.refs.hold f).map (Equiv.prodSumDistrib _ _ _).toEmbedding =
      (s.openFds f).disjSum (s.openVmas f) by
    rw [← Finset.card_disjSum, ← hsum, Finset.card_map]
  ext x
  rw [Finset.mem_map_equiv, mem_holders]
  cases x with
  | inl x =>
    rw [Finset.inl_mem_disjSum, Kernel.mem_openFds]
    constructor
    · intro hx
      exact ⟨h.alive hx, hx⟩
    · rintro ⟨-, hx⟩
      exact hx
  | inr x =>
    rw [Finset.inr_mem_disjSum, Kernel.mem_openVmas]
    constructor
    · intro hx
      have hheld : ((s.proc x.1).vma x.2).held = some f := hx
      unfold Vma.held at hheld
      split_ifs at hheld with hv
      exact ⟨h.alive hx, hv, hheld⟩
    · rintro ⟨-, hv, hf⟩
      exact Kernel.hold_vma hv hf

/-- **Reference counts.**  In every run of any processes, between system calls the counter of each entry
of the file table is the number of descriptors plus the number of valid mapped regions that refer to it,
over the processes that have not exited; the run does not stop in `filedup` or `fileclose`; and a
descriptor that `open` or `pipe` makes is for an entry that no descriptor and no region referred to. -/
theorem file_references (mem : Mem) (fs : Fs) (initcode : List Byte) (es : List (Fin NPROC × Sys)) :
    (∀ s, Kernel.run initcode es (Kernel.initial mem fs) = .ok () s →
      (∀ f, (s.file f).ref = (s.openFds f).card + (s.openVmas f).card) ∧
      ∀ p c t, (s.proc p).state = .runnable → (∃ path omode, c = .open path omode) ∨
          (∃ fdarray, c = .pipe fdarray) → Kernel.call p c s = .ok () t →
        ∀ q fd f, (t.proc q).ofile fd = some f → (s.proc q).ofile fd = some f ∨
          s.openFds f = ∅ ∧ s.openVmas f = ∅) ∧
    ∀ w s, Kernel.run initcode es (Kernel.initial mem fs) = .stop w s →
      w ≠ .panic "filedup" ∧ w ≠ .panic "fileclose" := by
  have hrun := Kernel.wp_run_refs mem fs initcode es
  refine ⟨fun s hs => ?_, fun w s hs => wp_stop hrun hs⟩
  have h := wp_ok hrun hs
  refine ⟨fun f => (h.counted f).trans (h.card_holders f), ?_⟩
  intro p c t hp hc ht q fd f hf
  have hfresh : s.refs.Fresh t.refs := by
    rcases hc with ⟨path, omode, rfl⟩ | ⟨fdarray, rfl⟩
    · exact (wp_ok (Kernel.wp_sysOpen h hp path omode) ht).2
    · exact (wp_ok (Kernel.wp_sysPipe h hp fdarray) ht).2
  rcases hfresh (q, .inl fd) f hf with hold | hnone
  · exact Or.inl hold
  · right
    have hcard := h.card_holders f
    rw [holders_eq_empty hnone, Finset.card_empty] at hcard
    exact ⟨Finset.card_eq_zero.1 (by omega), Finset.card_eq_zero.1 (by omega)⟩

end Xv6
