import Xv6.Proc.Args

/-!
# `exec`

While `exec` runs, the kernel holds the pages of the arguments and builds a page table that belongs to
no process yet: `Loading`.  When it succeeds the process takes this table and its old one is freed; when
it fails the new one is freed.

Main results: `wp_loadSegments_mem`, that loading the segments of a program keeps `Loading`, and
`wp_sysExec_mem`.
-/

namespace Xv6

open Stateful Kernel Function List

attribute [local irreducible] wp

variable {α : Type} {s t : Kernel} {S S' : KMap} {p : Fin NPROC}

/-! ### The kernel in the middle of `exec` -/

/-- The kernel is in the middle of `exec`, and the processes are `procs`. -/
def Loads (procs : Fin NPROC → Proc) (pt sz : ℕ) (args : ℕ → Option ℕ) (s : Kernel) : Prop :=
  s.proc = procs ∧ ∃ S, Loading s S pt sz args

variable {pt sz : ℕ} {args : ℕ → Option ℕ} {procs : Fin NPROC → Proc}

theorem Loading.elsewhere {pt' sz' : ℕ} {args' : ℕ → Option ℕ} (h : Loading s S pt sz args) {m : Mem}
    (hrep : Rep m S') (hroot : ∀ q, q ≠ none → S'.root q = S.root q)
    (hcell : ∀ q, q ≠ none → S'.cell q = S.cell q)
    (hbox : ∀ k, (∀ i, k ≠ .arg i) → (S'.box k).map Prod.fst = (S.box k).map Prod.fst)
    (hr : S'.root none = ptr pt') (htable : pt' ≠ 0 → TableOk S' none sz' fun _ => False)
    (harg : ∀ i, (S'.box (.arg i)).map Prod.fst = args' i) :
    Loading { s with mem := m } S' pt' sz' args' := by
  refine ⟨hrep, fun p => ?_, h.files, ?_, hr, htable, harg⟩
  · exact (h.proc p).of_eq rfl (hroot _ (by simp)) (hbox _ (by simp)) (hcell _ (by simp))
  · exact box_none_of_eq (hbox _ (by simp)) h.hand

theorem Loading.onTable (h : Loading s S pt sz args) {m : Mem} {sz' : ℕ} (hrep : Rep m S')
    (hroot : S'.root = S.root) (hbox : S'.box = S.box) (hcell : ∀ q, q ≠ none → S'.cell q = S.cell q)
    (htable : pt ≠ 0 → TableOk S' none sz' fun _ => False) :
    Loading { s with mem := m } S' pt sz' args :=
  h.elsewhere hrep (fun _ _ => by rw [hroot]) hcell (fun _ _ => by rw [hbox]) (by rw [hroot]; exact h.root)
    htable fun i => by rw [hbox]; exact h.arg i

/-- A program that does not touch what the invariant looks at, nor the processes. -/
theorem Loads.still {x : Prog Kernel α} (h : Loads procs pt sz args s)
    (hx : Keeps (fun t : Kernel => (t.memory, t.proc)) NoVmPanic x) :
    wp x (fun _ => Loads procs pt sz args) noVmPanic s := by
  obtain ⟨hproc, S, hS⟩ := h
  exact hx.wp_post fun _ _ ht => ⟨(congrArg Prod.snd ht).trans hproc, S,
    hS.of_memory (congrArg Prod.fst ht)⟩

theorem onFs_beside {x : Prog Fs α} (h : Stops FsPanic x) :
    Keeps (fun t : Kernel => (t.memory, t.proc)) NoVmPanic (onFs x) :=
  keeps_zoom (fun _ _ => rfl) (h.mono fun _ => NoVmPanic.fs)

theorem readStruct_beside (e : Fin NINODE) (off : BitVec 32) (len : ℕ) :
    Keeps (fun t : Kernel => (t.memory, t.proc)) NoVmPanic (readStruct e off len) := by
  unfold readStruct
  exact keeps_bind (onFs_beside (Fs.readi_stops _ _ _ _ _)) fun _ => keeps_pure _

/-! ### Arguments -/

theorem Loading.setArg (h : Loading s S pt sz args) {m : Mem} {i : ℕ} {x : Option (ℕ × Page)}
    (hm : Rep m (S.setBox (.arg i) x)) :
    Loading { s with mem := m } (S.setBox (.arg i) x) pt sz (update args i (x.map Prod.fst)) := by
  refine h.elsewhere hm (fun _ _ => rfl) (fun _ _ => rfl) (fun k hk => ?_) h.root
    (fun hne => (h.table hne).of_eq rfl) fun j => ?_
  · rw [MemMap.box_setBox_of_ne S (hk i)]
  · by_cases hj : j = i
    · rw [hj, MemMap.box_setBox_self, update_self]
    · rw [MemMap.box_setBox_of_ne S (by simpa using hj), update_of_ne hj]
      exact h.arg j

/-- The pages of the arguments, in the order in which they were taken. -/
def argPages (pages : List ℕ) (i : ℕ) : Option ℕ := pages[i]?

theorem argPages_concat (pages : List ℕ) (a : ℕ) :
    argPages (pages ++ [a]) = update (argPages pages) pages.length (some a) := by
  funext i
  unfold argPages
  by_cases hi : i = pages.length
  · rw [hi, update_self]
    simp
  · rw [update_of_ne hi, getElem?_append]
    split_ifs with hlt
    · rfl
    · rw [getElem?_eq_none (by simp; omega), getElem?_eq_none (by omega)]

theorem wp_fetchArgs_mem {uargv fuel i : ℕ} {pages : List ℕ} {argv : List (List Byte)}
    (h : Loads procs 0 0 (argPages pages) s) :
    wp (fetchArgs p uargv fuel i pages argv) (fun r => Loads procs 0 0 (argPages r.1)) noVmPanic s := by
  -- induction on the arguments: each takes one page
  induction fuel generalizing i pages argv s with
  | zero => exact (wp_pure _).2 h
  | succ fuel ih =>
    rw [fetchArgs, wp_bind, wp_get]
    dsimp only
    by_cases h1 : (s.proc p).sz ≤ add64 uargv (8 * i) ∨ (s.proc p).sz < add64 (add64 uargv (8 * i)) 8
    · rw [if_pos h1]
      exact (wp_pure _).2 h
    rw [if_neg h1]
    by_cases h2 : (!(copyin s.mem (s.proc p).pagetable (add64 uargv (8 * i)) 8).2) = true
    · rw [if_pos h2]
      exact (wp_pure _).2 h
    rw [if_neg h2]
    by_cases h3 : ofLE (copyin s.mem (s.proc p).pagetable (add64 uargv (8 * i)) 8).1 = 0
    · rw [if_pos h3]
      exact (wp_pure _).2 h
    rw [if_neg h3, wp_bind]
    obtain ⟨hproc, S, hS⟩ := h
    unfold onMem
    rw [wp_zoom]
    refine wp_kalloc hS.rep (fun _ => ?_) fun a m₁ hm₁ _ => ?_
    · rw [if_pos rfl]
      exact (wp_pure _).2 ⟨hproc, S, hS⟩
    · rw [if_neg hm₁.ne_zero, wp_bind, wp_get]
      have h₁ : Loads procs 0 0 (argPages (pages ++ [a])) { s with mem := m₁ } := by
        rw [argPages_concat]
        exact ⟨hproc, _, hS.setArg (hm₁.box (.arg pages.length))⟩
      cases copyinstr m₁ (s.proc p).pagetable
          (ofLE (copyin s.mem (s.proc p).pagetable (add64 uargv (8 * i)) 8).1) PGSIZE with
      | none => exact (wp_pure _).2 h₁
      | some str => exact ih h₁

theorem wp_freeArgs_mem {pages : List ℕ} {k : ℕ}
    (h : Loading s S 0 0 fun i => if i < k then none else argPages pages (i - k)) :
    wp (freeArgs pages) (fun _ t => KOk t) noVmPanic s := by
  -- induction on the pages left; the first `k` have been freed
  induction pages generalizing k s S with
  | nil =>
    have hnone : (fun i => if i < k then none else argPages [] (i - k)) = fun _ => none := by
      funext i
      split_ifs <;> rfl
    rw [hnone] at h
    exact (wp_pure _).2 ⟨S, h⟩
  | cons a pages ih =>
    have hbox := h.arg k
    rw [if_neg (Nat.lt_irrefl k), Nat.sub_self] at hbox
    obtain ⟨⟨b, pg⟩, hk, hb⟩ := Option.map_eq_some_iff.1 hbox
    obtain rfl : a = b := hb.symm
    rw [freeArgs, wp_bind]
    unfold onMem
    rw [wp_zoom]
    refine wp_kfree (h.rep.unbox hk) fun m hm => ih (S := S.setBox (.arg k) none) (k := k + 1) ?_
    have hm := h.setArg hm
    have heq : update (fun i => if i < k then none else argPages (a :: pages) (i - k)) k none =
        fun i => if i < k + 1 then none else argPages pages (i - (k + 1)) := by
      funext i
      by_cases hi : i = k
      · rw [hi, update_self, if_pos (Nat.lt_succ_self k)]
      · rw [update_of_ne hi]
        unfold argPages
        split_ifs with h1 h2 h2
        · rfl
        · omega
        · omega
        · rw [show i - k = i - (k + 1) + 1 by omega, getElem?_cons_succ]
    exact heq ▸ hm

/-! ### Segments -/

/-- **Reading from a file into a page that is mapped.** -/
theorem wp_readPage {Q : BitVec 32 → Kernel → Prop} {q : Tbl} {v : Vpn} {pte : BitVec 64} {pg : Page}
    (h : Rep s.mem S) (hv : ¬ Reserved v) (hc : S.cell q v = some (pte, pg)) (e : Fin NINODE)
    (off n : BitVec 32)
    (hQ : ∀ r m f S', Rep m S' → Rewritten S S' q → Q r { s with mem := m, fs := f }) :
    wp (readPage e (pte2pa pte) off n) Q noVmPanic s := by
  unfold readPage onFs
  rw [wp_bind, wp_get, wp_bind, wp_zoom]
  refine wp_mono (Fs.wp_readi_sink (I := fun m => ∃ S', Rep m S' ∧ Rewritten S S' q) ?_ e _ _
    ⟨S, h, Rewritten.refl _ _⟩ s.fs) (fun r f hr => ?_) fun _ _ hw => NoVmPanic.fs hw
  · rintro m tot bytes ⟨S', hrep, hw⟩
    have he := hw.entry v
    rw [hc] at he
    obtain ⟨⟨pte', pg'⟩, hc', hpte⟩ := Option.map_eq_some_iff.1 he
    dsimp only at hpte
    subst hpte
    exact ⟨_, hrep.setCell hv hc' _, hw.trans (rewritten_setCell hc' _)⟩
  · obtain ⟨S', hrep, hw⟩ := hr
    rw [wp_bind, wp_modify, wp_pure]
    exact hQ r.2 r.1 f S' hrep hw

theorem wp_loadsegLoop_mem {va offset len fuel i : ℕ} {e : Fin NINODE} (h : Loads procs pt sz args s)
    (hpt : pt ≠ 0) :
    wp (loadsegLoop pt va e offset len fuel i) (fun _ => Loads procs pt sz args) noVmPanic s := by
  induction fuel generalizing i s with
  | zero => exact (wp_pure _).2 h
  | succ fuel ih =>
    rw [loadsegLoop]
    by_cases hi : i < len
    swap
    · rw [if_neg hi]
      exact (wp_pure _).2 h
    obtain ⟨hproc, S, hS⟩ := h
    have hroot : S.root none = some pt := by rw [hS.root, ptr_of_ne hpt]
    rw [if_pos hi, wp_bind, wp_get]
    dsimp only
    by_cases hpa : walkaddr s.mem pt (add64 va i) = 0
    · rw [if_pos hpa, wp_bind, wp_panic]
      simp [NoVmPanic]
    rw [if_neg hpa, wp_bind]
    obtain ⟨x, hx⟩ := Option.ne_none_iff_exists'.1 ((hS.rep.walkaddr_ne_zero hroot _).1 hpa)
    obtain ⟨hres, hwalk, -, -⟩ := hS.rep.userPage_page hroot hx
    rw [hwalk]
    refine wp_readPage hS.rep hres (userPage_eq_some.1 hx).2.1 e _ _ fun r m f S₁ hm hw => ?_
    have h₁ : Loads procs pt sz args { s with mem := m, fs := f } :=
      ⟨hproc, S₁, (hS.rewritten hm hw).of_memory rfl⟩
    split_ifs
    · exact (wp_pure _).2 h₁
    · exact ih h₁

theorem wp_uvmalloc_loading {Q : ℕ → Kernel → Prop} {new : ℕ} {xperm : BitVec 32}
    (h : Loading s S pt sz args) (hpt : pt ≠ 0) (hperm : (heapPerm xperm).toNat < 1024)
    (hx : heapPerm xperm ||| PTEV ≠ PTEV) (hsame : new < sz → Q sz s)
    (h0 : ∀ m, Loading { s with mem := m } S pt sz args → Q 0 { s with mem := m })
    (h1 : ∀ m S', sz ≤ new → Loading { s with mem := m } S' pt new args →
      Grown S S' none (pages sz) (pages new) (heapPerm xperm) → Q new { s with mem := m }) :
    wp (onMem (uvmalloc pt sz new xperm)) Q noVmPanic s := by
  have hroot : S.root none = some pt := by rw [h.root, ptr_of_ne hpt]
  have htable := h.table hpt
  have hsmall := htable.small
  rw [pageAddr_TRAPFRAME] at hsmall
  unfold onMem
  rw [wp_zoom]
  refine wp_uvmalloc h.rep hroot h.hand hperm hx (by omega) (fun v hv => htable.cell_ne_none hv)
    (fun _ _ _ _ _ => by simp [NoVmPanic]) hsame (fun m hm => h0 m ?_) fun hle m S' hm hg => ?_
  · exact h.onTable hm rfl rfl (fun _ _ => rfl) h.table
  · exact h1 m S' hle (h.onTable hm hg.root hg.box (fun q hq => funext fun v =>
      hg.frame q v fun hc => hq hc.1)
      fun _ => htable.grown hg hle (htable.grown_small hm hg) hx) hg

theorem flags2perm_ok (flags : ℕ) : (heapPerm (flags2perm flags)).toNat < 1024 ∧
    heapPerm (flags2perm flags) ||| PTEV ≠ PTEV := by
  unfold flags2perm
  split_ifs <;> decide

theorem wp_loadSegments_mem {e : Fin NINODE} {phnum : ℕ} {off : BitVec 32} (h : Loads procs pt sz args s)
    (hpt : pt ≠ 0) :
    wp (loadSegments pt e phnum off sz) (fun r => Loads procs pt r.1 args) noVmPanic s := by
  induction phnum generalizing off sz s with
  | zero => exact (wp_pure _).2 h
  | succ phnum ih =>
    rw [loadSegments]
    refine wp_seq (h.still (readStruct_beside e off 56)) fun r s₁ h₁ => ?_
    cases r with
    | none => exact (wp_pure _).2 h₁
    | some bytes =>
      dsimp only
      generalize ProgHdr.decode bytes = ph
      by_cases htype : ph.type ≠ 1
      · rw [if_pos htype]
        exact ih h₁
      rw [if_neg htype]
      by_cases hbad : ph.memsz < ph.filesz ∨ add64 ph.vaddr ph.memsz < ph.vaddr ∨ ph.vaddr % PGSIZE ≠ 0
      · rw [if_pos hbad]
        exact (wp_pure _).2 h₁
      rw [if_neg hbad, wp_bind]
      -- the rest of a round, once the table has its new size
      have hrest : ∀ sz1 s₂, Loads procs pt sz1 args s₂ → wp (do
            let ok ← loadseg pt ph.vaddr e ph.off ph.filesz
            if !ok then
              return (sz1, false)
            loadSegments pt e phnum (off + 56) sz1)
          (fun r => Loads procs pt r.1 args) noVmPanic s₂ := by
        intro sz1 s₂ h₂
        refine wp_seq (wp_loadsegLoop_mem h₂ hpt) fun ok s₃ h₃ => ?_
        split_ifs
        · exact (wp_pure _).2 h₃
        · exact ih h₃
      obtain ⟨hperm, hx⟩ := flags2perm_ok ph.flags
      obtain ⟨hproc, S, hS⟩ := h₁
      refine wp_uvmalloc_loading hS hpt hperm hx (fun _ => ?_) (fun m hm => ?_) fun m S₂ hle h₂ _ => ?_
      · split_ifs with hz
        · exact (wp_pure _).2 ⟨hproc, S, hS⟩
        · exact hrest sz s₁ ⟨hproc, S, hS⟩
      · rw [if_pos rfl]
        exact (wp_pure _).2 ⟨hproc, S, hm⟩
      · split_ifs with hz
        · rw [hz] at hle h₂
          refine (wp_pure _).2 ⟨hproc, S₂, ?_⟩
          rwa [Nat.le_zero.1 hle]
        · exact hrest _ _ ⟨hproc, S₂, h₂⟩

/-! ### The stack -/

/-- The kernel copies to the table that is being built. -/
theorem wp_copyOut_mem {a : ℕ} (h : Loads procs pt sz args s) (hpt : pt ≠ 0) (ha : a < 2 ^ 64)
    (bytes : List Byte) : wp (copyOut pt a bytes) (fun _ => Loads procs pt sz args) noVmPanic s := by
  obtain ⟨hproc, S, hS⟩ := h
  obtain ⟨-, S', n, hrep, hw, -⟩ := rep_copyout hS.rep (by rw [hS.root, ptr_of_ne hpt]) bytes ha
  unfold copyOut
  rw [wp_bind, wp_get]
  dsimp only
  rw [wp_bind, wp_modify, wp_pure]
  exact ⟨hproc, S', hS.rewritten hrep hw.rewritten⟩

theorem sub64_round_lt (a b : ℕ) : sub64 a b - sub64 a b % 16 < 2 ^ 64 :=
  (Nat.sub_le _ _).trans_lt (Nat.mod_lt _ (by decide))

theorem wp_pushStrings_mem {base sp : ℕ} {argv : List (List Byte)} {ustack : List ℕ}
    (h : Loads procs pt sz args s) (hpt : pt ≠ 0) :
    wp (pushStrings pt base argv sp ustack) (fun _ => Loads procs pt sz args) noVmPanic s := by
  induction argv generalizing sp ustack s with
  | nil => exact (wp_pure _).2 h
  | cons arg argv ih =>
    rw [pushStrings]
    dsimp only
    split_ifs
    · exact (wp_pure _).2 h
    · exact (wp_pure _).2 h
    refine wp_seq (wp_copyOut_mem h hpt (sub64_round_lt _ _) _) fun ok t ht => ?_
    split_ifs
    · exact (wp_pure _).2 ht
    · exact ih ht

theorem wp_pushArgs_mem {base sp : ℕ} {argv : List (List Byte)}
    (h : Loads procs pt sz args s) (hpt : pt ≠ 0) :
    wp (pushArgs pt base sp argv) (fun _ => Loads procs pt sz args) noVmPanic s := by
  unfold pushArgs
  refine wp_seq (wp_pushStrings_mem h hpt) fun r t ht => ?_
  cases r with
  | none => exact (wp_pure _).2 ht
  | some x =>
    dsimp only
    split_ifs
    · exact (wp_pure _).2 ht
    · exact wp_seq (wp_copyOut_mem ht hpt (sub64_round_lt _ _) _) fun ok u hu => (wp_pure _).2 hu

/-! ### Committing to the new image -/

theorem Loading.free {Q : Unit → Kernel → Prop} (h : Loading s S pt sz args) (hpt : pt ≠ 0)
    (hQ : ∀ t, Loads s.proc 0 0 args t → Q () t) : wp (procFreepagetable pt sz) Q noVmPanic s := by
  have hr : S.root none = some pt := by rw [h.root, ptr_of_ne hpt]
  have hroot : ∀ q, q ≠ none → (S.drop none).root q = S.root q := fun q hq => update_of_ne hq _ _
  have hcell : ∀ q, q ≠ none → (S.drop none).cell q = S.cell q := fun q hq => update_of_ne hq _ _
  have hnone : (S.drop none).root none = none := by simp [MemMap.drop]
  refine wp_procFreepagetable h.rep hr (h.table hpt) fun m hm => hQ _ ⟨rfl, _,
    Loading.of_memory (h.elsewhere hm hroot hcell (fun _ _ => rfl) hnone
      (fun hc => absurd rfl hc) h.arg) rfl⟩

theorem wp_execBad_mem (h : Loads procs pt sz args s) (ip : Option (Fin NINODE)) :
    wp (execBad pt sz ip) (fun _ t => ∃ procs, Loads procs 0 0 args t) noVmPanic s := by
  have hput : ∀ t procs e, Loads procs 0 0 args t → wp (do
      onFs (Fs.iput e)
      return false) (fun _ t => ∃ procs, Loads procs 0 0 args t) noVmPanic t := fun t procs e ht =>
    wp_seq (ht.still (onFs_beside (Fs.iput_stops e))) fun _ u hu => (wp_pure _).2 ⟨procs, hu⟩
  obtain ⟨hproc, S, hS⟩ := h
  unfold execBad
  split_ifs with hpt
  · rw [wp_bind]
    refine hS.free hpt fun t ht => ?_
    cases ip with
    | none => exact (wp_pure _).2 ⟨_, ht⟩
    | some e => exact hput t _ e ht
  · obtain rfl := not_not.1 hpt
    have hs : Loads procs 0 0 args s := ⟨hproc, S, { hS with table := fun hc => absurd rfl hc }⟩
    cases ip with
    | none => exact (wp_pure _).2 ⟨_, hs⟩
    | some e => exact hput s _ e hs

/-- **The process takes the new table**, and the old one is the one to be freed. -/
theorem Loading.swap (h : Loading s S pt sz args) (hpt : pt ≠ 0) (hp : (s.proc p).state = .runnable) :
    Loading (s.updProc p fun pr => { pr with pagetable := pt, sz := sz })
      (S.reindex (Equiv.swap none (some p))) (s.proc p).pagetable (s.proc p).sz args := by
  have hpr := h.proc p
  have hpp : Equiv.swap none (some p) (some p) = none := Equiv.swap_apply_right _ _
  have hnn : Equiv.swap none (some p) none = some p := Equiv.swap_apply_left _ _
  have hother : ∀ r, r ≠ p → Equiv.swap none (some p) (some r) = some r := fun r hr =>
    Equiv.swap_apply_of_ne_of_ne (by simp) fun hc => hr (Option.some_inj.1 hc)
  refine ⟨h.rep.reindex (Equiv.injective _), fun r => ?_, h.files, h.hand, ?_,
    fun hne => (hpr.space hne).of_eq (congrArg S.cell hnn), h.arg⟩
  · by_cases hr : r = p
    · rw [hr, proc_updProc_self]
      refine ⟨?_, hpr.frame, fun _ => (h.table hpt).of_eq (congrArg S.cell hpp), fun hc => absurd hc hpt,
        hpr.idle, fun hc => absurd (hp.symm.trans hc) (by simp), fun _ => ⟨hpt, (hpr.live hp).2⟩⟩
      rw [← h.root]
      exact congrArg S.root hpp
    · rw [proc_updProc_of_ne _ hr]
      exact (h.proc r).of_eq rfl (congrArg S.root (hother r hr)) rfl (congrArg S.cell (hother r hr))
  · rw [← hpr.root]
    exact congrArg S.root hnn

theorem wp_execCommit_mem (h : Loads procs pt sz args s) (hpt : pt ≠ 0) (hp : (s.proc p).state = .runnable)
    (entry : ℕ) (argv : List (List Byte)) :
    wp (execCommit p pt sz entry argv) (fun _ t => ∃ procs, Loads procs 0 0 args t) noVmPanic s := by
  obtain ⟨-, S, h⟩ := h
  have hpg : PGSIZE = 4096 := rfl
  obtain ⟨P, hbound, hup, htable⟩ := (h.table hpt).rounded h.rep
  have h' : Loading s S pt (P * 4096) args := { h with table := fun _ => htable }
  have hlive := ((h.proc p).live hp)
  unfold execCommit
  rw [wp_bind, wp_get, hup, hpg]
  dsimp only
  rw [add64_eq (by omega), wp_bind]
  refine wp_uvmalloc_loading h' hpt (by decide) (by decide) (fun hlt => by omega)
    (fun m hm => ?_) fun m S₁ _ h₁ hg => ?_
  · rw [if_pos rfl]
    exact wp_execBad_mem ⟨rfl, S, hm⟩ none
  have hstack : sub64 (P * 4096 + 2 * 4096) (2 * 4096) = P * 4096 :=
    (sub64_eq (Nat.le_add_left _ _) (by omega)).trans (Nat.add_sub_cancel _ _)
  unfold onMem
  rw [if_neg (by omega), wp_bind, wp_zoom, hstack]
  have hguard : (vpn (P * 4096)).val = P := by
    rw [vpn_val (by show _ < 2 ^ 38; omega)]
    omega
  rw [pages_mul, show pages (P * 4096 + 2 * 4096) = P + 2 by rw [← Nat.add_mul, pages_mul]] at hg
  obtain ⟨pte, hc, -⟩ := hg.new (vpn (P * 4096)) (by omega) (by omega)
  refine wp_uvmclear h₁.rep (by rw [h₁.root, ptr_of_ne hpt]) (by show _ < 2 ^ 38; omega)
    (not_reserved_of_lt (by omega)) hc fun m₂ hm₂ => ?_
  have htable₂ : TableOk _ none (P * 4096 + 2 * 4096) _ := htable.stack (by omega) hg hguard hc
  have h₂ := h₁.onTable hm₂ rfl rfl (fun q hq => funext fun v => by
    rw [MemMap.cell_setCell, if_neg fun hcon => hq hcon.1]) fun _ => htable₂
  refine wp_seq (wp_pushArgs_mem ⟨rfl, _, h₂⟩ hpt) fun r s₃ h3 => ?_
  obtain ⟨hproc, S₃, h₃⟩ := h3
  change s₃.proc = s.proc at hproc
  cases r with
  | none => exact wp_execBad_mem ⟨rfl, S₃, h₃⟩ none
  | some sp =>
    dsimp only
    rw [wp_bind]
    refine h₃.setReg (p := p) (by rw [hproc]) hlive.2 _ _ fun m₄ S₄ h₄ => ?_
    rw [wp_bind, wp_modify, wp_bind]
    have h₅ := h₄.swap hpt (p := p) (by show (s₃.proc p).state = _; rw [hproc]; exact hp)
    change Loading _ _ (s₃.proc p).pagetable (s₃.proc p).sz args at h₅
    rw [congrFun hproc p] at h₅
    have htf : ((Kernel.updProc { s₃ with mem := m₄ } p fun pr => { pr with
        pagetable := pt, sz := P * 4096 + 2 * 4096 }).proc p).trapframe = (s.proc p).trapframe := by
      rw [proc_updProc_self]
      show (s₃.proc p).trapframe = _
      rw [hproc]
    refine h₅.setReg htf hlive.2 _ _ fun m₆ S₆ h₆ => ?_
    rw [wp_bind]
    refine h₆.setReg htf hlive.2 _ _ fun m₇ S₇ h₇ => ?_
    rw [wp_bind]
    exact h₇.free hlive.1 fun t ht => (wp_pure _).2 ⟨_, ht⟩

/-! ### The system call -/

theorem wp_execProg_mem (h : Loads procs 0 0 args s) (hp : (s.proc p).state = .runnable) (path : Option ℕ)
    (argv : List (List Byte)) :
    wp (execProg p path argv) (fun _ t => ∃ procs, Loads procs 0 0 args t) noVmPanic s := by
  obtain rfl := h.1
  unfold execProg
  cases path with
  | none => exact (wp_pure _).2 ⟨_, h⟩
  | some inum =>
    refine wp_seq (h.still (onFs_beside (Fs.iget_stops inum))) fun e s₁ h₁ => ?_
    refine wp_seq (h₁.still (onFs_beside (Fs.ilock_stops e))) fun _ s₂ h₂ => ?_
    refine wp_seq (h₂.still (readStruct_beside e 0 64)) fun r s₃ h₃ => ?_
    cases r with
    | none => exact wp_execBad_mem h₃ (some e)
    | some bytes =>
      dsimp only
      split_ifs
      · exact wp_execBad_mem h₃ (some e)
      obtain ⟨hproc, S, hS⟩ := h₃
      rw [wp_bind, wp_get, wp_bind]
      unfold onMem
      rw [wp_zoom]
      refine wp_procPagetable hS.rep hS.root _ (fun m hm => ?_) fun r m S₄ hr hm hnew => ?_
      · rw [if_pos rfl]
        exact wp_execBad_mem ⟨rfl, S, hS.onTable hm rfl rfl (fun _ _ => rfl) hS.table⟩ (some e)
      rw [if_neg hr]
      have h₄ : Loading { s₃ with mem := m } S₄ r 0 args := hS.elsewhere hm
        (fun q hq => by rw [hnew.root, update_of_ne hq]) hnew.other (fun k _ => by rw [hnew.box])
        (by rw [hnew.root, update_self, ptr_of_ne hr]) (fun _ => hnew.ok) fun i =>
        by rw [hnew.box]; exact hS.arg i
      refine wp_seq (wp_loadSegments_mem ⟨hproc, S₄, h₄⟩ hr) fun x s₅ h₅ => ?_
      split_ifs
      · exact wp_execBad_mem h₅ (some e)
      refine wp_seq (h₅.still (onFs_beside (Fs.iput_stops e))) fun _ s₆ h₆ => ?_
      exact wp_execCommit_mem h₆ hr (by rw [h₆.1]; exact hp) _ _

/-- **The `exec` system call.** -/
theorem wp_sysExec_mem (h : KInv s S) (hp : (s.proc p).state = .runnable) (path : Option ℕ) (uargv : ℕ) :
    wp (sysExec p path uargv) (fun _ t => KOk t) noVmPanic s := by
  have hnone : (fun _ => none) = argPages [] := funext fun _ => rfl
  have h₀ : Loads s.proc 0 0 (argPages []) s := ⟨rfl, S, hnone ▸ h⟩
  unfold sysExec
  refine wp_seq (wp_fetchArgs_mem h₀) fun r t ht => ?_
  obtain ⟨pages, argv⟩ := r
  cases argv with
  | none =>
    obtain ⟨-, S₁, h₁⟩ := ht
    exact wp_freeArgs_mem (k := 0) (by simpa using h₁)
  | some argv =>
    refine wp_seq (wp_execProg_mem ht (by rw [ht.1]; exact hp) path argv) fun _ u hu => ?_
    obtain ⟨procs, -, S₂, h₂⟩ := hu
    exact wp_freeArgs_mem (k := 0) (by simpa using h₂)

end Xv6
