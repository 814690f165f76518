import Xv6.Vm.Space

/-!
# Copying memory

* `wp_uvmcopy`: **a table gets a copy of the heap of another**, or nothing changes;
* `wp_uvmclear`: a page is taken from the user;
* `Readable`, `Storable`: what the user may read and write, by the entry for the address;
* `rep_copyout`: `copyout` writes to pages the user may write, and to no others.
-/

namespace Xv6

open Stateful List

attribute [local irreducible] wp

variable {ρ κ : Type} [DecidableEq ρ] [DecidableEq κ]
variable {m : Mem} {S : MemMap ρ κ} {q q' : ρ} {k : κ} {A : Stop → Mem → Prop}

/-! ### Flags -/

theorem toNat_pteFlags_lt (x : BitVec 64) : (pteFlags x).toNat < 1024 := by
  have hmask : (0x3FF#64).toNat = 2 ^ 10 - 1 := rfl
  unfold pteFlags
  rw [BitVec.toNat_and, hmask, Nat.and_two_pow_sub_one_eq_mod]
  exact Nat.mod_lt _ (by decide)

/-- The flags of an entry pass through an `int`. -/
theorem signExtend_pteFlags (x : BitVec 64) : ((pteFlags x).setWidth 32).signExtend 64 = pteFlags x := by
  have hlt := toNat_pteFlags_lt x
  have hmsb : ((pteFlags x).setWidth 32).msb = false := by
    rw [BitVec.msb_eq_false_iff_two_mul_lt, BitVec.toNat_setWidth]
    omega
  apply BitVec.eq_of_toNat_eq
  rw [BitVec.signExtend_eq_setWidth_of_msb_false hmsb, BitVec.toNat_setWidth, BitVec.toNat_setWidth]
  omega

theorem pteFlags_or_valid {x : BitVec 64} (h : hasFlag x PTEV = true) :
    pteFlags x ||| PTEV = pteFlags x := by
  have hbit : x.getLsbD 0 = true := by
    by_contra hc
    have hzero : x &&& PTEV = 0 := by
      apply BitVec.eq_of_getLsbD_eq
      intro i _
      rcases Nat.eq_zero_or_pos i with rfl | hi
      · simpa using hc
      · have : (PTEV).getLsbD i = false := by
          rw [BitVec.getLsbD_one]
          simp
          omega
        simp [this]
    simp [hasFlag, hzero] at h
  apply BitVec.eq_of_getLsbD_eq
  intro i _
  unfold pteFlags
  rcases Nat.eq_zero_or_pos i with rfl | hi
  · simp [hbit]
  · have : (PTEV).getLsbD i = false := by
      rw [BitVec.getLsbD_one]
      simp
      omega
    simp [this]

/-! ### `uvmcopy` -/

/-- The virtual pages from `lo` to before `hi` of the table `q` have been copied to the table `q'`. -/
structure Copied (S S' : MemMap ρ κ) (q q' : ρ) (lo hi : ℕ) : Prop where
  root : S'.root = S.root
  box : S'.box = S.box
  frame : ∀ r v, ¬ (r = q' ∧ lo ≤ v.val ∧ v.val < hi) → S'.cell r v = S.cell r v
  copy : ∀ v : Vpn, lo ≤ v.val → v.val < hi → ∃ pte pg pte', S.cell q v = some (pte, pg) ∧
    S'.cell q' v = some (pte', pg) ∧ pteFlags pte' = pteFlags pte

omit [DecidableEq ρ] [DecidableEq κ] in
theorem Copied.refl (S : MemMap ρ κ) (q q' : ρ) {lo hi : ℕ} (h : ∀ v : Vpn, lo ≤ v.val → ¬ v.val < hi) :
    Copied S S q q' lo hi :=
  ⟨rfl, rfl, fun _ _ _ => rfl, fun v hlo hhi => absurd hhi (h v hlo)⟩

omit [DecidableEq κ] in
theorem Copied.cons {S' : MemMap ρ κ} {v : Vpn} {hi : ℕ} {pte pte' : BitVec 64} {pg : Page}
    (hne : q ≠ q') (hc : S.cell q v = some (pte, pg)) (hflags : pteFlags pte' = pteFlags pte)
    (hv : v.val < hi) (h : Copied (S.setCell q' v (some (pte', pg))) S' q q' (v.val + 1) hi) :
    Copied S S' q q' v.val hi := by
  refine ⟨h.root, h.box, ?_, ?_⟩
  · intro r w hout
    rw [h.frame r w (fun hc => hout ⟨hc.1, by omega, hc.2.2⟩), MemMap.cell_setCell, if_neg]
    rintro ⟨rfl, rfl⟩
    exact hout ⟨rfl, le_rfl, hv⟩
  · intro w hlo hhi
    by_cases hw : w = v
    · subst hw
      refine ⟨pte, pg, pte', hc, ?_, hflags⟩
      rw [h.frame q' w (by omega), MemMap.cell_setCell, if_pos ⟨rfl, rfl⟩]
    · have hlt : w.val ≠ v.val := fun he => hw (Fin.ext he)
      obtain ⟨pte₁, pg₁, pte₂, h1, h2, h3⟩ := h.copy w (by omega) hhi
      rw [MemMap.cell_setCell, if_neg (fun hc => hne hc.1)] at h1
      exact ⟨pte₁, pg₁, pte₂, h1, h2, h3⟩

/-- The loop of `uvmcopy`. -/
theorem wp_copyLoop {Q : Option ℕ → Mem → Prop} {old new sz fuel i : ℕ} (h : Rep m S)
    (hr : S.root q = some old) (hr' : S.root q' = some new) (hne : q ≠ q') (hk : S.box k = none)
    (hal : i % 4096 = 0) (hsz : sz ≤ TRAPFRAME) (hfuel : sz ≤ i + fuel * 4096)
    (hfull : ∀ v : Vpn, v.val < pages sz → S.cell q v ≠ none)
    (hempty : ∀ v : Vpn, i / 4096 ≤ v.val → v.val < pages sz → S.cell q' v = none)
    (h1 : ∀ m' S', Rep m' S' → Copied S S' q q' (i / 4096) (pages sz) → Q none m')
    (h0 : ∀ j m' S', i ≤ j → j < sz → j % 4096 = 0 → Rep m' S' →
      Copied S S' q q' (i / 4096) (j / 4096) → Q (some j) m') :
    wp (copyLoop old new sz fuel i) Q A m := by
  have hpg : PGSIZE = 4096 := rfl
  have htf := pageAddr_TRAPFRAME
  have hps : pages sz = (sz + 4095) / 4096 := rfl
  induction fuel generalizing m S i with
  | zero =>
    rw [copyLoop, wp_pure]
    exact h1 m S h (Copied.refl S q q' fun v hlo => by omega)
  | succ fuel ih =>
    rw [copyLoop]
    by_cases hlt : i < sz
    · have hmax : MAXVA = 2 ^ 38 := rfl
      have hval : (vpn i).val = i / 4096 := vpn_val (by omega)
      have hres : ¬ Reserved (vpn i) := not_reserved_of_lt (by omega)
      obtain ⟨⟨pte, pg⟩, hcell⟩ := Option.ne_none_iff_exists'.1 (hfull (vpn i) (by omega))
      obtain ⟨he, hflag⟩ := h.entry_of_cell hcell
      rw [if_pos hlt, wp_bind]
      apply wp_walk h hr (by omega)
      · intro m' t hm' ht hsame
        obtain rfl := hsame rfl
        rw [Rep.entry_of_table ht] at he
        rw [wp_bind, wp_get, he, if_neg (by rw [hflag]; decide), wp_bind]
        apply wp_kalloc h
        · intro _
          rw [if_pos rfl, wp_pure]
          exact h0 i m' S le_rfl hlt hal h (Copied.refl S q q' fun v hlo => by omega)
        · intro mem m₁ hm₁ _
          have hsrc := (hm₁.drop.pageIn_cell hres hcell).2
          have hbox := (hm₁.write pg).box k
          rw [Rep.page_setPage_self] at hbox
          rw [if_neg hm₁.ne_zero, wp_bind, wp_modify, hsrc, wp_bind]
          apply wp_mappages (k := k) (q := q') hbox hr' (by omega) (by rwa [hpg]) hres
            (MemMap.box_setBox_self _ _ _)
          · rw [signExtend_pteFlags]
            exact toNat_pteFlags_lt pte
          · intro hcon _ _
            exact absurd (hempty (vpn i) (by omega) (by omega)) hcon
          · intro _ m₂ hm₂
            rw [MemMap.setBox_setBox_none S hk, signExtend_pteFlags] at hm₂
            have hflags : pteFlags (pa2pte mem ||| pteFlags pte ||| PTEV) = pteFlags pte := by
              rw [pteFlags_mk mem (toNat_pteFlags_lt pte), pteFlags_or_valid hflag]
            have hnext : add64 i PGSIZE = i + 4096 := by
              rw [hpg, add64_eq (by omega)]
            have hdiv : (i + 4096) / 4096 = (vpn i).val + 1 := by omega
            rw [if_neg (by decide), hnext]
            apply ih hm₂ hr hr' hk (by omega) (by omega)
            · intro v hv
              rw [MemMap.cell_setCell, if_neg (fun hc => hne hc.1)]
              exact hfull v hv
            · intro v hlo hhi
              rw [MemMap.cell_setCell, if_neg]
              · exact hempty v (by omega) hhi
              · rintro ⟨-, rfl⟩
                omega
            · intro m' S' hm' hc
              rw [hdiv] at hc
              rw [← hval] at h1
              exact h1 m' S' hm' (hc.cons hne hcell hflags (by omega))
            · intro j m' S' hij hj hjal hm' hc
              rw [hdiv] at hc
              rw [← hval] at h0
              exact h0 j m' S' (by omega) hj hjal hm' (hc.cons hne hcell hflags (by omega))
          · intro m₂ hm₂
            have hhold := hm₂.unbox (MemMap.box_setBox_self _ _ _)
            rw [MemMap.setBox_setBox_none S hk] at hhold
            rw [if_pos (by decide), wp_bind]
            apply wp_kfree hhold
            intro m₃ hm₃
            rw [wp_pure]
            exact h0 i m₃ S le_rfl hlt hal hm₃ (Copied.refl S q q' fun v hlo => by omega)
      · intro m' _ hsame
        simp [(hsame rfl).2] at hcell
    · rw [if_neg hlt, wp_pure]
      exact h1 m S h (Copied.refl S q q' fun v hlo => by omega)

/-- **The heap is copied**, or nothing changes. -/
theorem wp_uvmcopy {Q : Bool → Mem → Prop} {old new sz : ℕ} (h : Rep m S) (hr : S.root q = some old)
    (hr' : S.root q' = some new) (hne : q ≠ q') (hk : S.box k = none) (hsz : sz ≤ TRAPFRAME)
    (hfull : ∀ v : Vpn, v.val < pages sz →
      ∃ pte pg, S.cell q v = some (pte, pg) ∧ pteFlags pte ≠ PTEV)
    (hempty : ∀ v : Vpn, v.val < pages sz → S.cell q' v = none)
    (h1 : ∀ m' S', Rep m' S' → Copied S S' q q' 0 (pages sz) → Q true m')
    (h0 : ∀ m', Rep m' S → Q false m') : wp (uvmcopy old new sz) Q A m := by
  have htf := pageAddr_TRAPFRAME
  have hps : pages sz = (sz + 4095) / 4096 := rfl
  unfold uvmcopy
  rw [wp_bind]
  apply wp_copyLoop (k := k) h hr hr' hne hk (by omega) hsz
  · show sz ≤ 0 + (sz / 4096 + 1) * 4096
    omega
  · intro v hv hnone
    obtain ⟨pte, pg, hc, -⟩ := hfull v hv
    simp [hc] at hnone
  · exact fun v _ hv => hempty v hv
  · intro m' S' hm' hc
    rw [wp_pure]
    exact h1 m' S' hm' hc
  · intro j m' S' _ hj hjal hm' hc
    replace hc : Copied S S' q q' 0 (j / 4096) := hc
    rw [wp_bind]
    apply wp_uvmunmap (q := q') hm' (by rwa [hc.root]) (by rfl)
    · show 0 + j / 4096 * 4096 ≤ TRAPFRAME
      omega
    · intro v hlo hhi hv
      obtain ⟨pte, pg, pte', h2, h3, h4⟩ := hc.copy v (Nat.zero_le _) (by simpa using hhi)
      obtain ⟨pte₁, pg₁, h5, h6⟩ := hfull v (by
        have : v.val < j / 4096 := by simpa using hhi
        omega)
      rw [h2, Option.some_inj, Prod.mk.injEq] at h5
      have := hv pte' pg h3
      rw [h4, h5.1] at this
      exact absurd this h6
    · intro m₂ hm₂
      rw [wp_pure]
      apply h0
      -- what was copied is gone again
      have hback : S'.clearRange q' (0 / 4096) (0 / 4096 + j / PGSIZE) = S := by
        apply MemMap.ext
        · exact hc.root
        · funext r v
          show (if r = q' ∧ 0 / 4096 ≤ v.val ∧ v.val < 0 / 4096 + j / 4096 then none
            else S'.cell r v) = S.cell r v
          by_cases hin : r = q' ∧ 0 / 4096 ≤ v.val ∧ v.val < 0 / 4096 + j / 4096
          · rw [if_pos hin, hin.1, hempty v (by omega)]
          · rw [if_neg hin]
            exact hc.frame r v (fun hcon => hin ⟨hcon.1, by omega, by omega⟩)
        · exact hc.box
      rwa [hback] at hm₂

/-! ### `uvmclear` -/

theorem pte2pa_andNot_PTEU (x : BitVec 64) : pte2pa (x &&& ~~~PTEU) = pte2pa x := by
  have hsplit : x = (x &&& ~~~PTEU) ||| (x &&& PTEU) := by
    ext i hi
    simp only [BitVec.getElem_or, BitVec.getElem_and, BitVec.getElem_not]
    cases x[i] <;> cases (PTEU)[i] <;> rfl
  have hsmall : (x &&& PTEU).toNat < 1024 := by
    rw [BitVec.toNat_and]
    exact lt_of_le_of_lt Nat.and_le_right (by decide)
  nth_rewrite 2 [hsplit]
  rw [pte2pa_or hsmall]

theorem hasFlag_andNot_PTEU (x : BitVec 64) : hasFlag (x &&& ~~~PTEU) PTEV = hasFlag x PTEV := by
  unfold hasFlag
  rw [BitVec.and_assoc, show ~~~PTEU &&& PTEV = PTEV from rfl]

/-- **A page is taken from the user.** -/
theorem wp_uvmclear {Q : Unit → Mem → Prop} {pt va : ℕ} {pte : BitVec 64} {pg : Page} (h : Rep m S)
    (hr : S.root q = some pt) (hva : va < MAXVA) (hv : ¬ Reserved (vpn va))
    (hc : S.cell q (vpn va) = some (pte, pg))
    (hQ : ∀ m', Rep m' (S.setCell q (vpn va) (some (pte &&& ~~~PTEU, pg))) → Q () m') :
    wp (uvmclear pt va) Q A m := by
  obtain ⟨he, hflag⟩ := h.entry_of_cell hc
  unfold uvmclear
  rw [wp_bind]
  apply wp_walk h hr hva
  · intro m' t hm' ht hsame
    obtain rfl := hsame rfl
    rw [Rep.entry_of_table ht] at he
    rw [wp_modify, he]
    exact hQ _ (h.setFlags ht hv hc ((hasFlag_andNot_PTEU pte).trans hflag) (pte2pa_andNot_PTEU pte))
  · intro m' _ hsame
    simp [(hsame rfl).2] at hc

/-! ### Addresses of the user -/

section User

variable {pt va : ℕ}

/-- The entry for an address, 0 if there is no page-table page for it. -/
def pteAt (m : Mem) (pt va : ℕ) : BitVec 64 := (lookup m pt va).getD 0

/-- The user may read: the address is below `MAXVA`, on a page with the valid and the user flag. -/
def Readable (m : Mem) (pt va : ℕ) : Prop :=
  va < MAXVA ∧ hasFlag (pteAt m pt va) PTEV = true ∧ hasFlag (pteAt m pt va) PTEU = true

/-- The user may write: the page has the flag for writing, too. -/
def Storable (m : Mem) (pt va : ℕ) : Prop := Readable m pt va ∧ hasFlag (pteAt m pt va) PTEW = true

/-- The physical page of an address. -/
def frameAt (m : Mem) (pt va : ℕ) : ℕ := pte2pa (pteAt m pt va)

/-- Addresses of one page have the same index at every level. -/
theorem px_congr {va va' : ℕ} (h : va / 4096 = va' / 4096) (level : ℕ) : px level va = px level va' := by
  apply Fin.ext
  show va / 2 ^ (12 + 9 * level) % 512 = va' / 2 ^ (12 + 9 * level) % 512
  rw [pow_add, show (2 : ℕ) ^ 12 = 4096 from rfl, ← Nat.div_div_eq_div_mul, ← Nat.div_div_eq_div_mul, h]

theorem lookup_congr {va va' : ℕ} (h : va / 4096 = va' / 4096) : lookup m pt va = lookup m pt va' := by
  unfold lookup
  rw [descend_eq, descend_eq, px_congr h 2, px_congr h 1, px_congr h 0]

theorem pteAt_congr {va va' : ℕ} (h : va / 4096 = va' / 4096) : pteAt m pt va = pteAt m pt va' := by
  unfold pteAt
  rw [lookup_congr h]

theorem readable_congr {va va' : ℕ} (h : va / 4096 = va' / 4096) : Readable m pt va ↔
    Readable m pt va' := by
  have hmax : MAXVA = 2 ^ 38 := rfl
  have hlt : va < MAXVA ↔ va' < MAXVA := by omega
  unfold Readable
  rw [pteAt_congr h, hlt]

theorem storable_congr {va va' : ℕ} (h : va / 4096 = va' / 4096) : Storable m pt va ↔
    Storable m pt va' := by
  unfold Storable
  rw [readable_congr h, pteAt_congr h]

/-- There is a page-table page for an address with a valid entry. -/
theorem lookup_of_valid (hv : hasFlag (pteAt m pt va) PTEV = true) : lookup m pt va =
    some (pteAt m pt va) := by
  unfold pteAt at hv ⊢
  cases hl : lookup m pt va with
  | none =>
    rw [hl] at hv
    simp at hv
  | some pte => rfl

/-- `walkaddr` finds the page of an address the user may read. -/
theorem walkaddr_of_readable (h : Readable m pt va) : walkaddr m pt va = frameAt m pt va := by
  obtain ⟨hlt, hv, hu⟩ := h
  unfold walkaddr frameAt
  rw [if_neg (by omega), lookup_of_valid hv]
  simp [hv, hu]

theorem walkaddr_of_not_readable (h : ¬ Readable m pt va) : walkaddr m pt va = 0 := by
  unfold walkaddr
  by_cases hlt : MAXVA ≤ va
  · rw [if_pos hlt]
  rw [if_neg hlt]
  cases hl : lookup m pt va with
  | none => rfl
  | some pte =>
    have hpte : pteAt m pt va = pte := by rw [pteAt, hl, Option.getD_some]
    by_cases hv : hasFlag pte PTEV = true
    · by_cases hu : hasFlag pte PTEU = true
      · exact absurd ⟨by omega, by rwa [hpte], by rwa [hpte]⟩ h
      · simp [hv, hu]
    · simp [hv]

theorem pgRoundDown_eq (a : ℕ) : pgRoundDown a = a / 4096 * 4096 := rfl

theorem pgRoundDown_div (a : ℕ) : pgRoundDown a / 4096 = a / 4096 := Nat.mul_div_cancel _ (by decide)

/-- The place of an address in its page, and the next page. -/
theorem page_step (hlt : va < MAXVA) :
    va - pgRoundDown va = va % 4096 ∧ add64 (pgRoundDown va) PGSIZE = va / 4096 * 4096 + 4096 := by
  have hmax : MAXVA = 2 ^ 38 := rfl
  have hdown := pgRoundDown_eq va
  exact ⟨by omega, by rw [show PGSIZE = 4096 from rfl, add64_eq (by omega), hdown]⟩

theorem not_storable_pgRoundDown (h : ¬ Storable m pt va) (hlt : ¬ MAXVA ≤ pgRoundDown va) {pte : BitVec 64}
    (hl : lookup m pt (pgRoundDown va) = some pte) :
    (!hasFlag pte PTEV || !hasFlag pte PTEU || !hasFlag pte PTEW) = true := by
  have hdown := pgRoundDown_eq va
  have hmax : MAXVA = 2 ^ 38 := rfl
  have hpte : pteAt m pt va = pte := by
    rw [← pteAt_congr (pgRoundDown_div va), pteAt, hl, Option.getD_some]
  by_contra hc
  simp only [Bool.or_eq_true, Bool.not_eq_true', not_or, Bool.not_eq_false] at hc
  refine h ⟨⟨by omega, ?_, ?_⟩, ?_⟩
  · rw [hpte]
    exact hc.1.1
  · rw [hpte]
    exact hc.1.2
  · rw [hpte]
    exact hc.2

/-- The loop of `copyout` ends at an address that the user may not write. -/
theorem copyoutLoop_refuses (fuel : ℕ) {bytes : List Byte} (hb : bytes ≠ []) (h : ¬ Storable m pt va) :
    copyoutLoop pt (fuel + 1) m va bytes = (m, false) := by
  rw [copyoutLoop]
  rw [if_neg hb]
  by_cases hlt : MAXVA ≤ pgRoundDown va
  · rw [if_pos hlt]
  rw [if_neg hlt]
  cases hl : lookup m pt (pgRoundDown va) with
  | none => rfl
  | some pte => exact if_pos (not_storable_pgRoundDown h hlt hl)

/-- The loop of `copyout` writes to a page that the user may write. -/
theorem copyoutLoop_storable (fuel : ℕ) {bytes : List Byte} (hb : bytes ≠ []) (h : Storable m pt va) {n : ℕ}
    (hn : n = min (4096 - va % 4096) bytes.length) :
    copyoutLoop pt (fuel + 1) m va bytes = copyoutLoop pt fuel
      (m.blit (frameAt m pt va) (va % 4096) (bytes.take n)) (va / 4096 * 4096 + 4096) (bytes.drop n) := by
  have hpg : PGSIZE = 4096 := rfl
  have hdown := pgRoundDown_eq va
  have hlt := h.1.1
  obtain ⟨hoff, hnext⟩ := page_step hlt
  rw [copyoutLoop]
  rw [if_neg hb, if_neg (by omega), lookup_congr (pgRoundDown_div va), lookup_of_valid h.1.2.1]
  dsimp only
  rw [if_neg (by rw [h.1.2.1, h.1.2.2, h.2]; decide), hoff, hnext, hpg, hn]
  rfl

end User

/-! ### What the user has access to -/

/-- The entry and the page the user has access to at an address. -/
def MemMap.userPage (S : MemMap ρ κ) (q : ρ) (va : ℕ) : Option (BitVec 64 × Page) :=
  if va < MAXVA then (S.cell q (vpn va)).filter fun x => hasFlag x.1 PTEU else none

omit [DecidableEq ρ] [DecidableEq κ]

theorem userPage_eq_some {va : ℕ} {x : BitVec 64 × Page} :
    S.userPage q va = some x ↔ va < MAXVA ∧ S.cell q (vpn va) = some x ∧ hasFlag x.1 PTEU = true := by
  unfold MemMap.userPage
  by_cases hva : va < MAXVA
  · rw [if_pos hva, Option.filter_eq_some_iff]
    exact ⟨fun h => ⟨hva, h⟩, fun h => h.2⟩
  · rw [if_neg hva]
    simp [hva]

theorem userPage_congr {va va' : ℕ} (h : va / 4096 = va' / 4096) : S.userPage q va = S.userPage q va' := by
  have hmax : MAXVA = 2 ^ 38 := rfl
  have hiff : va < MAXVA ↔ va' < MAXVA := by omega
  have hvpn : vpn va = vpn va' := by
    unfold vpn
    rw [show va / PGSIZE = va' / PGSIZE from h]
  unfold MemMap.userPage
  rw [hvpn]
  by_cases hva : va < MAXVA
  · rw [if_pos hva, if_pos (hiff.1 hva)]
  · rw [if_neg hva, if_neg (fun hc => hva (hiff.2 hc))]

namespace Rep

section

variable (h : Rep m S)
include h

theorem lookup_of_cell {pt va : ℕ} (hr : S.root q = some pt) (hva : va < MAXVA)
    {x : BitVec 64 × Page} (hc : S.cell q (vpn va) = some x) : lookup m pt va = some x.1 := by
  obtain ⟨he, hval⟩ := h.entry_of_cell hc
  rw [lookup_eq hva, ← hr]
  unfold entry at he
  cases ht : node m (S.root q) (tablePath (vpn va)) with
  | none =>
    rw [ht] at he
    rw [← he] at hval
    simp at hval
  | some t =>
    rw [ht] at he
    exact congrArg some he

theorem lookup_of_none {pt va : ℕ} (hr : S.root q = some pt) (hva : va < MAXVA)
    (hc : S.cell q (vpn va) = none) {pte : BitVec 64} (hl : lookup m pt va = some pte) :
    hasFlag pte PTEV = false := by
  have hinv := h.entry_of_none hc
  rw [lookup_eq hva, ← hr] at hl
  unfold entry at hinv
  cases ht : node m (S.root q) (tablePath (vpn va)) with
  | none =>
    simp [ht] at hl
  | some t =>
    rw [ht] at hl hinv
    rwa [← Option.some_inj.1 hl]

/-- What the user may read is what the map of memory shows to the user. -/
theorem readable_cell {pt va : ℕ} (hr : S.root q = some pt) (hread : Readable m pt va) :
    ∃ x, S.userPage q va = some x ∧ pteAt m pt va = x.1 := by
  obtain ⟨hlt, hv, hu⟩ := hread
  cases hc : S.cell q (vpn va) with
  | none =>
    simp [h.lookup_of_none hr hlt hc (lookup_of_valid hv)] at hv
  | some x =>
    have hpte : pteAt m pt va = x.1 := by
      rw [pteAt, h.lookup_of_cell hr hlt hc, Option.getD_some]
    rw [hpte] at hu
    exact ⟨x, userPage_eq_some.2 ⟨hlt, hc, hu⟩, hpte⟩

theorem userPage_pte {pt va : ℕ} (hr : S.root q = some pt) {x : BitVec 64 × Page}
    (hx : S.userPage q va = some x) : Readable m pt va ∧ pteAt m pt va = x.1 := by
  obtain ⟨hlt, hc, hu⟩ := userPage_eq_some.1 hx
  have hpte : pteAt m pt va = x.1 := by rw [pteAt, h.lookup_of_cell hr hlt hc, Option.getD_some]
  unfold Readable
  rw [hpte]
  exact ⟨⟨hlt, (h.entry_of_cell hc).2, hu⟩, rfl⟩

/-- `walkaddr` finds the pages of the user. -/
theorem walkaddr_eq {pt : ℕ} (hr : S.root q = some pt) (va : ℕ) :
    walkaddr m pt va = ((S.userPage q va).map fun x => pte2pa x.1).getD 0 := by
  cases hu : S.userPage q va with
  | none =>
    refine walkaddr_of_not_readable fun hread => ?_
    obtain ⟨x, hx, -⟩ := h.readable_cell hr hread
    simp [hu] at hx
  | some x =>
    obtain ⟨hread, hpte⟩ := h.userPage_pte hr hu
    rw [walkaddr_of_readable hread, frameAt, hpte]
    rfl

/-- A page of the user is not reserved, and it is where `walkaddr` says. -/
theorem userPage_page {pt va : ℕ} (hr : S.root q = some pt) {x : BitVec 64 × Page}
    (hu : S.userPage q va = some x) :
    ¬ Reserved (vpn va) ∧ walkaddr m pt va = pte2pa x.1 ∧ pte2pa x.1 ≠ 0 ∧ m.page (pte2pa x.1) = x.2 := by
  obtain ⟨hva, hc, hflag⟩ := userPage_eq_some.1 hu
  have hv : ¬ Reserved (vpn va) := by
    intro hres
    simp [h.hidden q (vpn va) x.1 x.2 hres hc] at hflag
  have hc' : S.cell q (vpn va) = some (x.1, x.2) := hc
  obtain ⟨hin, hpage⟩ := h.pageIn_cell hv hc'
  refine ⟨hv, ?_, ?_, hpage⟩
  · rw [h.walkaddr_eq hr, hu]
    rfl
  · have hok := h.pool.ok_own _ _ hin
    have := h.kend
    have := hok.2.1
    omega

theorem walkaddr_ne_zero {pt : ℕ} (hr : S.root q = some pt) (va : ℕ) :
    walkaddr m pt va ≠ 0 ↔ S.userPage q va ≠ none := by
  cases hu : S.userPage q va with
  | none =>
    rw [h.walkaddr_eq hr, hu]
    simp
  | some x =>
    obtain ⟨-, hw, hne, -⟩ := h.userPage_page hr hu
    rw [hw]
    simpa using hne

end

end Rep

/-! ### `copyout` -/

/-- The user may write at an address. -/
def Writable (S : MemMap ρ κ) (q : ρ) (va : ℕ) : Prop :=
  ∃ x, S.userPage q va = some x ∧ hasFlag x.1 PTEW = true

theorem Rep.storable_iff (h : Rep m S) {pt va : ℕ} (hr : S.root q = some pt) :
    Storable m pt va ↔ Writable S q va := by
  constructor
  · rintro ⟨hread, hw⟩
    obtain ⟨x, hx, hpte⟩ := h.readable_cell hr hread
    exact ⟨x, hx, by rwa [← hpte]⟩
  · rintro ⟨x, hx, hw⟩
    obtain ⟨hread, hpte⟩ := h.userPage_pte hr hx
    exact ⟨hread, by rwa [hpte]⟩

/-- The bytes of a page after `bytes` were written from the address `a` on. -/
def overlay (a : ℕ) (bytes : List Byte) (v : Vpn) (pg : Page) (j : ℕ) : Byte :=
  if a ≤ pageAddr v + j then (bytes[pageAddr v + j - a]?).getD (pg.byte j) else pg.byte j

/-- Bytes were written to the memory of the user of the table `q`, from the address `a` on. -/
structure Wrote (S S' : MemMap ρ κ) (q : ρ) (a : ℕ) (bytes : List Byte) : Prop where
  root : S'.root = S.root
  box : S'.box = S.box
  other : ∀ r, r ≠ q → S'.cell r = S.cell r
  none : ∀ v, S.cell q v = none → S'.cell q v = none
  page : ∀ v pte pg, S.cell q v = some (pte, pg) →
    ∃ pg', S'.cell q v = some (pte, pg') ∧ ∀ j < 4096, pg'.byte j = overlay a bytes v pg j
  allowed : ∀ k < bytes.length, Writable S q (a + k)

theorem Wrote.refl (S : MemMap ρ κ) (q : ρ) (a : ℕ) : Wrote S S q a [] := by
  refine ⟨rfl, rfl, fun _ _ => rfl, fun _ h => h, fun v pte pg hc => ⟨pg, hc, fun j _ => ?_⟩, ?_⟩
  · unfold overlay
    simp
  · intro k hk
    simp at hk

variable [DecidableEq ρ]

/-- Writing to one page does not change what may be written elsewhere. -/
theorem writable_setCell {a b : ℕ} {x : Option (BitVec 64 × Page)} (ha : a < MAXVA)
    (hab : b / 4096 ≠ a / 4096) (h : Writable (S.setCell q (vpn a) x) q b) : Writable S q b := by
  obtain ⟨y, hy, hyw⟩ := h
  obtain ⟨hlt, hy1, hy2⟩ := userPage_eq_some.1 hy
  rw [MemMap.cell_setCell, if_neg] at hy1
  · exact ⟨y, userPage_eq_some.2 ⟨hlt, hy1, hy2⟩, hyw⟩
  · rintro ⟨-, he⟩
    have := congrArg Fin.val he
    rw [vpn_val hlt, vpn_val ha] at this
    exact hab this

theorem setCell_writable {a b : ℕ} {x : Option (BitVec 64 × Page)} (ha : a < MAXVA)
    (hab : b / 4096 ≠ a / 4096) (h : Writable S q b) : Writable (S.setCell q (vpn a) x) q b := by
  obtain ⟨y, hy, hyw⟩ := h
  obtain ⟨hlt, hy1, hy2⟩ := userPage_eq_some.1 hy
  refine ⟨y, userPage_eq_some.2 ⟨hlt, ?_, hy2⟩, hyw⟩
  rw [MemMap.cell_setCell, if_neg]
  · exact hy1
  · rintro ⟨-, he⟩
    have := congrArg Fin.val he
    rw [vpn_val hlt, vpn_val ha] at this
    exact hab this

/-- Some bytes are written to one page, the rest from the next page on. -/
theorem Wrote.cons {S' : MemMap ρ κ} {a n c : ℕ} {bytes : List Byte} {pte : BitVec 64} {pg : Page}
    (ha : a < MAXVA) (hc : S.userPage q a = some (pte, pg)) (hw : hasFlag pte PTEW = true)
    (hn : n = min (4096 - a % 4096) bytes.length)
    (h : Wrote (S.setCell q (vpn a) (some (pte, pg.blit (a % 4096) (bytes.take n)))) S' q
      (a / 4096 * 4096 + 4096) ((bytes.drop n).take c)) :
    Wrote S S' q a (bytes.take (n + c)) := by
  obtain ⟨-, hcell, hu⟩ := userPage_eq_some.1 hc
  have hval := vpn_val ha
  have hadr : pageAddr (vpn a) = a / 4096 * 4096 := by
    show (vpn a).val * 4096 = _
    rw [hval]
  have hdm : a % 4096 + a / 4096 * 4096 = a := by omega
  have htake : ∀ i, n + c ≤ i ∨ bytes.length ≤ i → (bytes.take (n + c))[i]? = Option.none := by
    intro i hi
    rw [getElem?_eq_none_iff, length_take]
    omega
  have hsplit : ∀ i, ((bytes.drop n).take c)[i]? = (bytes.take (n + c))[n + i]? := by
    intro i
    rw [getElem?_take, getElem?_take, getElem?_drop]
    by_cases hi : i < c
    · rw [if_pos hi, if_pos (by omega)]
    · rw [if_neg hi, if_neg (by omega)]
  refine ⟨h.root, h.box, ?_, ?_, ?_, ?_⟩
  · intro r hr
    rw [h.other r hr]
    funext w
    rw [MemMap.cell_setCell, if_neg (fun hcon => hr hcon.1)]
  · intro w hnone
    apply h.none
    rw [MemMap.cell_setCell, if_neg]
    · exact hnone
    · rintro ⟨-, rfl⟩
      simp [hnone] at hcell
  · intro w pte₁ pg₁ hw₁
    by_cases hwv : w = vpn a
    · -- the page written to now
      subst hwv
      rw [hcell, Option.some_inj, Prod.mk.injEq] at hw₁
      obtain ⟨rfl, rfl⟩ := hw₁
      obtain ⟨pg', hcell', hbytes⟩ := h.page (vpn a) pte _
        (by rw [MemMap.cell_setCell, if_pos ⟨rfl, rfl⟩])
      refine ⟨pg', hcell', fun j hj => ?_⟩
      rw [hbytes j hj]
      unfold overlay
      rw [hadr, if_neg (by omega), Words.byte_blit]
      by_cases hoff : a % 4096 ≤ j
      · have hidx : a / 4096 * 4096 + j - a = j - a % 4096 := by omega
        have hsame : (bytes.take n)[j - a % 4096]? = (bytes.take (n + c))[j - a % 4096]? := by
          by_cases hlt : j - a % 4096 < n
          · rw [getElem?_take, getElem?_take, if_pos hlt, if_pos (by omega)]
          · rw [htake _ (Or.inr (by omega)), getElem?_eq_none_iff, length_take]
            omega
        rw [if_pos ⟨hoff, hj⟩, if_pos (by omega), hidx, hsame]
      · rw [if_neg (fun hcon => hoff hcon.1), if_neg (by omega)]
    · have hne : w.val ≠ (vpn a).val := fun he => hwv (Fin.ext he)
      have hw' : pageAddr w = w.val * 4096 := rfl
      obtain ⟨pg', hcell', hbytes⟩ := h.page w pte₁ pg₁
        (by rwa [MemMap.cell_setCell, if_neg (fun hcon => hwv hcon.2)])
      refine ⟨pg', hcell', fun j hj => ?_⟩
      rw [hbytes j hj]
      unfold overlay
      by_cases hge : a / 4096 * 4096 + 4096 ≤ pageAddr w + j
      · rw [if_pos hge, if_pos (by omega), hsplit]
        by_cases hfull : n = 4096 - a % 4096
        · rw [show n + (pageAddr w + j - (a / 4096 * 4096 + 4096)) = pageAddr w + j - a by omega]
        · rw [htake _ (Or.inr (by omega)), htake _ (Or.inr (by omega))]
      · rw [if_neg hge, if_neg (by omega)]
  · intro k hk
    rw [length_take] at hk
    by_cases hkn : k < n
    · refine ⟨(pte, pg), ?_, hw⟩
      rw [← hc]
      exact userPage_congr (by omega)
    · have hwr := h.allowed (k - n) (by rw [length_take, length_drop]; omega)
      rw [show a / 4096 * 4096 + 4096 + (k - n) = a + k by omega] at hwr
      exact writable_setCell ha (by omega) hwr

/-- The bytes that `copyout` writes to a page of the user. -/
theorem Rep.blit_page (h : Rep m S) {pt va : ℕ} (hr : S.root q = some pt) {pte : BitVec 64} {pg : Page}
    (hup : S.userPage q va = some (pte, pg)) (off : ℕ) (bytes : List Byte) :
    Rep (m.blit (pte2pa pte) off bytes) (S.setCell q (vpn va) (some (pte, pg.blit off bytes))) := by
  obtain ⟨-, hc, -⟩ := userPage_eq_some.1 hup
  obtain ⟨hv, -, -, hcont⟩ := h.userPage_page hr hup
  have hset := h.setCell hv hc ((m.page (pte2pa pte)).blit off bytes)
  rw [hcont] at hset
  unfold Mem.blit
  rwa [hcont]

/-- The user may write all the bytes if they may write those from the next page on. -/
theorem writable_rest {a n : ℕ} {bytes : List Byte} {pte : BitVec 64} {pg : Page}
    {x : Option (BitVec 64 × Page)} (hup : S.userPage q a = some (pte, pg)) (hw : hasFlag pte PTEW = true)
    (hn : n = min (4096 - a % 4096) bytes.length) :
    (∀ k < (bytes.drop n).length, Writable (S.setCell q (vpn a) x) q (a / 4096 * 4096 + 4096 + k)) ↔
      ∀ k < bytes.length, Writable S q (a + k) := by
  have ha := (userPage_eq_some.1 hup).1
  rw [length_drop]
  constructor
  · intro hrest k hk
    by_cases hkn : k < n
    · refine ⟨(pte, pg), ?_, hw⟩
      rw [← hup]
      exact userPage_congr (by omega)
    · have hwr := hrest (k - n) (by omega)
      rw [show a / 4096 * 4096 + 4096 + (k - n) = a + k by omega] at hwr
      exact writable_setCell ha (by omega) hwr
  · intro hrest k hk
    have hwr := hrest (n + k) (by omega)
    rw [show a + (n + k) = a / 4096 * 4096 + 4096 + k by omega] at hwr
    exact setCell_writable ha (by omega) hwr

/-- The loop of `copyout`. -/
theorem rep_copyoutLoop (h : Rep m S) {pt : ℕ} (hr : S.root q = some pt) (fuel dstva : ℕ)
    (bytes : List Byte) (hf : bytes.length < fuel) (hdst : dstva < 2 ^ 64) :
    ((copyoutLoop pt fuel m dstva bytes).2 = true ↔ ∀ k < bytes.length, Writable S q (dstva + k)) ∧
    ∃ S' n, Rep (copyoutLoop pt fuel m dstva bytes).1 S' ∧ Wrote S S' q dstva (bytes.take n) ∧
      ((copyoutLoop pt fuel m dstva bytes).2 = true → bytes.take n = bytes) := by
  induction fuel generalizing m S dstva bytes with
  | zero => omega
  | succ fuel ih =>
    by_cases hb : bytes = []
    · subst hb
      rw [copyoutLoop]
      exact ⟨by simp, S, 0, h, Wrote.refl S q dstva, fun _ => rfl⟩
    have hpos : 0 < bytes.length := length_pos_iff.2 hb
    by_cases hwr : Writable S q dstva
    · obtain ⟨⟨pte, pg⟩, hup, hw⟩ := hwr
      have hlt := (userPage_eq_some.1 hup).1
      have hmax : MAXVA = 2 ^ 38 := rfl
      obtain ⟨n, hn⟩ : ∃ n, n = min (4096 - dstva % 4096) bytes.length := ⟨_, rfl⟩
      rw [copyoutLoop_storable fuel hb ((h.storable_iff hr).2 ⟨_, hup, hw⟩) hn, frameAt,
        (h.userPage_pte hr hup).2]
      obtain ⟨hiff, S', c, hrep, hwrote, hall⟩ := ih (h.blit_page hr hup (dstva % 4096) (bytes.take n)) hr
        (dstva / 4096 * 4096 + 4096) (bytes.drop n) (by rw [length_drop]; omega) (by omega)
      refine ⟨hiff.trans (writable_rest hup hw hn), S', n + c, hrep, hwrote.cons hlt hup hw hn, ?_⟩
      intro hsucc
      have hlen := congrArg List.length (hall hsucc)
      rw [length_take, length_drop] at hlen
      apply take_of_length_le
      omega
    · -- nothing is written when the first page does not allow it
      rw [copyoutLoop_refuses fuel hb fun hst => hwr ((h.storable_iff hr).1 hst)]
      refine ⟨⟨fun hc => absurd hc (by simp), fun hall => ?_⟩, S, 0, h, ?_, fun hc => absurd hc (by simp)⟩
      · exact absurd (hall 0 hpos) hwr
      · rw [take_zero]
        exact Wrote.refl S q dstva

/-- **`copyout` succeeds exactly when the user may write every byte of the range**; then it has written
them all, and otherwise the first of them only. -/
theorem rep_copyout (h : Rep m S) {pt : ℕ} (hr : S.root q = some pt) {dstva : ℕ} (bytes : List Byte)
    (hdst : dstva < 2 ^ 64) :
    ((copyout m pt dstva bytes).2 = true ↔ ∀ k < bytes.length, Writable S q (dstva + k)) ∧
    ∃ S' n, Rep (copyout m pt dstva bytes).1 S' ∧ Wrote S S' q dstva (bytes.take n) ∧
      ((copyout m pt dstva bytes).2 = true → bytes.take n = bytes) :=
  rep_copyoutLoop h hr (bytes.length + 1) dstva bytes (Nat.lt_succ_self _) hdst

/-- Nothing is copied to an address above `MAXVA`. -/
theorem copyout_of_le {dstva : ℕ} (h : MAXVA ≤ dstva) (m : Mem) (pt : ℕ) (bytes : List Byte) :
    (copyout m pt dstva bytes).1 = m := by
  unfold copyout
  rw [copyoutLoop]
  have hround : MAXVA ≤ pgRoundDown dstva := by
    rw [pgRoundDown_eq]
    have : MAXVA = 2 ^ 38 := rfl
    omega
  dsimp only
  split_ifs
  · rfl
  · rfl

/-! ### Writing in general -/

/-- The contents of pages of one table have changed, and nothing else. -/
structure Rewritten (S S' : MemMap ρ κ) (q : ρ) : Prop where
  root : S'.root = S.root
  box : S'.box = S.box
  other : ∀ r, r ≠ q → S'.cell r = S.cell r
  entry : ∀ v, (S'.cell q v).map Prod.fst = (S.cell q v).map Prod.fst

omit [DecidableEq ρ] in
theorem Rewritten.refl (S : MemMap ρ κ) (q : ρ) : Rewritten S S q :=
  ⟨rfl, rfl, fun _ _ => rfl, fun _ => rfl⟩

omit [DecidableEq ρ] in
theorem Rewritten.trans {S' S'' : MemMap ρ κ} (h : Rewritten S S' q) (h' : Rewritten S' S'' q) :
    Rewritten S S'' q :=
  ⟨h'.root.trans h.root, h'.box.trans h.box, fun r hr => (h'.other r hr).trans (h.other r hr),
    fun v => (h'.entry v).trans (h.entry v)⟩

omit [DecidableEq ρ] in
theorem Rewritten.symm {S' : MemMap ρ κ} (h : Rewritten S S' q) : Rewritten S' S q :=
  ⟨h.root.symm, h.box.symm, fun r hr => (h.other r hr).symm, fun v => (h.entry v).symm⟩

omit [DecidableEq ρ] in
theorem Wrote.rewritten {S' : MemMap ρ κ} {a : ℕ} {bytes : List Byte} (h : Wrote S S' q a bytes) :
    Rewritten S S' q := by
  refine ⟨h.root, h.box, h.other, fun v => ?_⟩
  cases hc : S.cell q v with
  | none => rw [h.none v hc]
  | some x =>
    obtain ⟨pg', h1, -⟩ := h.page v x.1 x.2 hc
    rw [h1]
    rfl

theorem rewritten_setCell {v : Vpn} {pte : BitVec 64} {pg : Page} (hc : S.cell q v = some (pte, pg))
    (pg' : Page) : Rewritten S (S.setCell q v (some (pte, pg'))) q := by
  refine ⟨rfl, rfl, fun r hr => ?_, fun w => ?_⟩
  · funext w
    rw [MemMap.cell_setCell, if_neg fun hc => hr hc.1]
  · rw [MemMap.cell_setCell]
    split_ifs with h
    · rw [h.2, hc]
      rfl
    · rfl

omit [DecidableEq ρ] in
theorem Rewritten.writable {S' : MemMap ρ κ} (h : Rewritten S S' q) {va : ℕ} (hw : Writable S q va) :
    Writable S' q va := by
  obtain ⟨⟨pte, pg⟩, hpage, hflag⟩ := hw
  obtain ⟨hva, hcell, hu⟩ := userPage_eq_some.1 hpage
  have hentry := h.entry (vpn va)
  rw [hcell] at hentry
  obtain ⟨⟨pte', pg'⟩, hcell', rfl⟩ := Option.map_eq_some_iff.1 hentry
  exact ⟨_, userPage_eq_some.2 ⟨hva, hcell', hu⟩, hflag⟩

omit [DecidableEq ρ] in
/-- Bytes are written after those that were written before. -/
theorem Wrote.append {S' S'' : MemMap ρ κ} {a : ℕ} {l l' : List Byte} (h : Wrote S S' q a l)
    (h' : Wrote S' S'' q (a + l.length) l') (hl : ∀ k < l'.length, Writable S q (a + l.length + k)) :
    Wrote S S'' q a (l ++ l') where
  root := h'.root.trans h.root
  box := h'.box.trans h.box
  other := fun r hr => (h'.other r hr).trans (h.other r hr)
  none := fun v hv => h'.none v (h.none v hv)
  page := by
    intro v pte pg hc
    obtain ⟨pg', hc', hb'⟩ := h.page v pte pg hc
    obtain ⟨pg'', hc'', hb''⟩ := h'.page v pte pg' hc'
    refine ⟨pg'', hc'', fun j hj => ?_⟩
    rw [hb'' j hj]
    unfold overlay
    rw [hb' j hj]
    unfold overlay
    by_cases h1 : a + l.length ≤ pageAddr v + j
    · rw [if_pos h1, if_pos (by omega), if_pos (by omega), getElem?_append_right (by omega),
        getElem?_eq_none (show l.length ≤ pageAddr v + j - a by omega),
        show pageAddr v + j - (a + l.length) = pageAddr v + j - a - l.length by omega]
      rfl
    · rw [if_neg h1]
      by_cases h2 : a ≤ pageAddr v + j
      · rw [if_pos h2, if_pos h2, getElem?_append_left (by omega)]
      · rw [if_neg h2, if_neg h2]
  allowed := by
    intro k hk
    rw [length_append] at hk
    by_cases hkl : k < l.length
    · exact h.allowed k hkl
    · have := hl (k - l.length) (by omega)
      rwa [show a + l.length + (k - l.length) = a + k by omega] at this

end Xv6
