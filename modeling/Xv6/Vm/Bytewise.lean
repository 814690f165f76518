import Xv6.Vm.Copy

/-!
# Copying byte by byte (`vm.c`)

`copyin`, `copyout` and `copyinstr` work on fragments of pages.  Here they are compared with access to
single bytes, in any memory and through any page table: nothing is asked of the pages that are mapped,
except that none of them is at address 0 and, for `copyout`, that none of them is a page-table page.

* `copyin_eq`: `copyin` reads what is mapped, and succeeds exactly when every page of the range is
  mapped for the user;
* `copy_bytewise`: **the copied bytes are those before the first address that the user may not access**,
  and the copy succeeds if there is none in the range.
-/

namespace Xv6

open Stateful Function List

/-! ### Addresses of the user -/

/-- The byte at an address of the user. -/
def byteAt (m : Mem) (pt va : ℕ) : Byte := (m.page (frameAt m pt va)).byte (va % PGSIZE)

/-- No page of the user is at physical address 0. -/
def NonNull (m : Mem) (pt : ℕ) : Prop := ∀ va, Readable m pt va → frameAt m pt va ≠ 0

/-- No page of the user is at physical address 0, and none is a page-table page. -/
structure Sound (m : Mem) (pt : ℕ) : Prop where
  nonNull : NonNull m pt
  apart : ∀ va, Readable m pt va → ∀ path : List (Fin NPTE), path.length ≤ 2 →
    node m (some pt) path ≠ some (frameAt m pt va)

variable {m m' : Mem} {pt va : ℕ}

/-- The lookup of `copyin` and `copyinstr` at the start of the page. -/
theorem page_pgRoundDown (h : Readable m pt va) : walkaddr m pt (pgRoundDown va) = frameAt m pt va := by
  rw [walkaddr_of_readable ((readable_congr (pgRoundDown_div va)).2 h)]
  unfold frameAt
  rw [pteAt_congr (pgRoundDown_div va)]

theorem walkaddr_pgRoundDown_eq_zero (h : ¬ Readable m pt va) : walkaddr m pt (pgRoundDown va) = 0 :=
  walkaddr_of_not_readable fun hr => h ((readable_congr (pgRoundDown_div va)).1 hr)

/-! ### `copyin` -/

/-- `n` is the number of addresses from `va` on that come before the first bad one, at most `len`. -/
structure Leading (P : ℕ → Prop) (va len n : ℕ) : Prop where
  le : n ≤ len
  good : ∀ k < n, P (va + k)
  bad : n < len → ¬ P (va + n)

theorem Leading.zero_of_bad {P : ℕ → Prop} {va len : ℕ} (h : ¬ P va) : Leading P va len 0 :=
  ⟨Nat.zero_le _, fun _ hk => absurd hk (Nat.not_lt_zero _), fun _ => h⟩

theorem Leading.add {P : ℕ → Prop} {va len a n : ℕ} (ha : a ≤ len) (hgood : ∀ k < a, P (va + k))
    (h : Leading P (va + a) (len - a) n) : Leading P va len (a + n) where
  le := by
    have := h.le
    omega
  good k hk := by
    by_cases hka : k < a
    · exact hgood k hka
    · have := h.good (k - a) (by omega)
      rwa [show va + a + (k - a) = va + k by omega] at this
  bad hlt := by
    rw [← Nat.add_assoc]
    exact h.bad (by omega)

theorem Leading.all_iff {P : ℕ → Prop} {va len n : ℕ} (h : Leading P va len n) :
    n = len ↔ ∀ k < len, P (va + k) := by
  constructor
  · rintro rfl
    exact h.good
  · intro hall
    have := h.le
    by_contra hne
    exact h.bad (by omega) (hall n (by omega))

/-- The bytes of the user from an address on. -/
def bytesAt (m : Mem) (pt va n : ℕ) : List Byte := (List.range n).map fun k => byteAt m pt (va + k)

theorem bytesAt_add (a n : ℕ) :
    bytesAt m pt va (a + n) = bytesAt m pt va a ++ bytesAt m pt (va + a) n := by
  unfold bytesAt
  rw [range_add, map_append, map_map]
  congr 1
  apply map_congr_left
  intro k _
  show byteAt m pt (va + (a + k)) = _
  rw [Nat.add_assoc]

theorem byte_page {k : ℕ} (hk : k < 4096 - va % 4096) :
    (m.page (frameAt m pt va)).byte (va % 4096 + k) = byteAt m pt (va + k) := by
  have hdiv : (va + k) / 4096 = va / 4096 := by omega
  have hmod : (va + k) % PGSIZE = va % 4096 + k := by
    show (va + k) % 4096 = _
    omega
  unfold byteAt frameAt
  rw [pteAt_congr hdiv, hmod]

theorem slice_page {n : ℕ} (hn : n ≤ 4096 - va % 4096) :
    (m.page (frameAt m pt va)).slice (va % 4096) n = bytesAt m pt va n := by
  unfold Words.slice bytesAt
  apply map_congr_left
  intro k hk
  rw [mem_range] at hk
  exact byte_page (by omega)

/-- The loop of `copyin`. -/
theorem copyinLoop_bytewise (h : NonNull m pt) {fuel len : ℕ} (hf : len < fuel) (va : ℕ)
    (hva : va < 2 ^ 64) :
    ∃ n, Leading (Readable m pt) va len n ∧ copyinLoop m pt fuel va len =
      (bytesAt m pt va n, decide (n = len)) := by
  -- every round copies at least one byte, so the fuel lasts
  induction fuel generalizing va len with
  | zero => exact absurd hf (Nat.not_lt_zero _)
  | succ fuel ih =>
    have hmax : MAXVA = 2 ^ 38 := rfl
    rw [copyinLoop]
    dsimp only
    by_cases h0 : len = 0
    · subst h0
      rw [if_pos rfl]
      exact ⟨0, ⟨le_rfl, by simp, by simp⟩, rfl⟩
    rw [if_neg h0]
    by_cases hr : Readable m pt va
    · rw [page_pgRoundDown hr, if_neg (h va hr)]
      have hlt := hr.1
      obtain ⟨hoff, hnext⟩ := page_step hlt
      rw [hoff, hnext, show PGSIZE = 4096 from rfl]
      obtain ⟨a, ha⟩ : ∃ a, a = min (4096 - va % 4096) len := ⟨_, rfl⟩
      rw [← ha]
      have hgood : ∀ k < a, Readable m pt (va + k) := fun k hk => (readable_congr (by omega)).2 hr
      have hf' : len - a < fuel := by omega
      obtain ⟨n, hn, hrest⟩ := ih hf' (va / 4096 * 4096 + 4096) (by omega)
      rw [hrest, slice_page (by omega)]
      by_cases hend : len = a
      · -- the range ends in this page
        have hn0 : n = 0 := by
          have := hn.le
          omega
        refine ⟨a, ⟨by omega, hgood, by omega⟩, ?_⟩
        subst hn0
        simp [bytesAt, hend]
      · have haddr : va + a = va / 4096 * 4096 + 4096 := by omega
        rw [← haddr] at hn ⊢
        refine ⟨a + n, hn.add (by omega) hgood, ?_⟩
        rw [bytesAt_add]
        have hiff : n = len - a ↔ a + n = len := by omega
        simp only [hiff]
    · rw [if_pos (walkaddr_pgRoundDown_eq_zero hr)]
      refine ⟨0, Leading.zero_of_bad hr, ?_⟩
      have hne : ¬ 0 = len := fun he => h0 he.symm
      simp [bytesAt, hne]

theorem copyin_leading (h : NonNull m pt) {va : ℕ} (hva : va < 2 ^ 64) (len : ℕ) :
    ∃ n, Leading (Readable m pt) va len n ∧ copyin m pt va len = (bytesAt m pt va n, decide (n = len)) :=
  copyinLoop_bytewise h (Nat.lt_succ_self len) va hva

/-! ### `copyout` -/

/-- A store of one byte. -/
def storeByte (m : Mem) (pt va : ℕ) (b : Byte) : Mem := m.blit (frameAt m pt va) (va % PGSIZE) [b]

/-- Stores of bytes, one after the other. -/
def storeBytes (pt : ℕ) : Mem → ℕ → List Byte → Mem
  | m, _, [] => m
  | m, va, b :: bs => storeBytes pt (storeByte m pt va b) (va + 1) bs

/-- The memories agree on the page-table pages. -/
def SameTables (m m' : Mem) (pt : ℕ) : Prop :=
  ∀ path : List (Fin NPTE), path.length ≤ 2 → ∀ a, node m (some pt) path = some a → m'.page a = m.page a

section

variable (h : SameTables m m' pt)
include h

theorem SameTables.node_eq (path : List (Fin NPTE)) (hlen : path.length ≤ 3) :
    node m' (some pt) path = node m (some pt) path := by
  unfold node
  refine descendant_congr (D := 3) (fun p a hp ha i => ?_) path hlen
  unfold kids
  rw [h p (by omega) a ha]

theorem SameTables.lookup_eq (va : ℕ) : lookup m' pt va = lookup m pt va := by
  unfold lookup
  rw [descend_eq, descend_eq, h.node_eq _ (by simp)]
  cases hn : node m (some pt) [px 2 va, px 1 va] with
  | none => rfl
  | some a =>
    show some (m'.page a (px 0 va)) = some (m.page a (px 0 va))
    rw [h _ (by simp) a hn]

theorem SameTables.pteAt_eq (va : ℕ) : pteAt m' pt va = pteAt m pt va := by
  unfold pteAt
  rw [h.lookup_eq]

theorem SameTables.frameAt_eq (va : ℕ) : frameAt m' pt va = frameAt m pt va := by
  unfold frameAt
  rw [h.pteAt_eq]

theorem SameTables.readable_iff (va : ℕ) : Readable m' pt va ↔ Readable m pt va := by
  unfold Readable
  rw [h.pteAt_eq]

theorem SameTables.storable_iff (va : ℕ) : Storable m' pt va ↔ Storable m pt va := by
  unfold Storable
  rw [h.readable_iff, h.pteAt_eq]

end

theorem Sound.congr (hs : Sound m pt) (h : SameTables m m' pt) : Sound m' pt where
  nonNull va hva := by
    rw [h.frameAt_eq]
    exact hs.nonNull va ((h.readable_iff va).1 hva)
  apart va hva path hlen := by
    rw [h.frameAt_eq, h.node_eq path (by omega)]
    exact hs.apart va ((h.readable_iff va).1 hva) path hlen

/-- Writing to a page of the user does not change the tables. -/
theorem Sound.sameTables_blit (hs : Sound m pt) (hr : Readable m pt va) (off : ℕ) (bs : List Byte) :
    SameTables m (m.blit (frameAt m pt va) off bs) pt := by
  intro path hlen a ha
  refine Rep.page_setPage_of_ne m (fun hne => ?_) _
  rw [hne] at ha
  exact hs.apart va hr path hlen ha

theorem blit_cons (pg : Page) (off : ℕ) (b c : Byte) (cs : List Byte) :
    pg.blit off (b :: c :: cs) = (pg.blit off [b]).blit (off + 1) (c :: cs) := by
  funext i
  show ofWordBytes _ = ofWordBytes _
  congr 1
  funext j
  have hlt : 8 * i.val + j.val < 8 * NPTE := by
    have := i.isLt
    have := j.isLt
    omega
  rw [Words.byte_blit]
  generalize 8 * i.val + j.val = k at *
  rcases lt_trichotomy off k with h | h | h
  · obtain ⟨d, rfl⟩ : ∃ d, k = off + 1 + d := ⟨k - (off + 1), by omega⟩
    have h1 : off + 1 + d - off = d + 1 := by omega
    have h2 : off + 1 + d - (off + 1) = d := by omega
    rw [if_pos (by omega), if_pos (by omega), if_pos ⟨by omega, hlt⟩, h1, h2]
    simp
  · subst h
    rw [if_pos le_rfl, if_neg (by omega), if_pos ⟨le_rfl, hlt⟩]
    simp
  · rw [if_neg (by omega), if_neg (by omega), if_neg (by omega)]

theorem blit_blit (m : Mem) (a off off' : ℕ) (l l' : List Byte) :
    (m.blit a off l).blit a off' l' = m.setPage a (((m.page a).blit off l).blit off' l') := by
  unfold Mem.blit Mem.setPage
  dsimp only
  rw [update_self, update_idem]

theorem blit_page (hs : Sound m pt) (hr : Readable m pt va) {b : Byte} {bs : List Byte}
    (hlen : bs.length < 4096 - va % 4096) :
    m.blit (frameAt m pt va) (va % 4096) (b :: bs) = storeBytes pt m va (b :: bs) := by
  -- the table is the same after each byte, so the next byte goes to the same page
  induction bs generalizing m va b with
  | nil => rfl
  | cons c cs ih =>
    rw [length_cons] at hlen
    have hsame := hs.sameTables_blit hr (va % 4096) [b]
    have hdiv : (va + 1) / 4096 = va / 4096 := by omega
    have hmod : (va + 1) % 4096 = va % 4096 + 1 := by omega
    have hframe : frameAt (storeByte m pt va b) pt (va + 1) = frameAt m pt va := by
      unfold storeByte
      rw [show va % PGSIZE = va % 4096 from rfl, hsame.frameAt_eq]
      unfold frameAt
      rw [pteAt_congr hdiv]
    have hr' : Readable (storeByte m pt va b) pt (va + 1) :=
      (hsame.readable_iff _).2 ((readable_congr hdiv).2 hr)
    have hrest : (storeByte m pt va b).blit (frameAt (storeByte m pt va b) pt (va + 1))
      ((va + 1) % 4096) (c :: cs) =
        storeBytes pt (storeByte m pt va b) (va + 1) (c :: cs) := ih (hs.congr hsame) hr' (by omega)
    rw [storeBytes, ← hrest, hframe, hmod]
    unfold storeByte
    rw [blit_blit, Mem.blit, blit_cons]

theorem storeBytes_append (pt : ℕ) (m : Mem) (va : ℕ) (bs cs : List Byte) :
    storeBytes pt m va (bs ++ cs) = storeBytes pt (storeBytes pt m va bs) (va + bs.length) cs := by
  induction bs generalizing m va with
  | nil => rfl
  | cons b bs ih =>
    rw [cons_append, storeBytes, storeBytes, ih, length_cons, Nat.add_assoc, Nat.add_comm 1]

/-- The loop of `copyout`. -/
theorem copyoutLoop_bytewise {fuel : ℕ} {m : Mem} (hs : Sound m pt) {bytes : List Byte}
    (hf : bytes.length < fuel) (va : ℕ) (hva : va < 2 ^ 64) :
    ∃ n, Leading (Storable m pt) va bytes.length n ∧ copyoutLoop pt fuel m va bytes =
      (storeBytes pt m va (bytes.take n), decide (n = bytes.length)) := by
  induction fuel generalizing m va bytes with
  | zero => exact absurd hf (Nat.not_lt_zero _)
  | succ fuel ih =>
    have hmax : MAXVA = 2 ^ 38 := rfl
    by_cases hb : bytes = []
    · subst hb
      rw [copyoutLoop, if_pos rfl]
      exact ⟨0, ⟨le_rfl, by simp, by simp⟩, rfl⟩
    have hpos : 0 < bytes.length := length_pos_iff.2 hb
    by_cases hw : Storable m pt va
    · have hlt := hw.1.1
      obtain ⟨a, ha⟩ : ∃ a, a = min (4096 - va % 4096) bytes.length := ⟨_, rfl⟩
      rw [copyoutLoop_storable fuel hb hw ha]
      have hgood : ∀ k < a, Storable m pt (va + k) := fun k hk => (storable_congr (by omega)).2 hw
      have hsame := hs.sameTables_blit hw.1 (va % 4096) (bytes.take a)
      have hstore : m.blit (frameAt m pt va) (va % 4096) (bytes.take a) = storeBytes pt m va
        (bytes.take a) := by
        obtain ⟨b, bs, rfl⟩ := exists_cons_of_ne_nil hb
        obtain ⟨a', rfl⟩ : ∃ a', a = a' + 1 := ⟨a - 1, by omega⟩
        rw [take_succ_cons]
        apply blit_page hs hw.1
        rw [length_take]
        omega
      have hf' : (bytes.drop a).length < fuel := by
        rw [length_drop]
        omega
      obtain ⟨n, hn, hrest⟩ := ih (hs.congr hsame) hf' (va / 4096 * 4096 + 4096) (by omega)
      rw [hrest, hstore]
      rw [length_drop] at hn ⊢
      by_cases hend : bytes.length = a
      · -- the range ends in this page
        have hn0 : n = 0 := by
          have := hn.le
          omega
        refine ⟨a, ⟨by omega, hgood, by omega⟩, ?_⟩
        subst hn0
        simp [storeBytes, hend]
      · have haddr : va / 4096 * 4096 + 4096 = va + a := by omega
        rw [haddr] at hn ⊢
        have hn' : Leading (Storable m pt) (va + a) (bytes.length - a) n :=
          ⟨hn.le, fun k hk => (hsame.storable_iff _).1 (hn.good k hk),
            fun hlt hst => hn.bad hlt ((hsame.storable_iff _).2 hst)⟩
        refine ⟨a + n, hn'.add (by omega) hgood, ?_⟩
        have htake : bytes.take (a + n) = bytes.take a ++ (bytes.drop a).take n := take_add ..
        have hlen : (bytes.take a).length = a := by
          rw [length_take]
          omega
        have hiff : n = bytes.length - a ↔ a + n = bytes.length := by omega
        rw [htake, storeBytes_append, hlen]
        simp only [hiff]
    · rw [copyoutLoop_refuses fuel hb hw]
      refine ⟨0, Leading.zero_of_bad hw, ?_⟩
      have hne : ¬ 0 = bytes.length := by omega
      simp [storeBytes, hne]

theorem copyout_leading (hs : Sound m pt) {va : ℕ} (hva : va < 2 ^ 64) (bytes : List Byte) :
    ∃ n, Leading (Storable m pt) va bytes.length n ∧
      copyout m pt va bytes = (storeBytes pt m va (bytes.take n), decide (n = bytes.length)) :=
  copyoutLoop_bytewise hs (Nat.lt_succ_self _) va hva

/-! ### What the stores change -/

theorem byte_blit_singleton (pg : Page) {off : ℕ} (hoff : off < 4096) (b : Byte) (j : ℕ) :
    (pg.blit off [b]).byte j = if j = off then b else pg.byte j := by
  have hn : 8 * NPTE = 4096 := rfl
  rw [Words.byte_blit, hn]
  rcases lt_trichotomy off j with h | h | h
  · rw [if_neg (by omega : ¬ j = off)]
    have hnone : ([b] : List Byte)[j - off]? = none := getElem?_eq_none (by simp; omega)
    rw [hnone]
    simp
  · subst h
    rw [if_pos ⟨le_rfl, hoff⟩, if_pos rfl]
    simp
  · rw [if_neg (by omega), if_neg (by omega)]

/-- The place of an address in physical memory. -/
def placeAt (m : Mem) (pt va : ℕ) : ℕ × ℕ := (frameAt m pt va, va % PGSIZE)

theorem byte_storeByte (m : Mem) (pt va : ℕ) (b : Byte) (a j : ℕ) :
    ((storeByte m pt va b).page a).byte j = if (a, j) = placeAt m pt va then b else (m.page a).byte j := by
  have hlt : va % PGSIZE < 4096 := Nat.mod_lt _ (by decide)
  unfold storeByte Mem.blit placeAt
  by_cases ha : a = frameAt m pt va
  · subst ha
    rw [Rep.page_setPage_self, byte_blit_singleton _ hlt]
    by_cases hj : j = va % PGSIZE
    · rw [if_pos hj, if_pos (by rw [hj])]
    · rw [if_neg hj, if_neg (fun h => hj (Prod.mk.inj h).2)]
  · rw [Rep.page_setPage_of_ne m ha, if_neg (fun h => ha (Prod.mk.inj h).1)]

/-- What holds before the stores of `storeBytes` and after them. -/
structure Stored (m m' : Mem) (pt va : ℕ) (bs : List Byte) : Prop where
  tables : SameTables m m' pt
  free : m'.free = m.free
  /-- No other byte of physical memory changes. -/
  frame : ∀ a j, (∀ k < bs.length, placeAt m pt (va + k) ≠ (a, j)) → (m'.page a).byte j = (m.page a).byte j
  /-- A byte is as it was stored last. -/
  stored : ∀ k b, bs[k]? = some b → (∀ i, k < i → i < bs.length →
    placeAt m pt (va + i) ≠ placeAt m pt (va + k)) →
    (m'.page (frameAt m pt (va + k))).byte ((va + k) % PGSIZE) = b

theorem stored_storeBytes (hs : Sound m pt) {bs : List Byte}
    (hr : ∀ k < bs.length, Readable m pt (va + k)) :
    Stored m (storeBytes pt m va bs) pt va bs := by
  induction bs generalizing m va with
  | nil => exact ⟨fun _ _ _ _ => rfl, rfl, fun _ _ _ => rfl, fun k b hb => by simp at hb⟩
  | cons b bs ih =>
    have hr0 : Readable m pt va := hr 0 (Nat.succ_pos _)
    have hsame : SameTables m (storeByte m pt va b) pt := hs.sameTables_blit hr0 _ _
    have hshift : ∀ k, va + 1 + k = va + (k + 1) := fun k => by omega
    have hplace : ∀ x, placeAt (storeByte m pt va b) pt x = placeAt m pt x := fun x => by
      unfold placeAt
      rw [hsame.frameAt_eq]
    have hrest : ∀ k < bs.length, Readable (storeByte m pt va b) pt (va + 1 + k) := by
      intro k hk
      have := hr (k + 1) (by rw [length_cons]; omega)
      rw [← hshift k] at this
      exact (hsame.readable_iff _).2 this
    obtain ⟨htables, hfree, hframe, hstored⟩ := ih (hs.congr hsame) hrest
    rw [storeBytes]
    constructor
    case tables =>
      intro path hlen a ha
      rw [htables path hlen a (by rwa [hsame.node_eq path (by omega)])]
      exact hsame path hlen a ha
    case free => exact hfree
    case frame =>
      intro a j hout
      rw [hframe a j, byte_storeByte, if_neg]
      · exact fun he => hout 0 (Nat.succ_pos _) he.symm
      · intro k hk
        rw [hplace, hshift k]
        exact hout (k + 1) (by rw [length_cons]; omega)
    case stored =>
      intro k c hc hlast
      cases k with
      | zero =>
        rw [getElem?_cons_zero, Option.some_inj] at hc
        subst hc
        rw [hframe, byte_storeByte]
        · exact if_pos rfl
        · intro k hk
          rw [hplace, hshift k]
          exact hlast (k + 1) (Nat.succ_pos _) (by rw [length_cons]; omega)
      | succ k =>
        rw [getElem?_cons_succ] at hc
        have := hstored k c hc fun i hi hlt => by
          rw [hplace, hplace, hshift i, hshift k]
          exact hlast (i + 1) (by omega) (by rw [length_cons]; omega)
        rwa [hsame.frameAt_eq, hshift k] at this

/-! ### The tables of the kernel -/

section Rep

variable {ρ κ : Type} {S : MemMap ρ κ} {q : ρ}

theorem Rep.sound (h : Rep m S) (hr : S.root q = some pt) : Sound m pt where
  nonNull va hread := by
    obtain ⟨x, hx, hpte⟩ := h.readable_cell hr hread
    unfold frameAt
    rw [hpte]
    exact (h.userPage_page hr hx).2.2.1
  apart va hread path hlen hnode := by
    obtain ⟨x, hx, hpte⟩ := h.readable_cell hr hread
    obtain ⟨hv, -⟩ := h.userPage_page hr hx
    obtain ⟨-, hc, -⟩ := userPage_eq_some.1 hx
    obtain ⟨pte, pg⟩ := x
    have hpage := (h.pageIn_cell hv hc).1
    unfold frameAt at hnode
    rw [hpte, ← hr, ← pageIn_table hlen] at hnode
    have heq := h.pool.inj _ _ _ hnode hpage
    rw [Sum.inl.injEq, Prod.mk.injEq] at heq
    rw [heq.2, length_pagePath] at hlen
    omega

/-- The user may read a page that the map of memory shows, and reads its bytes. -/
theorem Rep.readable_of_userPage (h : Rep m S) (hr : S.root q = some pt) {x : BitVec 64 × Page}
    (hx : S.userPage q va = some x) : Readable m pt va ∧ byteAt m pt va = x.2.byte (va % 4096) := by
  obtain ⟨hread, hpte⟩ := h.userPage_pte hr hx
  refine ⟨hread, ?_⟩
  unfold byteAt frameAt
  rw [hpte, (h.userPage_page hr hx).2.2.2]

/-- **`copyin` succeeds exactly when every page of the range is mapped for the user**, and then it has
read the bytes of those pages. -/
theorem copyin_eq (h : Rep m S) {pt : ℕ} (hr : S.root q = some pt) {srcva : ℕ} (len : ℕ)
    (hsrc : srcva < 2 ^ 64) :
    ((copyin m pt srcva len).2 = true ↔ ∀ k < len, S.userPage q (srcva + k) ≠ none) ∧
    ((copyin m pt srcva len).2 = true → ∀ k < len, ∀ x, S.userPage q (srcva + k) = some x →
      (copyin m pt srcva len).1[k]? = some (x.2.byte ((srcva + k) % 4096))) := by
  have hmapped : ∀ va, Readable m pt va ↔ S.userPage q va ≠ none := by
    intro va
    rw [Option.ne_none_iff_exists']
    constructor
    · intro hread
      obtain ⟨x, hx, -⟩ := h.readable_cell hr hread
      exact ⟨x, hx⟩
    · rintro ⟨x, hx⟩
      exact (h.readable_of_userPage hr hx).1
  obtain ⟨n, hn, hrun⟩ := copyin_leading (h.sound hr).nonNull hsrc len
  simp only [← hmapped]
  rw [hrun, ← hn.all_iff]
  refine ⟨decide_eq_true_iff, fun hok k hk x hx => ?_⟩
  obtain rfl : n = len := of_decide_eq_true hok
  simp [bytesAt, hk, (h.readable_of_userPage hr hx).2]

end Rep

/-- **`copyin` and `copyout` agree with access to single bytes.**  Each succeeds exactly when the user may
access every address of the range; otherwise it has copied the bytes before the first bad address.  A
range that would pass the end of the address space has bad addresses before it.  For `copyout` the pages
of the user are no page-table pages; physical memory changes in the places of the stored addresses only. -/
theorem copy_bytewise (h : NonNull m pt) {va : ℕ} (hva : va < 2 ^ 64) (len : ℕ) (bytes : List Byte) :
    ((copyin m pt va len).2 = true ↔ ∀ k < len, Readable m pt (va + k)) ∧
    (∃ n, Leading (Readable m pt) va len n ∧ (copyin m pt va len).1 = bytesAt m pt va n) ∧
    (Sound m pt → ((copyout m pt va bytes).2 = true ↔ ∀ k < bytes.length, Storable m pt (va + k)) ∧
      ∃ n, Leading (Storable m pt) va bytes.length n ∧
        (copyout m pt va bytes).1 = storeBytes pt m va (bytes.take n) ∧
        Stored m (copyout m pt va bytes).1 pt va (bytes.take n)) := by
  obtain ⟨n, hn, hin⟩ := copyin_leading h hva len
  rw [hin]
  refine ⟨?_, ⟨n, hn, rfl⟩, fun hs => ?_⟩
  · rw [← hn.all_iff]
    exact decide_eq_true_iff
  obtain ⟨n', hn', hout⟩ := copyout_leading hs hva bytes
  rw [hout]
  refine ⟨?_, n', hn', rfl, ?_⟩
  · rw [← hn'.all_iff]
    exact decide_eq_true_iff
  · refine stored_storeBytes hs fun k hk => ?_
    rw [length_take] at hk
    exact (hn'.good k (by omega)).1

/-- A page-table page with one entry. -/
def onlyEntry (x : BitVec 64) : Page := update (Words.fill 0) 0 x

/-- A table at 4096 that maps one page, at address 0, for reading and writing; the page starts with the
string `hi`. -/
def onePage : Mem where
  page a :=
    if a = 4096 then onlyEntry (pa2pte 8192 ||| PTEV)
    else if a = 8192 then onlyEntry (pa2pte 12288 ||| PTEV)
    else if a = 12288 then onlyEntry (pa2pte 16384 ||| PTEV ||| PTER ||| PTEW ||| PTEU)
    else if a = 16384 then onlyEntry 0x6968
    else Words.fill 0
  free := []
  kend := 4096
  tramp := 0

theorem kids_onlyEntry {m : Mem} {a : ℕ} {x : BitVec 64} (h : m.page a = onlyEntry x) {i : Fin NPTE} {c : ℕ}
    (hk : kids m a i = some c) : i = 0 ∧ c = pte2pa x := by
  rw [kids_eq_some, h] at hk
  by_cases hi : i = 0
  · subst hi
    refine ⟨rfl, hk.2.symm.trans ?_⟩
    rw [onlyEntry, update_self]
  · rw [onlyEntry, update_of_ne hi, fill_zero_apply] at hk
    simp at hk

theorem node_onePage_pair {i j : Fin NPTE} {a : ℕ} (h : node onePage (some 4096) [i, j] = some a) :
    a = 12288 := by
  cases hk : kids onePage 4096 i with
  | none => simp [node, descendant, hk] at h
  | some b =>
    have hb : b = 8192 := (kids_onlyEntry (x := pa2pte 8192 ||| PTEV) rfl hk).2
    subst hb
    have h2 : kids onePage 8192 j = some a := by simpa [node, descendant, hk] using h
    exact (kids_onlyEntry (x := pa2pte 12288 ||| PTEV) rfl h2).2

theorem node_onePage {path : List (Fin NPTE)} (hlen : path.length ≤ 2) {a : ℕ}
    (h : node onePage (some 4096) path = some a) : a = 4096 ∨ a = 8192 ∨ a = 12288 := by
  match path, hlen with
  | [], _ => exact Or.inl (Option.some_inj.1 h).symm
  | [i], _ => exact Or.inr (Or.inl (kids_onlyEntry (x := pa2pte 8192 ||| PTEV) rfl h).2)
  | [i, j], _ => exact Or.inr (Or.inr (node_onePage_pair h))

theorem onePage_frame {va : ℕ} (h : Readable onePage 4096 va) : frameAt onePage 4096 va = 16384 := by
  obtain ⟨-, hv, -⟩ := h
  unfold frameAt
  unfold pteAt lookup at hv ⊢
  rw [descend_eq] at hv ⊢
  cases hn : node onePage (some 4096) [px 2 va, px 1 va] with
  | none =>
    rw [hn] at hv
    simp at hv
  | some t =>
    obtain rfl := node_onePage_pair hn
    rw [hn] at hv
    have hk : kids onePage 12288 (px 0 va) = some (pte2pa (onePage.page 12288 (px 0 va))) :=
      kids_eq_some.2 ⟨hv, rfl⟩
    exact (kids_onlyEntry (x := pa2pte 16384 ||| PTEV ||| PTER ||| PTEW ||| PTEU) rfl hk).2

theorem onePage_sound : Sound onePage 4096 where
  nonNull va h := by
    rw [onePage_frame h]
    decide
  apart va h path hlen hn := by
    rw [onePage_frame h] at hn
    rcases node_onePage hlen hn with h | h | h <;> omega

/-- Three bytes are copied to the end of that page and beyond. -/
theorem copy_bytewise_onePage :
    ((copyout onePage 4096 4094 [1, 2, 3]).2 = true ↔ ∀ k < 3, Storable onePage 4096 (4094 + k)) ∧
    ∃ n, Leading (Storable onePage 4096) 4094 3 n ∧
      (copyout onePage 4096 4094 [1, 2, 3]).1 = storeBytes 4096 onePage 4094 ([1, 2, 3].take n) ∧
      Stored onePage (copyout onePage 4096 4094 [1, 2, 3]).1 4096 4094 ([1, 2, 3].take n) :=
  (copy_bytewise onePage_sound.nonNull (by decide) 3 [1, 2, 3]).2.2 onePage_sound

end Xv6
