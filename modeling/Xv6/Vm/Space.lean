import Xv6.Vm.Table

/-!
# What the memory functions do to a memory map

For each function of `kalloc.c` and `vm.c` a rule that says, in terms of the map a memory represents,
what the function does; none of them says where page-table pages come from.

* `wp_kalloc`, `wp_kfree`, `wp_memset`: pages in hand;
* `wp_walk`: a lookup does not change the map, though it may add page-table pages;
* `wp_mappages`, `wp_mapReserved`: one page is mapped, or nothing changes.
-/

namespace Xv6

open Stateful Function List

attribute [local irreducible] wp

variable {ρ κ : Type} {m : Mem} {S : MemMap ρ κ} {q : ρ} {k : κ} {A : Stop → Mem → Prop}

/-! ### The allocator -/

theorem wp_kalloc {Q : ℕ → Mem → Prop} (h : Rep m S) (h0 : m.free = [] → Q 0 m)
    (h1 : ∀ r m', Holding m' r S → Agree m m' S → Q r m') : wp kalloc Q A m := by
  unfold kalloc
  rw [wp_bind, wp_get]
  cases hf : m.free with
  | nil => exact (wp_pure _).2 (h0 hf)
  | cons r rest =>
    rw [wp_bind, wp_set, wp_pure]
    exact h1 r _ (h.holding hf _) (h.agree_setFree hf _)

theorem wp_memset {Q : Unit → Mem → Prop} {a : ℕ} {b : Byte} (h : Holding m a S)
    (hQ : ∀ m', Holding m' a S → Agree m m' S → m'.page a = Words.fill b → Q () m') :
    wp (memset a b) Q A m := by
  unfold memset
  rw [if_neg h.ne_zero, wp_modify]
  exact hQ _ (h.write _) (h.agree_write _) (Rep.page_setPage_self m a _)

theorem wp_kfree {Q : Unit → Mem → Prop} {a : ℕ} (h : Holding m a S) (hQ : ∀ m', Rep m' S → Q () m') :
    wp (kfree a) Q A m := by
  obtain ⟨h1, h2, h3⟩ := h.pageOk
  unfold kfree
  rw [wp_bind, wp_get, if_neg (by omega), wp_set]
  exact hQ _ (h.free _)

variable [DecidableEq ρ] [DecidableEq κ]

/-! ### Looking up -/

theorem px_two_lt (v : Vpn) : (px 2 (pageAddr v)).val < 256 := by
  rw [px_pageAddr]
  have hv : v.val < 2 ^ 26 := v.isLt
  norm_num
  omega

/-- The indices of an address at the levels below `level + 1`, from the top down. -/
def indices (va level : ℕ) : List (Fin NPTE) := ((List.range level).map fun l => px (l + 1) va).reverse

theorem indices_succ (va level : ℕ) : indices va (level + 1) = px (level + 1) va :: indices va level := by
  unfold indices
  rw [range_succ, map_append, reverse_append]
  rfl

theorem indices_two {va : ℕ} (h : va < MAXVA) : indices va 2 = tablePath (vpn va) := by
  unfold tablePath
  rw [indices_succ, indices_succ, px_vpn 2 h, px_vpn 1 h]
  rfl

/-- The levels of `walk`: from the page-table page at the end of `p` to the one of level 0. -/
theorem wp_walkLoop {Q : Option ℕ → Mem → Prop} {va : ℕ} {alloc : Bool} {level pt : ℕ}
    {p : List (Fin NPTE)} (h : Rep m S) (hp : node m (S.root q) p = some pt)
    (hpath : p ++ indices va level = tablePath (vpn va))
    (h1 : ∀ m' t, Rep m' S → node m' (S.root q) (tablePath (vpn va)) = some t →
      (alloc = false → m' = m) → Q (some t) m')
    (h0 : ∀ m', Rep m' S → (alloc = false → m' = m ∧ node m (S.root q) (tablePath (vpn va)) = none) →
      Q none m') : wp (walkLoop va alloc level pt) Q A m := by
  induction level generalizing m pt p with
  | zero =>
    replace hpath : p ++ [] = tablePath (vpn va) := hpath
    rw [append_nil] at hpath
    rw [walkLoop, wp_pure]
    exact h1 m pt h (hpath ▸ hp) fun _ => rfl
  | succ level ih =>
    rw [indices_succ] at hpath
    have hpath' : (p ++ [px (level + 1) va]) ++ indices va level = tablePath (vpn va) := by
      rwa [append_assoc]
    have hlen : p.length ≤ 1 := by
      have := congrArg List.length hpath
      rw [length_append, length_cons, length_tablePath] at this
      omega
    rw [walkLoop, wp_bind, wp_get]
    by_cases hval : hasFlag (m.page pt (px (level + 1) va)) PTEV = true
    · -- the page-table page is there
      have hkid : node m (S.root q) (p ++ [px (level + 1) va]) =
          some (pte2pa (m.page pt (px (level + 1) va))) := by
        unfold node at hp ⊢
        rw [descendant_snoc, hp, Option.bind_some, kids_eq_some]
        exact ⟨hval, rfl⟩
      rw [if_pos hval]
      exact ih h hkid hpath' h1 h0
    · have hnone : kids m pt (px (level + 1) va) = none := kids_eq_none.2 (by simpa using hval)
      rw [if_neg hval]
      cases alloc with
      | false =>
        rw [if_pos (by decide), wp_pure]
        refine h0 m h fun _ => ⟨rfl, ?_⟩
        unfold node at hp ⊢
        rw [← hpath', descendant_append, descendant_snoc, hp, Option.bind_some, hnone, descendant_none]
      | true =>
        rw [if_neg (by decide), wp_bind]
        apply wp_kalloc h
        · intro _
          rw [if_pos rfl, wp_pure]
          exact h0 m h fun hc => absurd hc (by decide)
        · intro c m₁ hc₁ ha₁
          rw [if_neg hc₁.ne_zero, wp_bind]
          apply wp_memset hc₁
          intro m₂ hc₂ ha₂ hzero
          -- neither step touches the tables
          have hag := ha₁.trans ha₂
          have hp₂ : node m₂ (S.root q) p = some pt := (hag.node_eq q (by omega)).trans hp
          have hnone₂ : kids m₂ pt (px (level + 1) va) = none := by
            unfold kids
            rwa [hag.table q p pt (by omega) hp]
          have hlow : p = [] → (px (level + 1) va).val < 256 := by
            rintro rfl
            have hhead := (List.cons.inj hpath).1
            rw [hhead]
            exact px_two_lt _
          have hrep := hc₂.attach hzero hp₂ hlen hnone₂ hlow
          have hkid := hc₂.drop.node_setPte hp₂ (by omega) (pa2pte c ||| PTEV)
            (i := px (level + 1) va)
            (fun _ b hb => by rw [hnone₂] at hb; cases hb)
            (fun _ b hb j => by
              rw [hc₂.kids_attach, Option.some_inj] at hb
              rw [← hb]
              exact kids_of_fill_zero (hc₂.page_attach hp₂ (by omega) hzero) j)
            q (p ++ [px (level + 1) va]) (by simp; omega)
          rw [if_pos ⟨rfl, rfl⟩, hc₂.kids_attach] at hkid
          rw [wp_bind, wp_modify]
          apply ih hrep hkid hpath'
          · intro m' t hm' ht _
            exact h1 m' t hm' ht fun hc => absurd hc (by decide)
          · intro m' hm' _
            exact h0 m' hm' fun hc => absurd hc (by decide)

/-- **A lookup does not change the map.**  Without `alloc` it changes nothing at all. -/
theorem wp_walk {Q : Option (ℕ × Fin NPTE) → Mem → Prop} {va pt : ℕ} {alloc : Bool} (h : Rep m S)
    (hr : S.root q = some pt) (hva : va < MAXVA)
    (h1 : ∀ m' t, Rep m' S → node m' (S.root q) (tablePath (vpn va)) = some t →
      (alloc = false → m' = m) → Q (some (t, px 0 (pageAddr (vpn va)))) m')
    (h0 : ∀ m', Rep m' S → (alloc = false → m' = m ∧ S.cell q (vpn va) = none) → Q none m') :
    wp (walk pt va alloc) Q A m := by
  unfold walk
  rw [if_neg (by omega), wp_bind]
  apply wp_walkLoop (p := []) h hr ((nil_append _).trans (indices_two hva))
  · intro m' t hm' ht hsame
    rw [wp_pure, ← px_vpn 0 hva]
    exact h1 m' t hm' ht hsame
  · intro m' hm' hsame
    rw [wp_pure]
    refine h0 m' hm' fun halloc => ?_
    obtain ⟨rfl, hnone⟩ := hsame halloc
    refine ⟨rfl, ?_⟩
    rw [← h.cell q (vpn va), cellAt, entry, hnone]
    exact if_neg (by simp)

/-! ### Mapping -/

theorem add64_eq {a b : ℕ} (h : a + b < 2 ^ 64) : add64 a b = a + b := Nat.mod_eq_of_lt h

theorem sub64_eq {a b : ℕ} (hb : b ≤ a) (ha : a < 2 ^ 64) : sub64 a b = a - b := by
  unfold sub64
  omega

theorem wp_mapOne {Q : Bool → Mem → Prop} {pt va pa : ℕ} {perm : BitVec 32} (hal : va % PGSIZE = 0)
    (hva : va < MAXVA)
    (hw : wp (walk pt va true) (fun o m' => match o with
      | none => Q false m'
      | some (t, i) =>
        if hasFlag (m'.page t i) PTEV then A (.panic "mappages: remap") m'
        else Q true (m'.setPte t i (pa2pte pa ||| perm.signExtend 64 ||| PTEV))) A m) :
    wp (mappages pt va PGSIZE pa perm) Q A m := by
  have hlast : sub64 (add64 va PGSIZE) PGSIZE = va := by
    have hlt : va < 2 ^ 38 := hva
    have hpg : PGSIZE = 4096 := rfl
    rw [add64_eq (by omega), sub64_eq (by omega) (by omega)]
    omega
  unfold mappages
  rw [if_neg (by simpa using hal), if_neg (by decide), if_neg (by decide), hlast,
    show PGSIZE / PGSIZE = 1 from rfl, mapLoop, wp_bind]
  refine wp_post hw fun o m' ho => ?_
  cases o with
  | none => exact (wp_pure _).2 ho
  | some ti =>
    obtain ⟨t, i⟩ := ti
    dsimp only at ho ⊢
    rw [wp_bind, wp_get]
    by_cases hval : hasFlag (m'.page t i) PTEV = true
    · rw [if_pos hval] at ho ⊢
      rw [wp_bind]
      exact (wp_panic _).2 ho
    · rw [if_neg hval] at ho ⊢
      rwa [wp_bind, wp_modify, if_pos rfl, wp_pure]

/-- **A page is mapped**, or nothing changes because there is no page-table page for it. -/
theorem wp_mappages {Q : Bool → Mem → Prop} {pt va pa : ℕ} {perm : BitVec 32} {pg : Page} (h : Rep m S)
    (hr : S.root q = some pt) (hva : va < MAXVA) (hal : va % PGSIZE = 0) (hv : ¬ Reserved (vpn va))
    (hk : S.box k = some (pa, pg)) (hperm : (perm.signExtend 64).toNat < 1024)
    (hremap : S.cell q (vpn va) ≠ none → ∀ m', Rep m' S → A (.panic "mappages: remap") m')
    (h1 : S.cell q (vpn va) = none → ∀ m', Rep m' ((S.setBox k none).setCell q (vpn va)
      (some (pa2pte pa ||| perm.signExtend 64 ||| PTEV, pg))) → Q true m')
    (h0 : ∀ m', Rep m' S → Q false m') : wp (mappages pt va PGSIZE pa perm) Q A m := by
  apply wp_mapOne hal hva
  apply wp_walk h hr hva
  · intro m' t hm' ht _
    dsimp only
    have hentry := Rep.entry_of_table ht
    by_cases hval : hasFlag (m'.page t (px 0 (pageAddr (vpn va)))) PTEV = true
    · rw [if_pos hval]
      refine hremap (fun hnone => ?_) m' hm'
      have := hm'.entry_of_none hnone
      simp [hentry, hval] at this
    · rw [if_neg hval]
      have hnone : S.cell q (vpn va) = none := by
        rw [← hm'.cell q (vpn va), cellAt, hentry]
        exact if_neg hval
      have hhold := hm'.unbox hk
      obtain ⟨hmod, -, hstop⟩ := hhold.pageOk
      have hpa := pte2pa_mk (hstop.trans (by decide)) hmod hperm
      have hmap := hhold.map ht hv (hasFlag_or_self (by decide)) hpa
      rw [hm'.box k pa pg hk] at hmap
      exact h1 hnone _ hmap
  · intro m' hm' _
    exact h0 m' hm'

/-! ### Enough memory -/

/-- A page comes from the head of the free list, and the other pages stay. -/
theorem wp_kalloc_free : wp kalloc (fun r m' => m'.free = m.free.tail ∧ (r ≠ 0 → r ∈ m.free) ∧
    ∀ b, b ∉ m.free → m'.page b = m.page b) A m := by
  unfold kalloc
  rw [wp_bind, wp_get]
  cases hf : m.free with
  | nil => exact (wp_pure _).2 ⟨hf, fun h => absurd rfl h, fun _ _ => rfl⟩
  | cons r rest =>
    rw [wp_bind, wp_set, wp_pure]
    exact ⟨rfl, fun _ => mem_cons_self, fun b hb => update_of_ne (ne_of_not_mem_cons hb) _ _⟩

/-- The page-table pages there are for an address, from the top down. -/
def tables (m : Mem) (va : ℕ) : ℕ → ℕ → List ℕ
  | 0, pt => [pt]
  | level + 1, pt =>
    pt :: if hasFlag (m.page pt (px (level + 1) va)) PTEV then
      tables m va level (pte2pa (m.page pt (px (level + 1) va))) else []

theorem tables_congr {m' : Mem} {va level pt : ℕ} (h : ∀ t ∈ tables m va level pt, m'.page t = m.page t) :
    tables m' va level pt = tables m va level pt := by
  induction level generalizing pt with
  | zero => rfl
  | succ level ih =>
    rw [tables] at h ⊢
    rw [tables, h pt mem_cons_self]
    split_ifs at h ⊢ with hval
    · rw [ih fun t ht => h t (mem_cons_of_mem _ ht)]
    · rfl

omit [DecidableEq ρ] [DecidableEq κ] in
theorem Rep.tables_not_free (h : Rep m S) {va level pt : ℕ} {p : List (Fin NPTE)}
    (hp : node m (S.root q) p = some pt) (hlen : p.length + level ≤ 2) :
    ∀ t ∈ tables m va level pt, t ∉ m.free := by
  have hpt : pt ∉ m.free := h.pool.apart (.inl (q, p)) pt ((pageIn_table (by omega)).trans hp)
  induction level generalizing pt p with
  | zero => exact fun t ht => by rwa [mem_singleton.1 ht]
  | succ level ih =>
    rw [tables]
    refine forall_mem_cons.2 ⟨hpt, ?_⟩
    split_ifs with hval
    · have hkid : node m (S.root q) (p ++ [px (level + 1) va]) =
          some (pte2pa (m.page pt (px (level + 1) va))) := by
        unfold node at hp ⊢
        rw [descendant_snoc, hp, Option.bind_some, kids_eq_some]
        exact ⟨hval, rfl⟩
      have hlen' : (p ++ [px (level + 1) va]).length + level ≤ 2 := by
        rw [length_append, length_singleton]
        omega
      exact ih hkid hlen' (h.pool.apart (.inl (q, _)) _ ((pageIn_table (by omega)).trans hkid))
    · exact fun t ht => absurd ht not_mem_nil

/-- **The levels of `walk` have their pages** exactly when the free list has one for each page-table
page that is missing. -/
theorem wp_walkLoop_room {va level pt : ℕ} (hok : ∀ a ∈ m.free, a ≠ 0) (hnd : m.free.Nodup)
    (hoff : ∀ t ∈ tables m va level pt, t ∉ m.free) :
    wp (walkLoop va true level pt)
      (fun r m' => (r ≠ none ↔ level + 1 ≤ m.free.length + (tables m va level pt).length) ∧
        m.free.length ≤ m'.free.length + level) (fun _ _ => False) m := by
  -- induction on the levels: each takes at most one page
  induction level generalizing m pt with
  | zero =>
    rw [walkLoop, wp_pure]
    exact ⟨iff_of_true (Option.some_ne_none _) (by simp [tables]), le_rfl⟩
  | succ level ih =>
    rw [tables] at hoff ⊢
    rw [walkLoop, wp_bind, wp_get]
    by_cases hval : hasFlag (m.page pt (px (level + 1) va)) PTEV = true
    · rw [if_pos hval] at hoff ⊢
      rw [if_pos hval]
      refine wp_post (ih hok hnd fun t ht => hoff t (mem_cons_of_mem _ ht)) ?_
      rintro r m' ⟨hroom, hlen⟩
      rw [length_cons]
      exact ⟨hroom.trans (by omega), by omega⟩
    rw [if_neg hval] at hoff ⊢
    rw [if_neg hval, if_neg (by decide)]
    unfold kalloc
    rw [wp_bind, wp_bind, wp_get]
    cases hf : m.free with
    | nil =>
      rw [wp_pure, if_pos rfl, wp_pure]
      exact ⟨iff_of_false (fun h => h rfl) (by simp), Nat.zero_le _⟩
    | cons c rest =>
      have hc : c ≠ 0 := hok c (by rw [hf]; exact mem_cons_self)
      have hpt : c ≠ pt := fun heq => hoff pt mem_cons_self (by rw [hf, heq]; exact mem_cons_self)
      rw [hf, nodup_cons] at hnd
      rw [wp_bind, wp_set, wp_pure, if_neg hc, wp_bind, memset, if_neg hc, wp_modify, wp_bind, wp_modify]
      -- the new page-table page is empty
      set m₁ := ((({ m with free := rest }.setPage c (Words.fill 5)).setPage c (Words.fill 0)).setPte pt
        (px (level + 1) va) (pa2pte c ||| PTEV)) with hm₁
      have hpage : m₁.page c = Words.fill 0 := by simp [hm₁, Mem.setPte, Mem.setPage, hpt]
      have hone : tables m₁ va level c = [c] := by
        cases level with
        | zero => rfl
        | succ level => rw [tables, hpage, fill_zero_apply, hasFlag_zero, if_neg (by decide)]
      have hfree : m₁.free = rest := rfl
      have hnew : ∀ a ∈ m₁.free, a ≠ 0 := fun a ha => hok a (by rw [hf]; exact mem_cons_of_mem c ha)
      refine wp_post (ih hnew hnd.2 (by rw [hone, hfree]; simpa using hnd.1)) ?_
      rintro r m' ⟨hroom, hlen⟩
      rw [hone, hfree, length_singleton] at hroom
      rw [hfree] at hlen
      rw [length_cons, length_singleton]
      exact ⟨hroom.trans (by omega), by omega⟩

omit [DecidableEq ρ] [DecidableEq κ] in
/-- **`mappages` of a page succeeds** exactly when the free list has the page-table pages that are
missing, and takes two at most. -/
theorem wp_mappages_room {pt va pa : ℕ} {perm : BitVec 32} (h : Rep m S) (hr : S.root q = some pt)
    (hal : va % PGSIZE = 0) (hva : va < MAXVA) :
    wp (mappages pt va PGSIZE pa perm)
      (fun r m' => (r = true ↔ 3 ≤ m.free.length + (tables m va 2 pt).length) ∧
        m.free.length ≤ m'.free.length + 2) (fun _ _ => True) m := by
  apply wp_mapOne hal hva
  unfold walk
  rw [if_neg (by omega), wp_bind]
  refine wp_mono (wp_walkLoop_room h.free_ne_zero h.pool.nodup
    (h.tables_not_free (p := []) hr le_rfl)) ?_ fun _ _ hf => hf.elim
  rintro r m' ⟨hroom, hlen⟩
  cases r with
  | none =>
    rw [wp_pure]
    exact ⟨iff_of_false (by decide) fun hle => hroom.2 hle rfl, hlen⟩
  | some tbl =>
    rw [wp_pure]
    dsimp only
    by_cases hval : hasFlag (m'.page tbl (px 0 va)) PTEV = true
    · rw [if_pos hval]
      trivial
    · rw [if_neg hval]
      exact ⟨iff_of_true rfl (hroom.1 (Option.some_ne_none _)), hlen⟩

theorem wp_mapReserved {Q : Bool → Mem → Prop} {pt va pa : ℕ} {perm : BitVec 32} (h : Rep m S)
    (hr : S.root q = some pt) (hva : va < MAXVA) (hal : va % PGSIZE = 0) (hv : Reserved (vpn va))
    (hnone : S.cell q (vpn va) = none)
    (huser : hasFlag (pa2pte pa ||| perm.signExtend 64 ||| PTEV) PTEU = false)
    (h1 : ∀ m', Rep m' (S.setCell q (vpn va)
      (some (pa2pte pa ||| perm.signExtend 64 ||| PTEV, Words.fill 0))) → Q true m')
    (h0 : ∀ m', Rep m' S → Q false m') : wp (mappages pt va PGSIZE pa perm) Q A m := by
  apply wp_mapOne hal hva
  apply wp_walk h hr hva
  · intro m' t hm' ht _
    dsimp only
    have hinv := hm'.entry_of_none hnone
    rw [Rep.entry_of_table ht] at hinv
    rw [if_neg (by rw [hinv]; decide)]
    have hset := hm'.setReserved ht hv huser
    rw [leafOf, if_pos (hasFlag_or_self (by decide)), if_pos hv] at hset
    exact h1 _ hset
  · intro m' hm' _
    exact h0 m' hm'

/-! ### Unmapping -/

/-- The messages of `uvmunmap` for a page that is not mapped. -/
def UnmapStop (w : Stop) : Prop :=
  w = .panic "uvmunmap: walk" ∨ w = .panic "uvmunmap: not mapped" ∨ w = .panic "uvmunmap: not a leaf"

/-- The page is freed first and its entry cleared then; the other order gives the same memory. -/
theorem wp_freeLeaf {Q : Unit → Mem → Prop} {v : Vpn} {t : ℕ} {pte : BitVec 64} {pg : Page} (h : Rep m S)
    (ht : node m (S.root q) (tablePath v) = some t) (hv : ¬ Reserved v)
    (hc : S.cell q v = some (pte, pg))
    (hQ : ∀ m', Rep m' (S.setCell q v none) → m'.free = pte2pa pte :: m.free → Q () m') :
    wp (kfree (pte2pa pte) >>= fun _ => Prog.modify fun m => m.setPte t (px 0 (pageAddr v)) 0) Q A m := by
  have hin := (h.pageIn_cell hv hc).1
  obtain ⟨h1, h2, h3⟩ := h.pool.ok_own _ _ hin
  have hne : pte2pa pte ≠ t := by
    intro he
    exact Rep.inl_ne_of_length (by simp) (h.pool.inj (.inl (q, pagePath v)) (.inl (q, tablePath v)) t
      (he ▸ hin) ((Rep.pageIn_table (by simp)).trans ht))
  have hfree := (h.unmap ht hv hc).free
    (update (Words.fill 1) 0 (BitVec.ofNat 64 (linkOf m.free)))
  unfold kfree
  rw [wp_bind, wp_bind, wp_get, if_neg (by omega), wp_set, wp_modify]
  refine hQ _ (cast (congrArg (fun m' => Rep m' (S.setCell q v none)) ?_) hfree) rfl
  unfold Mem.setPte Mem.setPage
  simp only [Mem.mk.injEq, and_true]
  rw [update_of_ne hne.symm, update_comm hne]

/-- The physical pages of the virtual pages from `lo` to before `hi`. -/
def MemMap.PageOf (S : MemMap ρ κ) (q : ρ) (lo hi b : ℕ) : Prop :=
  ∃ (v : Vpn) (pte : BitVec 64) (pg : Page), lo ≤ v.val ∧ v.val < hi ∧ S.cell q v =
    some (pte, pg) ∧ pte2pa pte = b

omit [DecidableEq κ] in
theorem MemMap.pageOf_cons (S : MemMap ρ κ) {q : ρ} {v : Vpn} {pte : BitVec 64} {pg : Page}
    (hc : S.cell q v = some (pte, pg)) {hi : ℕ} (hlt : v.val < hi) (b : ℕ) :
    S.PageOf q v.val hi b ↔ (S.setCell q v none).PageOf q (v.val + 1) hi b ∨ b = pte2pa pte := by
  constructor
  · rintro ⟨w, pte', pg', hlo, hhi, hw, rfl⟩
    by_cases hwv : w = v
    · subst hwv
      rw [hc, Option.some_inj, Prod.mk.injEq] at hw
      exact Or.inr (by rw [hw.1])
    · have hne : w.val ≠ v.val := fun h => hwv (Fin.ext h)
      refine Or.inl ⟨w, pte', pg', by omega, hhi, ?_, rfl⟩
      rw [MemMap.cell_setCell, if_neg fun h => hwv h.2, hw]
  · rintro (⟨w, pte', pg', hlo, hhi, hw, rfl⟩ | rfl)
    · have hwv : w ≠ v := by
        rintro rfl
        omega
      rw [MemMap.cell_setCell, if_neg fun h => hwv h.2] at hw
      exact ⟨w, pte', pg', by omega, hhi, hw, rfl⟩
    · exact ⟨v, pte, pg, le_rfl, hlt, hc, rfl⟩

omit [DecidableEq ρ] [DecidableEq κ] in
theorem MemMap.not_pageOf_of_le (S : MemMap ρ κ) {q : ρ} {lo hi : ℕ} (h : hi ≤ lo) (b : ℕ) :
    ¬ S.PageOf q lo hi b := by
  rintro ⟨v, pte, pg, hlo, hhi, -⟩
  omega

/-- The loop of `uvmunmap` over pages of the user: they go to the free list. -/
theorem wp_unmapLoop {Q : Unit → Mem → Prop} {pt bound fuel a : ℕ} (h : Rep m S)
    (hr : S.root q = some pt) (hal : a % 4096 = 0) (hb : bound % 4096 = 0) (hbound : bound ≤ TRAPFRAME)
    (hfuel : bound ≤ a + fuel * 4096)
    (hmiss : ∀ v : Vpn, a / 4096 ≤ v.val → v.val < bound / 4096 →
      (∀ pte pg, S.cell q v = some (pte, pg) → pteFlags pte = PTEV) → ∀ w m', UnmapStop w → A w m')
    (hQ : ∀ m' l, Rep m' (S.clearRange q (a / 4096) (bound / 4096)) → m'.free = l ++ m.free →
      (∀ b, b ∈ l ↔ S.PageOf q (a / 4096) (bound / 4096) b) →
      (∀ v : Vpn, a / 4096 ≤ v.val → v.val < bound / 4096 → S.cell q v ≠ none) → Q () m') :
    wp (unmapLoop pt bound true fuel a) Q A m := by
  have htf : TRAPFRAME = (2 ^ 26 - 2) * 4096 := by decide
  have hpg : PGSIZE = 4096 := rfl
  induction fuel generalizing m S a with
  | zero =>
    rw [unmapLoop, wp_pure]
    refine hQ m [] ?_ rfl (fun b => ?_) (by omega)
    · rwa [MemMap.clearRange_of_le S q (by omega)]
    · exact ⟨fun hb => absurd hb not_mem_nil, fun hb => absurd hb (S.not_pageOf_of_le (by omega) b)⟩
  | succ fuel ih =>
    rw [unmapLoop]
    by_cases hlt : a < bound
    · have hva : a < MAXVA := by
        have : MAXVA = 2 ^ 38 := rfl
        omega
      have hval := vpn_val hva
      have hres : ¬ Reserved (vpn a) := by
        rintro (hc | hc)
        · have := congrArg Fin.val hc
          rw [hval] at this
          norm_num at this
          omega
        · have := congrArg Fin.val hc
          rw [hval] at this
          norm_num at this
          omega
      rw [if_pos hlt, wp_bind]
      apply wp_walk h hr hva
      · intro m' t hm' ht hsame
        obtain rfl := hsame rfl
        rw [wp_bind, wp_get]
        have hentry := Rep.entry_of_table ht
        cases hcell : S.cell q (vpn a) with
        | none =>
          have hinv := h.entry_of_none hcell
          rw [hentry] at hinv
          rw [if_pos (by rw [hinv]; rfl), wp_bind, wp_panic]
          exact hmiss (vpn a) (by omega) (by omega) (by rw [hcell]; simp) _ _ (Or.inr (Or.inl rfl))
        | some x =>
          obtain ⟨pte, pg⟩ := x
          obtain ⟨he, hflag⟩ := h.entry_of_cell hcell
          rw [hentry] at he
          rw [he, if_neg (by rw [hflag]; decide)]
          by_cases hleaf : pteFlags pte = PTEV
          · rw [if_pos hleaf, wp_bind, wp_panic]
            refine hmiss (vpn a) (by omega) (by omega) ?_ _ _ (Or.inr (Or.inr rfl))
            intro pte' pg' hc'
            rw [hcell, Option.some_inj, Prod.mk.injEq] at hc'
            rwa [← hc'.1]
          · rw [if_neg hleaf, if_pos rfl]
            have hnext : add64 a PGSIZE = a + 4096 := by
              rw [add64_eq (by omega), hpg]
            have hdiv : (a + 4096) / 4096 = (vpn a).val + 1 := by omega
            have hstep := wp_freeLeaf (A := A) (Q := fun _ =>
              wp (unmapLoop pt bound true fuel (a + 4096)) Q A)
              h ht hres hcell ?_
            · rw [wp_bind] at hstep ⊢
              rw [hnext]
              exact wp_post hstep fun _ _ hs => (wp_bind _ _).2 hs
            · intro m₁ hm₁ hfree
              apply ih hm₁ hr (by omega) (by omega)
              · intro v hlo hhi hv
                rw [hdiv] at hlo
                refine hmiss v (by omega) hhi fun pte' pg' hc' => hv pte' pg' ?_
                rw [MemMap.cell_setCell, if_neg]
                · exact hc'
                · rintro ⟨-, rfl⟩
                  omega
              · intro m₂ l hm₂ hl hmem hall
                rw [hdiv, MemMap.clearRange_cons S q (by omega), hval] at hm₂
                refine hQ m₂ (l ++ [pte2pa pte]) hm₂ ?_ (fun b => ?_) fun v hlo hhi => ?_
                · rw [hl, hfree, append_assoc]
                  rfl
                · rw [← hval, S.pageOf_cons hcell (by omega), mem_append, mem_singleton, hmem, hdiv]
                · by_cases hv : v = vpn a
                  · simp [hv, hcell]
                  · have hne : v.val ≠ (vpn a).val := fun heq => hv (Fin.ext heq)
                    have := hall v (by omega) hhi
                    rwa [MemMap.cell_setCell, if_neg fun hc => hv hc.2] at this
      · intro m' hm' hsame
        obtain ⟨rfl, hnone⟩ := hsame rfl
        rw [wp_panic]
        exact hmiss (vpn a) (by omega) (by omega) (by rw [hnone]; simp) _ _ (Or.inl rfl)
    · rw [if_neg hlt, wp_pure]
      refine hQ m [] ?_ rfl (fun b => ?_) (by omega)
      · rwa [MemMap.clearRange_of_le S q (by omega)]
      · exact ⟨fun hb => absurd hb not_mem_nil, fun hb => absurd hb (S.not_pageOf_of_le (by omega) b)⟩

theorem pageAddr_TRAPFRAME : TRAPFRAME = (2 ^ 26 - 2) * 4096 := by decide

/-- The loop of `uvmunmap` has as many rounds as it needs. -/
theorem le_add_rounds (va bound : ℕ) : bound ≤ va + ((bound - va) / PGSIZE + 1) * 4096 := by
  show bound ≤ va + ((bound - va) / 4096 + 1) * 4096
  omega

/-- **Pages of the user are unmapped and freed.** -/
theorem wp_uvmunmap_freed {Q : Unit → Mem → Prop} {pt va n : ℕ} (h : Rep m S) (hr : S.root q = some pt)
    (hal : va % PGSIZE = 0) (hend : va + n * PGSIZE ≤ TRAPFRAME)
    (hmiss : ∀ v : Vpn, va / 4096 ≤ v.val → v.val < va / 4096 + n →
      (∀ pte pg, S.cell q v = some (pte, pg) → pteFlags pte = PTEV) → ∀ w m', UnmapStop w → A w m')
    (hQ : ∀ m' l, Rep m' (S.clearRange q (va / 4096) (va / 4096 + n)) → m'.free = l ++ m.free →
      (∀ b, b ∈ l ↔ S.PageOf q (va / 4096) (va / 4096 + n) b) →
      (∀ v : Vpn, va / 4096 ≤ v.val → v.val < va / 4096 + n → S.cell q v ≠ none) → Q () m') :
    wp (uvmunmap pt va n true) Q A m := by
  have hal' : va % 4096 = 0 := hal
  have hend' : va + n * 4096 ≤ TRAPFRAME := hend
  have htf := pageAddr_TRAPFRAME
  have hbound : add64 va (n * PGSIZE % 2 ^ 64) = va + n * 4096 := by
    have hmul : n * PGSIZE = n * 4096 := rfl
    rw [hmul, Nat.mod_eq_of_lt (by omega), add64_eq (by omega)]
  have hdiv : (va + n * 4096) / 4096 = va / 4096 + n := by omega
  unfold uvmunmap
  rw [if_neg (by simpa using hal)]
  rw [hbound]
  apply wp_unmapLoop h hr hal' (by omega) hend'
  · exact le_add_rounds _ _
  · rwa [hdiv]
  · rwa [hdiv]

theorem wp_uvmunmap {Q : Unit → Mem → Prop} {pt va n : ℕ} (h : Rep m S) (hr : S.root q = some pt)
    (hal : va % PGSIZE = 0) (hend : va + n * PGSIZE ≤ TRAPFRAME)
    (hmiss : ∀ v : Vpn, va / 4096 ≤ v.val → v.val < va / 4096 + n →
      (∀ pte pg, S.cell q v = some (pte, pg) → pteFlags pte = PTEV) → ∀ w m', UnmapStop w → A w m')
    (hQ : ∀ m', Rep m' (S.clearRange q (va / 4096) (va / 4096 + n)) → Q () m') :
    wp (uvmunmap pt va n true) Q A m :=
  wp_uvmunmap_freed h hr hal hend hmiss fun m' _ hm' _ _ _ => hQ m' hm'

/-! ### Unmapping too much -/

/-- `walk` that does not allocate leaves memory alone. -/
theorem wp_walk_same (pt a : ℕ) (m : Mem) :
    wp (walk pt a false) (fun _ m' => m' = m) (fun _ _ => True) m := by
  have hloop : ∀ level pt, wp (walkLoop a false level pt) (fun _ m' => m' = m) (fun _ _ => True) m := by
    intro level
    induction level with
    | zero =>
      intro pt
      rw [walkLoop, wp_pure]
    | succ level ih =>
      intro pt
      rw [walkLoop, wp_bind, wp_get]
      dsimp only
      by_cases hflag : hasFlag (m.page pt (px (level + 1) a)) PTEV = true
      · rw [if_pos hflag]
        exact ih _
      · rw [if_neg hflag, if_pos (by rfl), wp_pure]
  unfold walk
  by_cases hva : MAXVA ≤ a
  · rw [if_pos hva, wp_panic]
    trivial
  · rw [if_neg hva]
    refine wp_seq (hloop 2 pt) ?_
    rintro (_ | t) m' rfl
    · rw [wp_pure]
    · rw [wp_pure]

omit [DecidableEq ρ] [DecidableEq κ] in
/-- One round of the loop of `uvmunmap`, which returns only from an entry: its page is freed. -/
theorem wp_unmapLoop_succ {Q : Unit → Mem → Prop} {pt bound fuel a : ℕ}
    (hend : bound ≤ a → Q () m)
    (h : a < MAXVA → ∀ t i, walk pt a false m = .ok (some (t, i)) m → hasFlag (m.page t i) PTEV = true →
      wp (kfree (pte2pa (m.page t i))) (fun _ m₁ =>
        wp (unmapLoop pt bound true fuel (add64 a PGSIZE)) Q (fun _ _ => True) (m₁.setPte t i 0))
        (fun _ _ => True) m) :
    wp (unmapLoop pt bound true (fuel + 1) a) Q (fun _ _ => True) m := by
  rw [unmapLoop]
  by_cases hlt : a < bound
  swap
  · rw [if_neg hlt, wp_pure]
    exact hend (by omega)
  rw [if_pos hlt, wp_bind]
  by_cases hva : MAXVA ≤ a
  · unfold walk
    rw [if_pos hva, wp_panic]
    trivial
  refine wp_mono (wp_and (wp_result (walk pt a false)) (wp_walk_same pt a m)) ?_ fun _ _ _ => trivial
  rintro (_ | ⟨t, i⟩) m' ⟨hwalk, rfl⟩
  · rw [wp_panic]
    trivial
  rw [wp_bind, wp_get]
  dsimp only
  by_cases hvalid : (!hasFlag (m'.page t i) PTEV) = true
  · rw [if_pos hvalid, wp_bind, wp_panic]
    trivial
  rw [if_neg hvalid]
  by_cases hleaf : pteFlags (m'.page t i) = PTEV
  · rw [if_pos hleaf, wp_bind, wp_panic]
    trivial
  rw [if_neg hleaf, if_pos rfl, wp_bind]
  refine wp_post (h (by omega) t i hwalk (by simpa using hvalid)) fun _ m₁ hm₁ => ?_
  rwa [wp_bind, wp_modify]

omit [DecidableEq ρ] [DecidableEq κ] in
theorem wp_kfree_free (pa : ℕ) : wp (kfree pa) (fun _ m' => m'.free = pa :: m.free) (fun _ _ => True) m := by
  unfold kfree
  rw [wp_bind, wp_get]
  split_ifs
  · rw [wp_panic]
    trivial
  · rw [wp_set]

/-- `walk` finds the entry in the table of the last level. -/
theorem walk_eq_some {pt a t : ℕ} {i : Fin 512} (h : Rep m S) (hr : S.root q = some pt) (hva : a < MAXVA)
    (hwalk : walk pt a false m = .ok (some (t, i)) m) :
    node m (S.root q) (tablePath (vpn a)) = some t ∧ i = px 0 (pageAddr (vpn a)) := by
  have := wp_ok (wp_walk (A := fun _ _ => True) (Q := fun o m' => m' = m → ∀ t i, o = some (t, i) →
    node m (S.root q) (tablePath (vpn a)) = some t ∧ i = px 0 (pageAddr (vpn a))) h hr hva
    (fun m' t _ ht _ hm t' i' heq => by
      rw [Option.some_inj, Prod.mk.injEq] at heq
      rw [← heq.1, ← heq.2, ← hm]
      exact ⟨ht, rfl⟩)
    (fun _ _ _ _ _ _ heq => by cases heq)) hwalk
  exact this rfl t i rfl

omit [DecidableEq ρ] [DecidableEq κ] in
theorem wp_unmapLoop_free {pt bound fuel a b : ℕ} (hb : b ∈ m.free) :
    wp (unmapLoop pt bound true fuel a) (fun _ m' => b ∈ m'.free) (fun _ _ => True) m := by
  induction fuel generalizing m a with
  | zero =>
    rw [unmapLoop, wp_pure]
    exact hb
  | succ fuel ih =>
    refine wp_unmapLoop_succ (fun _ => hb) fun _ t i _ _ => wp_post (wp_kfree_free _) fun _ m₁ hm₁ => ih ?_
    show b ∈ m₁.free
    rw [hm₁]
    exact mem_cons_of_mem _ hb

omit [DecidableEq ρ] [DecidableEq κ] in
/-- **A range that leaves the address space brings the kernel down.** -/
theorem wp_unmapLoop_over {pt bound fuel a : ℕ} (hal : a % 4096 = 0) (ha : a ≤ MAXVA)
    (hbound : MAXVA < bound)
    (hfuel : bound ≤ a + fuel * 4096) :
    wp (unmapLoop pt bound true fuel a) (fun _ _ => False) (fun _ _ => True) m := by
  have hmax : MAXVA = 2 ^ 38 := rfl
  have hpg : PGSIZE = 4096 := rfl
  induction fuel generalizing m a with
  | zero => omega
  | succ fuel ih =>
    refine wp_unmapLoop_succ (fun _ => by omega) fun hva t i _ _ => ?_
    have hnext : add64 a PGSIZE = a + 4096 := by
      rw [add64_eq (by omega), hpg]
    refine wp_mono (wp_result (kfree _)) (fun _ m₁ _ => ?_) fun _ _ _ => trivial
    rw [hnext]
    exact ih (by omega) (by omega) (by omega)

/-- **A range over the trapframe frees its page.** -/
theorem wp_unmapLoop_trapframe {pt bound fuel a : ℕ} (h : Rep m S)
    (hr : S.root q = some pt) (hal : a % 4096 = 0) (ha : a ≤ TRAPFRAME) (hbound : TRAPFRAME < bound)
    (hfuel : bound ≤ a + fuel * 4096) :
    wp (unmapLoop pt bound true fuel a) (fun _ m' => ∃ x, S.cell q (vpn TRAPFRAME) = some x ∧
      pte2pa x.1 ∈ m'.free) (fun _ _ => True) m := by
  have htf : TRAPFRAME = (2 ^ 26 - 2) * 4096 := by decide
  have hmax : MAXVA = 2 ^ 38 := rfl
  have hpg : PGSIZE = 4096 := rfl
  induction fuel generalizing m S a with
  | zero => omega
  | succ fuel ih =>
    refine wp_unmapLoop_succ (fun _ => by omega) fun hva t i hwalk hvalid => ?_
    have hnext : add64 a PGSIZE = a + 4096 := by
      rw [add64_eq (by omega), hpg]
    rw [hnext]
    obtain ⟨htable, rfl⟩ := walk_eq_some h hr hva hwalk
    have hentry := Rep.entry_of_table htable
    cases hcell : S.cell q (vpn a) with
    | none =>
      have hinv := h.entry_of_none hcell
      rw [hentry, hvalid] at hinv
      cases hinv
    | some x =>
    by_cases heq : a = TRAPFRAME
    · subst heq
      rw [← hentry, (h.entry_of_cell hcell).1]
      refine wp_post (wp_kfree_free _) fun _ m₁ hm₁ => ?_
      have hin : pte2pa x.1 ∈ m₁.free := hm₁ ▸ mem_cons_self
      exact wp_post (wp_unmapLoop_free hin) fun _ _ hfree => ⟨x, hcell, hfree⟩
    · have hval := vpn_val hva
      have hres : ∀ v : Vpn, Reserved v → v ≠ vpn a := by
        rintro v (rfl | rfl) hv
        all_goals
          have := congrArg Fin.val hv
          rw [hval] at this
          norm_num at this
          omega
      have hframe : (S.setCell q (vpn a) none).cell q (vpn TRAPFRAME) = S.cell q (vpn TRAPFRAME) := by
        rw [MemMap.cell_setCell, if_neg fun hv => hres _ (Or.inr (by decide)) hv.2]
      have hstep := wp_freeLeaf (A := fun _ _ => True) (Q :=
        fun _ => wp (unmapLoop pt bound true fuel (a + 4096))
        (fun _ m' => ∃ x, S.cell q (vpn TRAPFRAME) = some x ∧ pte2pa x.1 ∈ m'.free)
        fun _ _ => True) h htable
        (fun hv => hres _ hv rfl) hcell fun m₁ hm₁ _ => by
          rw [← hframe]
          exact ih hm₁ hr (by omega) (by omega) (by omega)
      rw [← hentry, (h.entry_of_cell hcell).1]
      rw [wp_bind] at hstep
      exact wp_post hstep fun _ _ hs => by rwa [wp_modify] at hs

theorem wp_uvmunmap_trapframe {pt va n : ℕ} (h : Rep m S) (hr : S.root q = some pt)
    (hva : va ≤ TRAPFRAME) (hend : TRAPFRAME < va + n * PGSIZE) (hn : n < 2 ^ 32) :
    wp (uvmunmap pt va n true) (fun _ m' => ∃ x, S.cell q (vpn TRAPFRAME) = some x ∧ pte2pa x.1 ∈ m'.free)
      (fun _ _ => True) m := by
  have htf := pageAddr_TRAPFRAME
  have hmul : n * PGSIZE = n * 4096 := rfl
  have hbound : add64 va (n * PGSIZE % 2 ^ 64) = va + n * 4096 := by
    rw [hmul, Nat.mod_eq_of_lt (by omega), add64_eq (by omega)]
  unfold uvmunmap
  by_cases hal : va % PGSIZE = 0
  · rw [if_neg (by simpa using hal)]
    dsimp only
    rw [hbound]
    exact wp_unmapLoop_trapframe h hr hal hva (by omega) (le_add_rounds _ _)
  · rw [if_pos hal, wp_panic]
    trivial

omit [DecidableEq ρ] [DecidableEq κ] in
/-- A count of pages that wraps around: nothing is unmapped if the range ends below its start without
a wrap, and otherwise the kernel comes down. -/
theorem uvmunmap_wrapped {pt va k : ℕ} (hva : va < MAXVA) (hk : k ≤ 2 ^ 20) (hal : va % PGSIZE = 0) :
    (k * PGSIZE ≤ va → uvmunmap pt va ((2 ^ 64 - k) % 2 ^ 64) true m = .ok () m) ∧ (va < k * PGSIZE →
      wp (uvmunmap pt va ((2 ^ 64 - k) % 2 ^ 64) true) (fun _ _ => False) (fun _ _ => True) m) := by
  have hmax : MAXVA = 2 ^ 38 := rfl
  have hpg : PGSIZE = 4096 := rfl
  have hmod : (2 ^ 64 - k) % 2 ^ 64 * PGSIZE % 2 ^ 64 = (2 ^ 64 - k * 4096) % 2 ^ 64 := by
    rw [hpg]
    omega
  unfold uvmunmap
  rw [if_neg (by simpa using hal), hmod, hpg]
  dsimp only
  constructor
  · intro hle
    have hbound : add64 va ((2 ^ 64 - k * 4096) % 2 ^ 64) = va - k * 4096 := by
      unfold add64
      omega
    rw [hbound, unmapLoop, if_neg (by omega)]
    rfl
  · intro hlt
    have hbound : add64 va ((2 ^ 64 - k * 4096) % 2 ^ 64) = va + (2 ^ 64 - k * 4096) := by
      rw [Nat.mod_eq_of_lt (by omega), add64_eq (by omega)]
    rw [hbound]
    exact wp_unmapLoop_over (by rwa [hpg] at hal) hva.le (by omega) (le_add_rounds _ _)

/-- The trampoline or the trapframe is unmapped; its page stays. -/
theorem wp_unmapReserved {Q : Unit → Mem → Prop} {pt va : ℕ} {x : BitVec 64 × Page} (h : Rep m S)
    (hr : S.root q = some pt) (hva : va < MAXVA) (hal : va % PGSIZE = 0) (hv : Reserved (vpn va))
    (hc : S.cell q (vpn va) = some x) (hleaf : pteFlags x.1 ≠ PTEV)
    (hQ : ∀ m', Rep m' (S.setCell q (vpn va) none) → Q () m') : wp (uvmunmap pt va 1 false) Q A m := by
  have hmax : MAXVA = 2 ^ 38 := rfl
  have hpg : PGSIZE = 4096 := rfl
  have hbound : add64 va (1 * PGSIZE % 2 ^ 64) = va + 4096 := by
    rw [show 1 * PGSIZE % 2 ^ 64 = 4096 from rfl, add64_eq (by omega)]
  have hfuel : (va + 4096 - va) / PGSIZE + 1 = 2 := by
    rw [Nat.add_sub_cancel_left]
    rfl
  unfold uvmunmap
  rw [if_neg (by simpa using hal)]
  dsimp only
  rw [hbound, hfuel, unmapLoop, if_pos (by omega), wp_bind]
  apply wp_walk h hr hva
  · intro m' t hm' ht hsame
    obtain rfl := hsame rfl
    obtain ⟨he, hflag⟩ := h.entry_of_cell hc
    rw [Rep.entry_of_table ht] at he
    rw [wp_bind, wp_get, he, if_neg (by rw [hflag]; decide), if_neg hleaf, if_neg (by decide), wp_bind,
      wp_modify, unmapLoop, if_neg, wp_pure]
    · have hset := h.setReserved ht hv (hasFlag_zero PTEU)
      rw [leafOf, if_neg (by simp)] at hset
      exact hQ _ hset
    · rw [add64_eq (by omega)]
      omega
  · intro m' hm' hsame
    simp [(hsame rfl).2] at hc

/-! ### New tables and sizes -/

omit [DecidableEq ρ] [DecidableEq κ] in
/-- Memory before the first page table: the free list is all there is. -/
theorem rep_unused (hk : 0 < m.kend) (hnodup : m.free.Nodup) (hok : ∀ a ∈ m.free, PageOk m.kend a) :
    Rep m (⟨fun _ => none, fun _ _ => none, fun _ => none⟩ : MemMap ρ κ) where
  kend := hk
  pool := by
    have hnone : ∀ x : Place ρ κ,
        pageIn m (⟨fun _ => none, fun _ _ => none, fun _ => none⟩ : MemMap ρ κ) x = none := by
      rintro (⟨q, path⟩ | k)
      · show (if Counted path then node m none path else none) = none
        rw [node, descendant_none, ite_self]
      · rfl
    refine ⟨hnodup, hok, fun x a h => ?_, fun x y a h => ?_, fun x a h => ?_⟩
    · simp [hnone] at h
    · simp [hnone] at h
    · simp [hnone] at h
  inner := by
    intro q path a i _ h
    simp [node, descendant_none] at h
  high := by
    intro q a i h
    cases h
  hidden := by
    intro q v pte pg _ h
    cases h
  cell := by
    intro q v
    unfold cellAt entry node
    rw [descendant_none]
    exact if_neg (by simp)
  box := by
    intro k a pg h
    cases h

/-- A page table is begun, if there is a page for it. -/
theorem wp_uvmcreate {Q : ℕ → Mem → Prop} (h : Rep m S) (hq : S.root q = none)
    (h0 : ∀ m', Rep m' S → Q 0 m')
    (h1 : ∀ r m', r ≠ 0 → Rep m' (S.setRoot q (some r)) → Q r m') : wp uvmcreate Q A m := by
  unfold uvmcreate
  rw [wp_bind]
  apply wp_kalloc h
  · intro _
    rw [if_pos rfl, wp_pure]
    exact h0 m h
  · intro r m₁ hr₁ _
    rw [if_neg hr₁.ne_zero, wp_bind]
    apply wp_memset hr₁
    intro m₂ hr₂ _ hzero
    rw [wp_pure]
    exact h1 r m₂ hr₂.ne_zero (hr₂.root hzero hq)

theorem pgRoundUp_eq {sz : ℕ} (h : sz + 4095 < 2 ^ 64) : pgRoundUp sz = (sz + 4095) / 4096 * 4096 := by
  unfold pgRoundUp
  rw [add64_eq (by exact h)]
  rfl

/-- The number of pages of a size. -/
def pages (sz : ℕ) : ℕ := (sz + 4095) / 4096

theorem sext64_ofNat {n : ℕ} (h : n < 2 ^ 31) : sext64 (BitVec.ofNat 32 n) = n := by
  have hmsb : (BitVec.ofNat 32 n).msb = false := by
    rw [BitVec.msb_eq_false_iff_two_mul_lt, BitVec.toNat_ofNat]
    omega
  unfold sext64
  rw [BitVec.signExtend_eq_setWidth_of_msb_false hmsb, BitVec.toNat_setWidth, BitVec.toNat_ofNat]
  omega

/-- **The heap shrinks.** -/
theorem wp_uvmdealloc {Q : ℕ → Mem → Prop} {pt oldsz newsz : ℕ} (h : Rep m S) (hr : S.root q = some pt)
    (hold : oldsz ≤ TRAPFRAME)
    (hmiss : ∀ v : Vpn, pages newsz ≤ v.val → v.val < pages oldsz →
      (∀ pte pg, S.cell q v = some (pte, pg) → pteFlags pte = PTEV) → ∀ w m', UnmapStop w → A w m')
    (hQ : ∀ m', Rep m' (S.clearRange q (pages newsz) (pages oldsz)) →
      Q (if oldsz ≤ newsz then oldsz else newsz) m') : wp (uvmdealloc pt oldsz newsz) Q A m := by
  have htf := pageAddr_TRAPFRAME
  unfold uvmdealloc
  by_cases hle : oldsz ≤ newsz
  · rw [if_pos hle] at hQ ⊢
    rw [wp_pure]
    apply hQ
    rwa [MemMap.clearRange_of_le S q (by unfold pages; omega)]
  · rw [if_neg hle] at hQ ⊢
    have hup : pgRoundUp oldsz = _ := pgRoundUp_eq (by omega)
    have hup' : pgRoundUp newsz = _ := pgRoundUp_eq (by omega)
    have hpo : pages oldsz = (oldsz + 4095) / 4096 := rfl
    have hpn : pages newsz = (newsz + 4095) / 4096 := rfl
    by_cases hlt : pgRoundUp newsz < pgRoundUp oldsz
    · have hn : (pgRoundUp oldsz - pgRoundUp newsz) / PGSIZE = pages oldsz - pages newsz := by
        rw [hup, hup']
        show _ / 4096 = _
        omega
      have hva : pgRoundUp newsz / 4096 = pages newsz := by
        rw [hup']
        omega
      have hsum : pgRoundUp newsz / 4096 + (pages oldsz - pages newsz) = pages oldsz := by
        omega
      rw [if_pos hlt]
      dsimp only
      rw [hn, sext64_ofNat (show pages oldsz - pages newsz < 2 ^ 31 by omega), wp_bind]
      apply wp_uvmunmap h hr
      · rw [hup']
        exact Nat.mul_mod_left _ _
      · show _ + _ * 4096 ≤ _
        omega
      · rwa [hsum, hva]
      · intro m' hm'
        rw [hsum, hva] at hm'
        rw [wp_pure]
        exact hQ m' hm'
    · rw [if_neg hlt, wp_pure]
      apply hQ
      rwa [MemMap.clearRange_of_le S q (by omega)]

theorem not_reserved_of_lt {v : Vpn} (h : v.val < 2 ^ 26 - 2) : ¬ Reserved v := by
  rintro (hc | hc)
  · have := congrArg Fin.val hc
    dsimp only at this
    omega
  · have := congrArg Fin.val hc
    dsimp only at this
    omega

omit [DecidableEq ρ] [DecidableEq κ] in
/-- **Memory bounds the heap**: different virtual pages take different physical pages. -/
theorem Rep.heap_bound (h : Rep m S) {n : ℕ} (hfull : ∀ v : Vpn, v.val < n → S.cell q v ≠ none) :
    n ≤ PHYSTOP / 4096 := by
  have hsmall : ∀ n, n ≤ 2 ^ 26 - 2 → (∀ v : Vpn, v.val < n → S.cell q v ≠ none) →
      n ≤ PHYSTOP / 4096 := by
    intro n hn hfull
    have hlt : ∀ i : Fin n, i.val < NVPN := fun i => i.isLt.trans_le (hn.trans (by decide))
    have hpage : ∀ i : Fin n, ∃ a, pageIn m S (.inl (q, pagePath ⟨i.val, hlt i⟩)) = some a := by
      intro i
      have hres : ¬ Reserved ⟨i.val, hlt i⟩ := not_reserved_of_lt (i.isLt.trans_le hn)
      obtain ⟨⟨pte, pg⟩, hc⟩ := Option.ne_none_iff_exists'.1 (hfull ⟨i.val, hlt i⟩ i.isLt)
      exact ⟨_, (h.pageIn_cell hres hc).1⟩
    choose g hg using hpage
    have hok := fun i => h.pool.ok_own _ _ (hg i)
    have hlow : ∀ i, g i / 4096 < PHYSTOP / 4096 := by
      intro i
      have h1 : g i % 4096 = 0 := (hok i).1
      have h2 : g i < PHYSTOP := (hok i).2.2
      have h3 : PHYSTOP = 557056 * 4096 := by decide
      omega
    have hinj : Injective fun i => (⟨g i / 4096, hlow i⟩ : Fin (PHYSTOP / 4096)) := by
      intro i j hij
      have hdiv : g i / 4096 = g j / 4096 := congrArg Fin.val hij
      have h1 : g i % 4096 = 0 := (hok i).1
      have h2 : g j % 4096 = 0 := (hok j).1
      have heq : g i = g j := by omega
      have hplace := h.pool.inj _ _ _ (hg i) (heq ▸ hg j)
      have hv := pagePath_injective (Prod.mk.inj (Sum.inl.inj hplace)).2
      exact Fin.ext (Fin.mk.inj hv)
    simpa using Fintype.card_le_of_injective _ hinj
  by_cases hn : n ≤ 2 ^ 26 - 2
  · exact hsmall n hn hfull
  · have := hsmall (2 ^ 26 - 2) le_rfl fun v hv => hfull v (by omega)
    exact absurd this (by decide)

/-- The virtual pages from `lo` to before `hi` have been mapped to zeroed pages. -/
structure Grown (S S' : MemMap ρ κ) (q : ρ) (lo hi : ℕ) (perm : BitVec 64) : Prop where
  root : S'.root = S.root
  box : S'.box = S.box
  frame : ∀ q' v, ¬ (q' = q ∧ lo ≤ v.val ∧ v.val < hi) → S'.cell q' v = S.cell q' v
  new : ∀ v : Vpn, lo ≤ v.val → v.val < hi →
    ∃ pte, S'.cell q v = some (pte, Words.fill 0) ∧ pteFlags pte = perm ||| PTEV

omit [DecidableEq ρ] [DecidableEq κ] in
theorem Grown.refl (S : MemMap ρ κ) (q : ρ) {lo hi : ℕ} (h : hi ≤ lo) (perm : BitVec 64) :
    Grown S S q lo hi perm where
  root := rfl
  box := rfl
  frame _ _ _ := rfl
  new v hlo hhi := absurd hhi (by omega)

omit [DecidableEq κ] in
theorem Grown.cons {S' : MemMap ρ κ} {lo hi : ℕ} {perm pte : BitVec 64} {v : Vpn} (hv : v.val = lo)
    (hlt : lo < hi) (hf : pteFlags pte = perm ||| PTEV)
    (h : Grown (S.setCell q v (some (pte, Words.fill 0))) S' q (lo + 1) hi perm) :
    Grown S S' q lo hi perm where
  root := h.root
  box := h.box
  frame q' w hout := by
    rw [h.frame q' w (fun hc => hout ⟨hc.1, by omega, hc.2.2⟩), MemMap.cell_setCell, if_neg]
    rintro ⟨rfl, rfl⟩
    exact hout ⟨rfl, by omega, by omega⟩
  new w hlo hhi := by
    by_cases hw : w = v
    · refine ⟨pte, ?_, hf⟩
      rw [h.frame q w (by rw [hw]; omega), MemMap.cell_setCell, if_pos ⟨rfl, hw⟩]
    · have hne : w.val ≠ v.val := fun he => hw (Fin.ext he)
      exact h.new w (by omega) hhi

theorem pteFlags_of_lt {p : BitVec 64} (h : p.toNat < 1024) : pteFlags p = p := by
  apply BitVec.eq_of_toNat_eq
  have hmask : (0x3FF#64).toNat = 2 ^ 10 - 1 := rfl
  unfold pteFlags
  rw [BitVec.toNat_and, hmask, Nat.and_two_pow_sub_one_eq_mod]
  omega

theorem pteFlags_mk (a : ℕ) {perm : BitVec 64} (hp : perm.toNat < 1024) :
    pteFlags (pa2pte a ||| perm ||| PTEV) = perm ||| PTEV := by
  rw [pteFlags_or, pteFlags_or, pteFlags_pa2pte, pteFlags_of_lt hp, pteFlags_of_lt (by decide)]
  simp

/-- The permissions of a page of the heap. -/
abbrev heapPerm (xperm : BitVec 32) : BitVec 64 := (0x12#32 ||| xperm).signExtend 64

/-- The loop of `uvmalloc`, with the pages below `a` mapped. -/
theorem wp_allocLoop {Q : ℕ → Mem → Prop} {pt old new fuel a : ℕ} {xperm : BitVec 32} (h : Rep m S)
    (hr : S.root q = some pt) (hk : S.box k = none) (hal : a % 4096 = 0) (hold : old % 4096 = 0)
    (hle : old ≤ a) (hperm : (heapPerm xperm).toNat < 1024) (hx : heapPerm xperm ||| PTEV ≠ PTEV)
    (hfull : ∀ v : Vpn, v.val < a / 4096 → S.cell q v ≠ none)
    (hleaf : ∀ v : Vpn, old / 4096 ≤ v.val → v.val < a / 4096 →
      ∃ pte pg, S.cell q v = some (pte, pg) ∧ pteFlags pte ≠ PTEV)
    (hfuel : new ≤ a + fuel * 4096)
    (hremap : ∀ v : Vpn, a / 4096 ≤ v.val → v.val < pages new → S.cell q v ≠ none →
      ∀ m', A (.panic "mappages: remap") m')
    (h0 : ∀ m', Rep m' (S.clearRange q (old / 4096) (a / 4096)) → Q 0 m')
    (h1 : ∀ m' S', Rep m' S' → Grown S S' q (a / 4096) (pages new) (heapPerm xperm) → Q new m') :
    wp (allocLoop pt old new xperm fuel a) Q A m := by
  have hpg : PGSIZE = 4096 := rfl
  induction fuel generalizing m S a with
  | zero =>
    rw [allocLoop, wp_pure]
    exact h1 m S h (Grown.refl S q (by unfold pages; omega) _)
  | succ fuel ih =>
    have hbound := h.heap_bound hfull
    have hphys : PHYSTOP / 4096 = 557056 := by decide
    have htf := pageAddr_TRAPFRAME
    have hmax : MAXVA = 2 ^ 38 := rfl
    have hval : (vpn a).val = a / 4096 := vpn_val (by omega)
    have hpo : pages old = old / 4096 := by unfold pages; omega
    have hpa : pages a = a / 4096 := by unfold pages; omega
    have hpn : pages new = (new + 4095) / 4096 := rfl
    rw [allocLoop]
    by_cases hlt : a < new
    · -- giving up takes back what was mapped so far
      have hgive : ∀ m', Rep m' S → wp (uvmdealloc pt a old >>= fun _ => pure 0) Q A m' := by
        intro m' hm'
        rw [wp_bind]
        apply wp_uvmdealloc hm' hr (by omega)
        · intro v hlo hhi hv
          rw [hpo] at hlo
          rw [hpa] at hhi
          obtain ⟨pte, pg, hc, hne⟩ := hleaf v hlo hhi
          exact absurd (hv pte pg hc) hne
        · intro m'' hm''
          rw [hpo, hpa] at hm''
          rw [wp_pure]
          exact h0 m'' hm''
      rw [if_pos hlt, wp_bind]
      apply wp_kalloc h
      · intro _
        rw [if_pos rfl]
        exact hgive m h
      · intro mem m₁ hm₁ _
        rw [if_neg hm₁.ne_zero, wp_bind]
        apply wp_memset hm₁
        intro m₂ hm₂ _ hzero
        have hbox := hm₂.box k
        rw [hzero] at hbox
        rw [wp_bind]
        apply wp_mappages (k := k) (q := q) hbox hr (by omega) (by rwa [hpg])
          (not_reserved_of_lt (by omega)) (MemMap.box_setBox_self _ _ _) hperm
        · intro hne m' _
          exact hremap (vpn a) (by omega) (by omega) hne m'
        · intro hnone m₃ hm₃
          rw [MemMap.setBox_setBox_none S hk] at hm₃
          have hnext : add64 a PGSIZE = a + 4096 := by
            rw [hpg, add64_eq (by omega)]
          have hdiv : (a + 4096) / 4096 = a / 4096 + 1 := by omega
          have hflags : pteFlags (pa2pte mem ||| heapPerm xperm ||| PTEV) = _ :=
            pteFlags_mk mem hperm
          rw [if_neg (by decide), hnext]
          apply ih hm₃ hr hk (by omega) (by omega)
          · intro v hv
            rw [MemMap.cell_setCell]
            by_cases hva : v = vpn a
            · rw [if_pos ⟨rfl, hva⟩]
              simp
            · have hne : v.val ≠ (vpn a).val := fun he => hva (Fin.ext he)
              rw [if_neg (fun hc => hva hc.2)]
              exact hfull v (by omega)
          · intro v hlo hhi
            rw [MemMap.cell_setCell]
            by_cases hva : v = vpn a
            · rw [if_pos ⟨rfl, hva⟩]
              exact ⟨_, _, rfl, by rwa [hflags]⟩
            · have hne : v.val ≠ (vpn a).val := fun he => hva (Fin.ext he)
              rw [if_neg (fun hc => hva hc.2)]
              exact hleaf v hlo (by omega)
          · omega
          · intro v hlo hhi hne
            have hva : v ≠ vpn a := by
              rintro rfl
              omega
            rw [MemMap.cell_setCell, if_neg (fun hc => hva hc.2)] at hne
            exact hremap v (by omega) hhi hne
          · intro m' hm'
            apply h0
            rwa [hdiv, MemMap.clearRange_setCell S q hnone (by omega) hval] at hm'
          · intro m' S' hm' hg
            rw [hdiv] at hg
            exact h1 m' S' hm' (hg.cons hval (by omega) hflags)
        · intro m₃ hm₃
          have hhold := hm₃.unbox (MemMap.box_setBox_self _ _ _)
          rw [MemMap.setBox_setBox_none S hk] at hhold
          rw [if_pos (by decide), wp_bind]
          apply wp_kfree hhold
          intro m₄ hm₄
          exact hgive m₄ hm₄
    · rw [if_neg hlt, wp_pure]
      exact h1 m S h (Grown.refl S q (by omega) _)

/-- **The heap grows** by zeroed pages, or stays as it was. -/
theorem wp_uvmalloc {Q : ℕ → Mem → Prop} {pt old new : ℕ} {xperm : BitVec 32} (h : Rep m S)
    (hr : S.root q = some pt) (hk : S.box k = none) (hperm : (heapPerm xperm).toNat < 1024)
    (hx : heapPerm xperm ||| PTEV ≠ PTEV) (hsz : old < 2 ^ 63)
    (hfull : ∀ v : Vpn, v.val < pages old → S.cell q v ≠ none)
    (hremap : ∀ v : Vpn, pages old ≤ v.val → v.val < pages new → S.cell q v ≠ none →
      ∀ m', A (.panic "mappages: remap") m')
    (hsame : new < old → Q old m) (h0 : ∀ m', Rep m' S → Q 0 m')
    (h1 : old ≤ new → ∀ m' S', Rep m' S' → Grown S S' q (pages old) (pages new) (heapPerm xperm) →
      Q new m') : wp (uvmalloc pt old new xperm) Q A m := by
  unfold uvmalloc
  by_cases hlt : new < old
  · rw [if_pos hlt, wp_pure]
    exact hsame hlt
  · have hup : pgRoundUp old = _ := pgRoundUp_eq (by omega)
    have hpo : pgRoundUp old / 4096 = pages old := by
      rw [hup]
      unfold pages
      omega
    rw [if_neg hlt]
    apply wp_allocLoop (k := k) h hr hk (by omega) (by omega) le_rfl hperm hx
    · rwa [hpo]
    · intro v hlo hhi
      omega
    · show new ≤ _ + ((new - _) / 4096 + 1) * 4096
      omega
    · rwa [hpo]
    · intro m' hm'
      rw [MemMap.clearRange_of_le S q le_rfl] at hm'
      exact h0 m' hm'
    · rw [hpo]
      exact h1 (by omega)

end Xv6
