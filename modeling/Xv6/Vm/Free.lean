import Xv6.Vm.Space

/-!
# Giving up a page table

`freewalk` visits the page-table pages of a tree one by one and frees each when it has freed those below
it; in between, an entry still points to a page that is free already.

* `Tree m a h`: a tree of page-table pages of height `h` without leaves;
* `wp_freewalk`: **all pages of the tree are freed, and no others are touched**;
* `wp_uvmfree`: a table that maps only the heap is given up.
-/

namespace Xv6

open Stateful Function List

attribute [local irreducible] wp

/-! ### Trees of page-table pages -/

/-- The pages of the tree of height `h` at `a`. -/
def InTree (m : Mem) (a h b : ℕ) : Prop := ∃ path, path.length ≤ h ∧ node m (some a) path = some b

/-- A tree of page-table pages of height `h`, each in use and at the end of one path, that maps
nothing. -/
structure Tree (m : Mem) (a h : ℕ) : Prop where
  ok : ∀ b, InTree m a h b → PageOk m.kend b ∧ b ∉ m.free
  inj : ∀ p p' b, p.length ≤ h → p'.length ≤ h → node m (some a) p = some b →
    node m (some a) p' = some b → p = p'
  inner : ∀ p b i, p.length < h → node m (some a) p = some b → hasFlag (m.page b i) PTEV = true →
    m.page b i &&& (PTER ||| PTEW ||| PTEX) = 0
  bare : ∀ p b i, p.length = h → node m (some a) p = some b → hasFlag (m.page b i) PTEV = false

variable {m m' : Mem} {a c h : ℕ} {i : Fin NPTE}

theorem inTree_self (m : Mem) (a h : ℕ) : InTree m a h a := ⟨[], Nat.zero_le h, rfl⟩

theorem node_cons (hk : kids m a i = some c) (path : List (Fin NPTE)) :
    node m (some a) (i :: path) = node m (some c) path := by
  unfold node
  rw [descendant_cons, Option.bind_some, hk]

theorem InTree.below {b : ℕ} (hk : kids m a i = some c) (hb : InTree m c h b) : InTree m a (h + 1) b := by
  obtain ⟨path, hlen, hnode⟩ := hb
  exact ⟨i :: path, by simpa using hlen, (node_cons hk path).trans hnode⟩

/-- A page of a tree is its root or below an entry of it. -/
theorem InTree.cases {b : ℕ} (hb : InTree m a (h + 1) b) :
    b = a ∨ ∃ i c, kids m a i = some c ∧ InTree m c h b := by
  obtain ⟨path, hlen, hnode⟩ := hb
  cases path with
  | nil => exact Or.inl (Option.some_inj.1 hnode).symm
  | cons i path =>
    right
    cases hk : kids m a i with
    | none =>
      unfold node at hnode
      rw [descendant_cons, Option.bind_some, hk, descendant_none] at hnode
      cases hnode
    | some c =>
      rw [node_cons hk] at hnode
      exact ⟨i, c, hk, path, by simpa using hlen, hnode⟩

namespace Tree

theorem child (t : Tree m a (h + 1)) (hk : kids m a i = some c) : Tree m c h where
  ok := fun b hb => t.ok b (hb.below hk)
  inj := by
    intro p p' b hp hp' h1 h2
    have := t.inj (i :: p) (i :: p') b (by simpa using hp) (by simpa using hp')
      ((node_cons hk p).trans h1) ((node_cons hk p').trans h2)
    exact (List.cons.inj this).2
  inner := fun p b j hp h1 => t.inner (i :: p) b j (by simpa using hp) ((node_cons hk p).trans h1)
  bare := fun p b j hp h1 => t.bare (i :: p) b j (by simpa using hp) ((node_cons hk p).trans h1)

/-- A page is below one entry only, and the root is below none. -/
theorem below_inj (t : Tree m a (h + 1)) {j : Fin NPTE} {c' b : ℕ} (hk : kids m a i = some c)
    (hk' : kids m a j = some c') (hb : InTree m c h b) (hb' : InTree m c' h b) : i = j := by
  obtain ⟨p, hp, h1⟩ := hb
  obtain ⟨p', hp', h2⟩ := hb'
  have := t.inj (i :: p) (j :: p') b (by simpa using hp) (by simpa using hp')
    ((node_cons hk p).trans h1) ((node_cons hk' p').trans h2)
  exact (List.cons.inj this).1

theorem root_not_below (t : Tree m a (h + 1)) (hk : kids m a i = some c) : ¬ InTree m c h a := by
  rintro ⟨p, hp, h1⟩
  have := t.inj [] (i :: p) a (by simp) (by simpa using hp) rfl ((node_cons hk p).trans h1)
  cases this

theorem node_eq (hpage : ∀ b, InTree m a h b → m'.page b = m.page b) (path : List (Fin NPTE))
    (hlen : path.length ≤ h) : node m' (some a) path = node m (some a) path := by
  apply descendant_congr (D := h) _ path hlen
  intro p b hp hb j
  unfold kids
  rw [hpage b ⟨p, hp.le, hb⟩]

/-- A tree is as it was when its pages are, and are not free. -/
theorem congr (t : Tree m a h) (hkend : m'.kend = m.kend)
    (hpage : ∀ b, InTree m a h b → m'.page b = m.page b) (hfree : ∀ b, InTree m a h b → b ∉ m'.free) :
    Tree m' a h := by
  have hnode := node_eq hpage
  have hin : ∀ b, InTree m' a h b → InTree m a h b := by
    rintro b ⟨path, hlen, hb⟩
    exact ⟨path, hlen, (hnode path hlen).symm.trans hb⟩
  constructor
  · intro b hb
    rw [hkend]
    exact ⟨(t.ok b (hin b hb)).1, hfree b (hin b hb)⟩
  · intro p p' b hp hp' h1 h2
    exact t.inj p p' b hp hp' ((hnode p hp).symm.trans h1) ((hnode p' hp').symm.trans h2)
  · intro p b i hp hb
    rw [hnode p hp.le] at hb
    rw [hpage b ⟨p, hp.le, hb⟩]
    exact t.inner p b i hp hb
  · intro p b i hp hb
    rw [hnode p hp.le] at hb
    rw [hpage b ⟨p, hp.le, hb⟩]
    exact t.bare p b i hp hb

end Tree

/-- The pages `T` have been freed, and the others are as they were. -/
structure Released (m m' : Mem) (T : ℕ → Prop) : Prop where
  kend : m'.kend = m.kend
  page : ∀ b, ¬ T b → m'.page b = m.page b
  nodup : m'.free.Nodup
  free : ∀ b, b ∈ m'.free ↔ b ∈ m.free ∨ T b

variable {A : Stop → Mem → Prop}

theorem wp_kfree_page {Q : Unit → Mem → Prop} {b : ℕ} (hok : PageOk m.kend b) (hb : b ∉ m.free)
    (hnodup : m.free.Nodup) (hQ : ∀ m', Released m m' (· = b) → Q () m') : wp (kfree b) Q A m := by
  obtain ⟨h1, h2, h3⟩ := hok
  unfold kfree
  rw [wp_bind, wp_get, if_neg (by omega), wp_set]
  apply hQ
  refine ⟨rfl, fun b' hb' => ?_, ?_, fun b' => ?_⟩
  · exact update_of_ne hb' _ _
  · exact nodup_cons.2 ⟨hb, hnodup⟩
  · show b' ∈ b :: m.free ↔ _
    rw [mem_cons]
    exact Or.comm

/-- What is below the entries before `i`. -/
def Below (m : Mem) (a h i b : ℕ) : Prop := ∃ j c, j.val < i ∧ kids m a j = some c ∧ InTree m c h b

/-- The entries before `i` have been visited: what was below them is freed, the later ones are as they
were. -/
structure Visited (m m' : Mem) (a h i : ℕ) : Prop where
  kend : m'.kend = m.kend
  page : ∀ b, b ≠ a → ¬ Below m a h i b → m'.page b = m.page b
  entry : ∀ j : Fin NPTE, i ≤ j.val → m'.page a j = m.page a j
  nodup : m'.free.Nodup
  free : ∀ b, b ∈ m'.free ↔ b ∈ m.free ∨ Below m a h i b

theorem Visited.refl (m : Mem) (a h : ℕ) (hnodup : m.free.Nodup) : Visited m m a h 0 := by
  refine ⟨rfl, fun _ _ _ => rfl, fun _ _ => rfl, hnodup, fun b => ?_⟩
  constructor
  · exact Or.inl
  · rintro (hb | ⟨j, c, hj, -⟩)
    · exact hb
    · exact absurd hj (Nat.not_lt_zero _)

theorem Visited.skip (v : Visited m m' a h i.val) (hk : kids m a i = none) :
    Visited m m' a h (i.val + 1) := by
  have hbelow : ∀ b, Below m a h (i.val + 1) b ↔ Below m a h i.val b := by
    intro b
    constructor
    · rintro ⟨j, c, hj, hkj, hb⟩
      refine ⟨j, c, ?_, hkj, hb⟩
      have hne : j ≠ i := by
        rintro rfl
        rw [hk] at hkj
        cases hkj
      have := Fin.val_ne_of_ne hne
      omega
    · rintro ⟨j, c, hj, hkj, hb⟩
      exact ⟨j, c, by omega, hkj, hb⟩
  refine ⟨v.kend, fun b hb hnot => ?_, fun j hj => v.entry j (by omega), v.nodup, fun b => ?_⟩
  · exact v.page b hb fun hc => hnot ((hbelow b).2 hc)
  · rw [hbelow]
    exact v.free b

/-- An entry is followed, what is below it freed, and the entry cleared. -/
theorem Visited.follow {m'' : Mem} (t : Tree m a (h + 1)) (v : Visited m m' a h i.val)
    (hk : kids m a i = some c) (hr : Released m' m'' (InTree m' c h))
    (hin : ∀ b, InTree m' c h b ↔ InTree m c h b) : Visited m (m''.setPte a i 0) a h (i.val + 1) := by
  have hbelow : ∀ b, Below m a h (i.val + 1) b ↔ Below m a h i.val b ∨ InTree m c h b := by
    intro b
    constructor
    · rintro ⟨j, c', hj, hkj, hb⟩
      by_cases hji : j = i
      · subst hji
        rw [hk, Option.some_inj] at hkj
        exact Or.inr (hkj ▸ hb)
      · have := Fin.val_ne_of_ne hji
        exact Or.inl ⟨j, c', by omega, hkj, hb⟩
    · rintro (⟨j, c', hj, hkj, hb⟩ | hb)
      · exact ⟨j, c', by omega, hkj, hb⟩
      · exact ⟨i, c, by omega, hk, hb⟩
  have hroot : ¬ InTree m' c h a := by
    rw [hin]
    exact t.root_not_below hk
  refine ⟨hr.kend.trans v.kend, fun b hb hnot => ?_, fun j hj => ?_, hr.nodup, fun b => ?_⟩
  · rw [hbelow, not_or] at hnot
    rw [Rep.page_setPte_of_ne m'' hb, hr.page b (fun hc => hnot.2 ((hin b).1 hc)), v.page b hb hnot.1]
  · have hne : j ≠ i := by
      rintro rfl
      omega
    rw [Rep.page_setPte_self, if_neg hne, hr.page a hroot, v.entry j (by omega)]
  · show b ∈ m''.free ↔ _
    rw [hr.free, v.free, hbelow, hin]
    exact or_assoc

/-- The loop of `freewalk` from the entry `i` on. -/
theorem wp_freeEntries {Q : Unit → Mem → Prop} {recur : ℕ → Prog Mem Unit} {m₀ : Mem} (n i : ℕ)
    (hni : n + i = NPTE) (t : Tree m₀ a (h + 1)) (v : Visited m₀ m a h i)
    (hrec : ∀ m c (Q : Unit → Mem → Prop), Tree m c h → m.free.Nodup →
      (∀ m', Released m m' (InTree m c h) → Q () m') → wp (recur c) Q A m)
    (hQ : ∀ m', Visited m₀ m' a h NPTE → Q () m') : wp (freeEntries recur a n i) Q A m := by
  induction n generalizing m i with
  | zero =>
    rw [freeEntries, wp_pure]
    apply hQ
    rwa [← hni, Nat.zero_add]
  | succ n ih =>
    have hi : i < NPTE := by omega
    have hfin : Fin.ofNat NPTE i = ⟨i, hi⟩ := Fin.ext (Nat.mod_eq_of_lt hi)
    have hentry := v.entry ⟨i, hi⟩ le_rfl
    rw [freeEntries, wp_bind, wp_get, hfin]
    dsimp only
    rw [hentry]
    cases hk : kids m₀ a ⟨i, hi⟩ with
    | none =>
      have hval := kids_eq_none.1 hk
      rw [if_neg (by rw [hval]; simp), if_neg (by rw [hval]; decide)]
      exact ih (i + 1) (by omega) (v.skip (i := ⟨i, hi⟩) hk)
    | some c =>
      obtain ⟨hval, hpa⟩ := kids_eq_some.1 hk
      have hflags := t.inner [] a ⟨i, hi⟩ (by simp) rfl hval
      -- the pages below this entry have not been touched
      have hpage : ∀ b, InTree m₀ c h b → m.page b = m₀.page b := by
        intro b hb
        apply v.page
        · rintro rfl
          exact t.root_not_below hk hb
        · rintro ⟨j, c', hj, hkj, hb'⟩
          have := t.below_inj hkj hk hb' hb
          rw [this] at hj
          exact absurd hj (lt_irrefl _)
      have hfree : ∀ b, InTree m₀ c h b → b ∉ m.free := by
        intro b hb hcon
        rcases (v.free b).1 hcon with hcon | ⟨j, c', hj, hkj, hb'⟩
        · exact (t.ok b (hb.below hk)).2 hcon
        · have := t.below_inj hkj hk hb' hb
          rw [this] at hj
          exact absurd hj (lt_irrefl _)
      have hin : ∀ b, InTree m c h b ↔ InTree m₀ c h b := by
        intro b
        constructor
        · rintro ⟨path, hlen, hb⟩
          exact ⟨path, hlen, (Tree.node_eq hpage path hlen).symm.trans hb⟩
        · rintro ⟨path, hlen, hb⟩
          exact ⟨path, hlen, (Tree.node_eq hpage path hlen).trans hb⟩
      rw [if_pos ⟨hval, hflags⟩, hpa, wp_bind]
      apply hrec m c _ ((t.child hk).congr v.kend hpage hfree) v.nodup
      intro m₁ hr
      rw [wp_bind, wp_modify]
      exact ih (i + 1) (by omega) (v.follow (i := ⟨i, hi⟩) t hk hr hin)

/-- A page-table page without entries is passed through. -/
theorem wp_freeEntries_bare {Q : Unit → Mem → Prop} {recur : ℕ → Prog Mem Unit} (n i : ℕ)
    (hbare : ∀ j, hasFlag (m.page a j) PTEV = false) (hQ : Q () m) :
    wp (freeEntries recur a n i) Q A m := by
  induction n generalizing i with
  | zero => rw [freeEntries, wp_pure]; exact hQ
  | succ n ih =>
    have hval := hbare (Fin.ofNat NPTE i)
    rw [freeEntries, wp_bind, wp_get]
    dsimp only
    rw [if_neg (by rw [hval]; simp), if_neg (by rw [hval]; decide)]
    exact ih (i + 1)

/-- **All pages of the tree are freed, and no others are touched.** -/
theorem wp_freewalk {Q : Unit → Mem → Prop} {d : ℕ} (hd : h < d) (t : Tree m a h)
    (hnodup : m.free.Nodup) (hQ : ∀ m', Released m m' (InTree m a h) → Q () m') :
    wp (freewalk d a) Q A m := by
  obtain ⟨hok, hfree⟩ := t.ok a (inTree_self m a h)
  induction h generalizing m a d Q with
  | zero =>
    obtain ⟨d, rfl⟩ := Nat.exists_eq_succ_of_ne_zero (by omega : d ≠ 0)
    have hsingle : ∀ b, InTree m a 0 b ↔ b = a := by
      intro b
      constructor
      · rintro ⟨path, hlen, hb⟩
        obtain rfl := length_eq_zero_iff.1 (Nat.le_zero.1 hlen)
        exact (Option.some_inj.1 hb).symm
      · rintro rfl
        exact inTree_self m b 0
    rw [freewalk, wp_bind]
    apply wp_freeEntries_bare NPTE 0 fun j => t.bare [] a j rfl rfl
    apply wp_kfree_page hok hfree hnodup
    intro m' hr
    apply hQ
    have heq : InTree m a 0 = (· = a) := funext fun b => propext (hsingle b)
    rwa [heq]
  | succ h ih =>
    obtain ⟨d, rfl⟩ := Nat.exists_eq_succ_of_ne_zero (by omega : d ≠ 0)
    rw [freewalk, wp_bind]
    apply wp_freeEntries NPTE 0 rfl t (Visited.refl m a h hnodup)
    · intro m₁ c Q₁ t₁ hn₁ hQ₁
      exact ih (by omega) t₁ hn₁ hQ₁ (t₁.ok c (inTree_self _ _ _)).1 (t₁.ok c (inTree_self _ _ _)).2
    · intro m₁ v
      -- the root is not below its own entries
      have hroot : ¬ Below m a h NPTE a := by
        rintro ⟨j, c, -, hk, hb⟩
        exact t.root_not_below hk hb
      have htree : ∀ b, InTree m a (h + 1) b ↔ Below m a h NPTE b ∨ b = a := by
        intro b
        constructor
        · intro hb
          rcases hb.cases with rfl | ⟨j, c, hk, hb⟩
          · exact Or.inr rfl
          · exact Or.inl ⟨j, c, j.isLt, hk, hb⟩
        · rintro (⟨j, c, -, hk, hb⟩ | rfl)
          · exact hb.below hk
          · exact inTree_self m b (h + 1)
      have hfree₁ : a ∉ m₁.free := by
        rw [v.free, not_or]
        exact ⟨hfree, hroot⟩
      apply wp_kfree_page (by rwa [v.kend]) hfree₁ v.nodup
      intro m₂ hr
      apply hQ
      refine ⟨hr.kend.trans v.kend, fun b hb => ?_, hr.nodup, fun b => ?_⟩
      · rw [htree, not_or] at hb
        rw [hr.page b hb.2, v.page b hb.2 hb.1]
      · rw [hr.free, v.free, htree]
        exact or_assoc

/-! ### Giving up a table -/

variable {ρ κ : Type} [DecidableEq ρ] {S : MemMap ρ κ} {q : ρ}

/-- Every path below `MAXVA` is the path of a page. -/
theorem exists_vpn {i₂ : Fin NPTE} (h : i₂.val < 256) (i₁ i₀ : Fin NPTE) :
    ∃ v, tablePath v = [i₂, i₁] ∧ px 0 (pageAddr v) = i₀ := by
  have h1 : i₁.val < 512 := i₁.isLt
  have h0 : i₀.val < 512 := i₀.isLt
  have hlt : i₂.val * 2 ^ 18 + i₁.val * 2 ^ 9 + i₀.val < NVPN := by
    show _ < 2 ^ 26
    omega
  have hpx : ∀ level, (px level (pageAddr ⟨_, hlt⟩)).val =
      (i₂.val * 2 ^ 18 + i₁.val * 2 ^ 9 + i₀.val) / 2 ^ (9 * level) % 512 :=
    fun level => px_pageAddr level ⟨_, hlt⟩
  refine ⟨⟨_, hlt⟩, ?_, ?_⟩
  · unfold tablePath
    congr 1
    · apply Fin.ext
      rw [hpx 2]
      norm_num
      omega
    · congr 1
      apply Fin.ext
      rw [hpx 1]
      norm_num
      omega
  · apply Fin.ext
    rw [hpx 0]
    norm_num
    omega

omit [DecidableEq ρ] in
/-- The page-table pages of a table that maps nothing are a tree without leaves. -/
theorem Rep.tree (h : Rep m S) {pt : ℕ} (hr : S.root q = some pt) (hnone : ∀ v, S.cell q v = none) :
    Tree m pt 2 := by
  have hplace : ∀ b, InTree m pt 2 b → ∃ path, path.length ≤ 2 ∧ pageIn m S (.inl (q, path)) = some b := by
    rintro b ⟨path, hlen, hb⟩
    exact ⟨path, hlen, (Rep.pageIn_table hlen).trans (hr ▸ hb)⟩
  constructor
  · intro b hb
    obtain ⟨path, -, hin⟩ := hplace b hb
    exact ⟨h.pool.ok_own _ b hin, h.pool.apart _ b hin⟩
  · intro p p' b hp hp' h1 h2
    exact (h.table_inj (hr ▸ h2) hp' (hr ▸ h1) hp).2
  · intro p b i hp hb hval
    have hflags := h.inner q p b i (by omega) (hr ▸ hb) hval
    have hmask : PTER ||| PTEW ||| PTEX = 0x3FF#64 &&& (PTER ||| PTEW ||| PTEX) := rfl
    rw [hmask, ← BitVec.and_assoc, show m.page b i &&& 0x3FF#64 = PTEV from hflags]
    rfl
  · intro p b i hp hb
    obtain ⟨i₂, i₁, rfl⟩ := length_eq_two.1 hp
    by_cases hlow : i₂.val < 256
    · obtain ⟨v, hpath, hpx⟩ := exists_vpn hlow i₁ i
      have hinv := h.entry_of_none (hnone v)
      rwa [Rep.entry_of_table (by rwa [hpath, hr]), hpx] at hinv
    · -- there is no page-table page for addresses that high
      have hkid : kids m pt i₂ = none := kids_eq_none.2 (h.high q pt i₂ hr (by omega))
      unfold node at hb
      rw [descendant_cons, Option.bind_some, hkid, descendant_none] at hb
      cases hb

/-- **A table that maps nothing is given up.** -/
theorem wp_freeTable {Q : Unit → Mem → Prop} {pt d : ℕ} (hd : 2 < d) (h : Rep m S)
    (hr : S.root q = some pt) (hnone : ∀ v, S.cell q v = none)
    (hQ : ∀ m', Rep m' (S.setRoot q none) → Q () m') : wp (freewalk d pt) Q A m := by
  apply wp_freewalk hd (h.tree hr hnone) h.pool.nodup
  intro m' hrel
  apply hQ
  have hroot : ∀ q', q' ≠ q → (S.setRoot q none).root q' = S.root q' :=
    fun q' hne => update_of_ne hne _ _
  have hself : (S.setRoot q none).root q = none := update_self _ _ _
  have hgone : ∀ path, node m (none : Option ℕ) path = none := fun path => descendant_none _ path
  -- the places that are left, and their pages
  have hsub : ∀ x b, pageIn m (S.setRoot q none) x = some b →
      pageIn m S x = some b ∧ ∀ path, x ≠ .inl (q, path) := by
    rintro (⟨q', path⟩ | k) b hx
    · by_cases hq : q' = q
      · subst hq
        replace hx : (if Counted path then node m ((S.setRoot q' none).root q') path else none) =
          some b := hx
        rw [hself, hgone] at hx
        simp at hx
      · refine ⟨?_, fun p hc => hq (Prod.mk.inj (Sum.inl.inj hc)).1⟩
        replace hx : (if Counted path then node m ((S.setRoot q none).root q') path else none) =
          some b := hx
        rwa [hroot q' hq] at hx
    · exact ⟨hx, fun p hc => by cases hc⟩
  have hnot : ∀ x b, pageIn m (S.setRoot q none) x = some b → ¬ InTree m pt 2 b := by
    rintro x b hx ⟨path, hlen, hb⟩
    obtain ⟨hin, hne⟩ := hsub x b hx
    exact hne path (h.pool.inj x _ b hin ((Rep.pageIn_table hlen).trans (hr ▸ hb)))
  -- before the pages are freed, the table may be forgotten
  have hforget : Rep m (S.setRoot q none) := by
    refine ⟨h.kend, h.pool.sub fun x b hx => (hsub x b hx).1, ?_, ?_, h.hidden, ?_, h.box⟩
    · intro q' path b j hl hb
      by_cases hq : q' = q
      · subst hq
        rw [hself, hgone] at hb
        cases hb
      · rw [hroot q' hq] at hb
        exact h.inner q' path b j hl hb
    · intro q' b j hb
      by_cases hq : q' = q
      · subst hq
        rw [hself] at hb
        cases hb
      · rw [hroot q' hq] at hb
        exact h.high q' b j hb
    · intro q' v
      show cellAt m ((S.setRoot q none).root q') v = S.cell q' v
      by_cases hq : q' = q
      · subst hq
        rw [hself, hnone v]
        unfold cellAt entry
        rw [hgone]
        exact if_neg (by simp)
      · rw [hroot q' hq]
        exact h.cell q' v
  apply hforget.congr hrel.kend
  · intro x b hx
    exact hrel.page b (hnot x b hx)
  · have hpool := hforget.pool
    refine ⟨hrel.nodup, fun b hb => ?_, hpool.ok_own, hpool.inj, fun x b hx hb => ?_⟩
    · rcases (hrel.free b).1 hb with hb | hb
      · exact hpool.ok_free b hb
      · exact ((h.tree hr hnone).ok b hb).1
    · rcases (hrel.free b).1 hb with hb | hb
      · exact hpool.apart x b hx hb
      · exact hnot x b hx hb

variable [DecidableEq κ]

/-- **A table that maps only the heap is given up**, with the pages it maps. -/
theorem wp_uvmfree {Q : Unit → Mem → Prop} {pt sz : ℕ} (h : Rep m S) (hr : S.root q = some pt)
    (hsz : sz ≤ TRAPFRAME)
    (hheap : ∀ v : Vpn, v.val < pages sz → ∃ pte pg, S.cell q v = some (pte, pg) ∧ pteFlags pte ≠ PTEV)
    (honly : ∀ v : Vpn, pages sz ≤ v.val → S.cell q v = none)
    (hQ : ∀ m', Rep m' (S.drop q) → Q () m') : wp (uvmfree pt sz) Q A m := by
  have htf := pageAddr_TRAPFRAME
  have hps : pages sz = (sz + 4095) / 4096 := rfl
  have hdrop : ∀ S' : MemMap ρ κ, S'.root = S.root → S'.box = S.box →
      (∀ q', q' ≠ q → S'.cell q' = S.cell q') → (∀ v, S'.cell q v = none) →
      S'.setRoot q none = S.drop q := by
    intro S' h1 h2 h3 h4
    apply MemMap.ext
    · show update S'.root q none = _
      rw [h1]
      rfl
    · funext q'
      by_cases hq : q' = q
      · subst hq
        show S'.cell q' = update S.cell q' (fun _ => none) q'
        rw [update_self]
        exact funext h4
      · show S'.cell q' = update S.cell q (fun _ => none) q'
        rw [update_of_ne hq]
        exact h3 q' hq
    · exact h2
  unfold uvmfree
  by_cases hpos : 0 < sz
  · have hup : pgRoundUp sz = _ := pgRoundUp_eq (by omega)
    have hn : pgRoundUp sz / PGSIZE = pages sz := by
      rw [hup]
      show _ * 4096 / 4096 = _
      omega
    rw [if_pos hpos, hn, wp_bind]
    apply wp_uvmunmap h hr (by rfl)
    · show 0 + pages sz * 4096 ≤ TRAPFRAME
      omega
    · intro v _ hhi hv
      obtain ⟨pte, pg, hc, hne⟩ := hheap v (by simpa using hhi)
      exact absurd (hv pte pg hc) hne
    · intro m₁ hm₁
      have hnone : ∀ v, (S.clearRange q (0 / 4096) (0 / 4096 + pages sz)).cell q v = none := by
        intro v
        by_cases hv : v.val < pages sz
        · exact if_pos ⟨rfl, by simp, by simpa using hv⟩
        · exact (if_neg (fun hc => hv (by simpa using hc.2.2))).trans (honly v (by omega))
      apply wp_freeTable (by decide) hm₁ hr hnone
      intro m₂ hm₂
      apply hQ
      rw [hdrop (S.clearRange q (0 / 4096) (0 / 4096 + pages sz)) rfl rfl
        (fun q' hq => funext fun v => if_neg (fun hc => hq hc.1)) hnone] at hm₂
      exact hm₂
  · have hnone : ∀ v, S.cell q v = none := fun v => honly v (by omega)
    rw [if_neg hpos]
    apply wp_freeTable (by decide) h hr hnone
    intro m₂ hm₂
    apply hQ
    rwa [hdrop S rfl rfl (fun _ _ => rfl) hnone] at hm₂

end Xv6
