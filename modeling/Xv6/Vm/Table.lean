import Xv6.Lib.Pool
import Xv6.Lib.Tree
import Xv6.Vm.Vm

/-!
# What a memory full of page tables means

Page tables and the pages they map are pages of one physical memory.  A `MemMap` says what that memory
is for, without saying where the page-table pages are: for every page table `q` its root and, for every
virtual page, the entry and the contents of the page it maps; and the pages the kernel holds by a
name `k`.

* `Rep m S`: the memory `m` represents the map `S`.  Every page is in one place only (`Pool`): a
  page-table page, a page mapped at one address of one table, a page the kernel holds, or free;
* `Rep.congr`: what is written to free pages does not matter;
* `Rep.setLeaf`, `Rep.attach`: **writing one entry changes one cell of the map, or adds a page-table
  page and changes nothing**;
* `Rep.setBox`, `Rep.setCell`: writing to a page that is not a page-table page.
-/

namespace Xv6

open Stateful Function List

/-! ### Entries -/

theorem toNat_pa2pte {a : ℕ} (h : a < 2 ^ 56) : (pa2pte a).toNat = a / 4096 * 1024 := by
  unfold pa2pte
  rw [BitVec.toNat_shiftLeft, BitVec.toNat_ushiftRight, BitVec.toNat_ofNat, Nat.shiftLeft_eq,
    Nat.shiftRight_eq_div_pow]
  omega

theorem pte2pa_or {x p : BitVec 64} (hp : p.toNat < 1024) : pte2pa (x ||| p) = pte2pa x := by
  have hzero : p >>> 10 = 0#64 := by
    apply BitVec.eq_of_toNat_eq
    rw [BitVec.toNat_ushiftRight, Nat.shiftRight_eq_div_pow]
    simp
    omega
  unfold pte2pa
  rw [BitVec.ushiftRight_or_distrib, hzero, BitVec.or_zero]

theorem pte2pa_pa2pte {a : ℕ} (h : a < 2 ^ 56) (ha : a % PGSIZE = 0) : pte2pa (pa2pte a) = a := by
  have ha' : a % 4096 = 0 := ha
  unfold pte2pa
  rw [BitVec.toNat_shiftLeft, BitVec.toNat_ushiftRight, toNat_pa2pte h, Nat.shiftLeft_eq,
    Nat.shiftRight_eq_div_pow]
  omega

/-- An entry made of an address and flags has that address. -/
theorem pte2pa_mk {a : ℕ} {perm : BitVec 64} (h : a < 2 ^ 56) (ha : a % PGSIZE = 0)
    (hp : perm.toNat < 1024) : pte2pa (pa2pte a ||| perm ||| PTEV) = a := by
  rw [pte2pa_or (by decide), pte2pa_or hp, pte2pa_pa2pte h ha]

theorem hasFlag_or_self {x f : BitVec 64} (hf : f ≠ 0) : hasFlag (x ||| f) f = true := by
  have hand : (x ||| f) &&& f = f := by
    ext i
    simp
    intro h
    simp [h]
  simp only [hasFlag, hand]
  simpa using hf

@[simp] theorem hasFlag_zero (f : BitVec 64) : hasFlag 0#64 f = false := by
  simp [hasFlag]

theorem pteFlags_pa2pte (a : ℕ) : pteFlags (pa2pte a) = 0 := by
  apply BitVec.eq_of_toNat_eq
  have hmask : (0x3FF#64).toNat = 2 ^ 10 - 1 := rfl
  unfold pteFlags pa2pte
  rw [BitVec.toNat_and, hmask, Nat.and_two_pow_sub_one_eq_mod, BitVec.toNat_shiftLeft, Nat.shiftLeft_eq]
  simp

theorem hasFlag_pteFlags {x f : BitVec 64} (hf : 0x3FF#64 &&& f = f) :
    hasFlag (pteFlags x) f = hasFlag x f := by
  unfold hasFlag pteFlags
  rw [BitVec.and_assoc, hf]

theorem pteFlags_or (x y : BitVec 64) : pteFlags (x ||| y) = pteFlags x ||| pteFlags y := by
  unfold pteFlags
  ext i
  simp [Bool.and_or_distrib_right]

/-! ### Virtual pages -/

/-- Virtual pages below `MAXVA`. -/
abbrev NVPN : ℕ := 2 ^ 26

/-- The number of a virtual page. -/
abbrev Vpn := Fin NVPN

/-- The page of an address. -/
def vpn (va : ℕ) : Vpn := Fin.ofNat NVPN (va / PGSIZE)

/-- The first address of a page. -/
def pageAddr (v : Vpn) : ℕ := v.val * PGSIZE

/-- The entries that lead to the page-table page of level 0 for a virtual page. -/
def tablePath (v : Vpn) : List (Fin NPTE) := [px 2 (pageAddr v), px 1 (pageAddr v)]

/-- The entries that lead to a virtual page. -/
def pagePath (v : Vpn) : List (Fin NPTE) := tablePath v ++ [px 0 (pageAddr v)]

/-- The pages of the trampoline and of the trapframe. -/
abbrev TRAMPVPN : Vpn := ⟨2 ^ 26 - 1, by decide⟩
abbrev FRAMEVPN : Vpn := ⟨2 ^ 26 - 2, by decide⟩

/-- Not a page of the user: the trampoline or the trapframe. -/
def Reserved (v : Vpn) : Prop := v = TRAMPVPN ∨ v = FRAMEVPN

instance (v : Vpn) : Decidable (Reserved v) := inferInstanceAs (Decidable (_ ∨ _))

theorem px_pageAddr (level : ℕ) (v : Vpn) :
    (px level (pageAddr v)).val = v.val / 2 ^ (9 * level) % 512 := by
  show v.val * 4096 / 2 ^ (12 + 9 * level) % 512 = _
  rw [pow_add, Nat.mul_comm, show (4096 : ℕ) = 2 ^ 12 from rfl, Nat.mul_div_mul_left _ _ (by positivity)]

theorem vpn_val {va : ℕ} (h : va < MAXVA) : (vpn va).val = va / 4096 := by
  have hlt : va / 4096 < 2 ^ 26 := by
    have : va < 2 ^ 38 := h
    omega
  exact Nat.mod_eq_of_lt hlt

theorem px_vpn (level : ℕ) {va : ℕ} (h : va < MAXVA) : px level (pageAddr (vpn va)) = px level va := by
  apply Fin.ext
  rw [px_pageAddr, vpn_val h]
  show _ = va / 2 ^ (12 + 9 * level) % 512
  rw [Nat.div_div_eq_div_mul, pow_add, show (4096 : ℕ) = 2 ^ 12 from rfl]

/-- Different pages are at the ends of different paths. -/
theorem pagePath_injective : Injective pagePath := by
  intro v w h
  have h2 := px_pageAddr 2 v
  have h1 := px_pageAddr 1 v
  have h0 := px_pageAddr 0 v
  have k2 := px_pageAddr 2 w
  have k1 := px_pageAddr 1 w
  have k0 := px_pageAddr 0 w
  simp only [pagePath, tablePath, cons_append, nil_append, List.cons.injEq, and_true] at h
  rw [h.1] at h2
  rw [h.2.1] at h1
  rw [h.2.2] at h0
  have hv : v.val < 2 ^ 26 := v.isLt
  have hw : w.val < 2 ^ 26 := w.isLt
  norm_num at h2 h1 h0 k2 k1 k0
  apply Fin.ext
  omega

@[simp] theorem length_tablePath (v : Vpn) : (tablePath v).length = 2 := rfl
@[simp] theorem length_pagePath (v : Vpn) : (pagePath v).length = 3 := rfl

/-! ### Page tables as trees -/

/-- The page an entry of a page points to. -/
def kids (m : Mem) (a : ℕ) (i : Fin NPTE) : Option ℕ :=
  if hasFlag (m.page a i) PTEV then some (pte2pa (m.page a i)) else none

/-- The page at the end of a path of entries. -/
def node (m : Mem) (r : Option ℕ) (path : List (Fin NPTE)) : Option ℕ := descendant (kids m) r path

/-- The entry for a virtual page, 0 when there is no page-table page for it. -/
def entry (m : Mem) (r : Option ℕ) (v : Vpn) : BitVec 64 :=
  match node m r (tablePath v) with
  | none => 0
  | some t => m.page t (px 0 (pageAddr v))

/-- What the kernel sees of an entry for a virtual page: the entry and the contents of the page it
refers to, if it is valid.  The contents of the trampoline and of the trapframe are not looked at:
these pages belong to others. -/
def leafOf (m : Mem) (v : Vpn) (x : BitVec 64) : Option (BitVec 64 × Page) :=
  if hasFlag x PTEV then some (x, if Reserved v then Words.fill 0 else m.page (pte2pa x)) else none

/-- What a table maps at a virtual page. -/
def cellAt (m : Mem) (r : Option ℕ) (v : Vpn) : Option (BitVec 64 × Page) := leafOf m v (entry m r v)

/-- The free list does not matter for what is mapped. -/
theorem cellAt_free (m : Mem) (f : List ℕ) (r : Option ℕ) (v : Vpn) :
    cellAt { m with free := f } r v = cellAt m r v := rfl

theorem leafOf_congr {m m' : Mem} {v : Vpn} {x : BitVec 64}
    (h : ¬ Reserved v → hasFlag x PTEV = true → m'.page (pte2pa x) = m.page (pte2pa x)) :
    leafOf m' v x = leafOf m v x := by
  unfold leafOf
  by_cases hval : hasFlag x PTEV = true
  · by_cases hv : Reserved v
    · simp [hv]
    · rw [h hv hval]
  · rw [if_neg hval, if_neg hval]

theorem kids_eq_some {m : Mem} {a : ℕ} {i : Fin NPTE} {c : ℕ} :
    kids m a i = some c ↔ hasFlag (m.page a i) PTEV = true ∧ pte2pa (m.page a i) = c := by
  unfold kids
  by_cases h : hasFlag (m.page a i) PTEV = true
  · simp [h]
  · simp [h]

theorem kids_eq_none {m : Mem} {a : ℕ} {i : Fin NPTE} :
    kids m a i = none ↔ hasFlag (m.page a i) PTEV = false := by
  unfold kids
  by_cases h : hasFlag (m.page a i) PTEV = true
  · simp [h]
  · simp [h]

theorem node_pagePath (m : Mem) (r : Option ℕ) (v : Vpn) :
    node m r (pagePath v) = if hasFlag (entry m r v) PTEV then some (pte2pa (entry m r v)) else none := by
  unfold node pagePath entry
  rw [descendant_snoc]
  cases h : node m r (tablePath v) with
  | none =>
    rw [show descendant (kids m) r (tablePath v) = none from h]
    simp
  | some t =>
    rw [show descendant (kids m) r (tablePath v) = some t from h]
    rfl

theorem descend_eq (m : Mem) (va pagetable : ℕ) :
    descend m va 2 pagetable = node m (some pagetable) [px 2 va, px 1 va] := by
  unfold node
  simp only [descend, descendant, List.foldl, Option.bind_some, kids]
  by_cases h2 : hasFlag (m.page pagetable (px 2 va)) PTEV = true
  · simp [h2]
  · simp [h2]

/-- `lookup` reads the entry. -/
theorem lookup_eq {m : Mem} {va : ℕ} (h : va < MAXVA) (pagetable : ℕ) :
    lookup m pagetable va = (node m (some pagetable) (tablePath (vpn va))).map
      fun t => m.page t (px 0 (pageAddr (vpn va))) := by
  unfold lookup tablePath
  rw [descend_eq, px_vpn 2 h, px_vpn 1 h, px_vpn 0 h]

/-! ### Memory maps -/

/-- What physical memory is used for: the page tables `q` with the pages they map, and the pages the
kernel holds by a name `k`. -/
@[ext] structure MemMap (ρ κ : Type) where
  root : ρ → Option ℕ
  cell : ρ → Vpn → Option (BitVec 64 × Page)
  box : κ → Option (ℕ × Page)

variable {ρ κ : Type}

/-- The places a page can be in: at the end of a path of a page table, or held by a name. -/
abbrev Place (ρ κ : Type) := (ρ × List (Fin NPTE)) ⊕ κ

/-- The paths whose pages belong to the table: its page-table pages and the pages of the user. -/
def Counted (path : List (Fin NPTE)) : Prop :=
  path.length ≤ 3 ∧ path ≠ pagePath TRAMPVPN ∧ path ≠ pagePath FRAMEVPN

instance (path : List (Fin NPTE)) : Decidable (Counted path) := inferInstanceAs (Decidable (_ ∧ _))

/-- The page in a place. -/
def pageIn (m : Mem) (S : MemMap ρ κ) : Place ρ κ → Option ℕ
  | .inl (q, path) => if Counted path then node m (S.root q) path else none
  | .inr k => (S.box k).map Prod.fst

/-- A page `kfree` accepts. -/
def PageOk (kend a : ℕ) : Prop := a % PGSIZE = 0 ∧ kend ≤ a ∧ a < PHYSTOP

/-- **The memory represents the map.** -/
structure Rep (m : Mem) (S : MemMap ρ κ) : Prop where
  kend : 0 < m.kend
  pool : Pool (pageIn m S) (PageOk m.kend) m.free
  /-- Entries that lead to page-table pages have the valid flag only. -/
  inner : ∀ q path a i, path.length ≤ 1 → node m (S.root q) path = some a →
    hasFlag (m.page a i) PTEV = true → pteFlags (m.page a i) = PTEV
  /-- Nothing is mapped at `MAXVA` and above. -/
  high : ∀ q a (i : Fin NPTE), S.root q = some a → 256 ≤ i.val → hasFlag (m.page a i) PTEV = false
  /-- The user has no access to the trampoline and the trapframe. -/
  hidden : ∀ q v pte pg, Reserved v → S.cell q v = some (pte, pg) → hasFlag pte PTEU = false
  cell : ∀ q v, cellAt m (S.root q) v = S.cell q v
  box : ∀ k a pg, S.box k = some (a, pg) → m.page a = pg

theorem counted_of_le {path : List (Fin NPTE)} (h : path.length ≤ 2) : Counted path := by
  refine ⟨by omega, ?_, ?_⟩
  · intro he
    rw [he, length_pagePath] at h
    omega
  · intro he
    rw [he, length_pagePath] at h
    omega

theorem counted_pagePath {v : Vpn} : Counted (pagePath v) ↔ ¬ Reserved v := by
  unfold Counted Reserved
  rw [pagePath_injective.ne_iff, pagePath_injective.ne_iff, not_or]
  exact ⟨fun h => h.2, fun h => ⟨(length_pagePath v).le, h⟩⟩

namespace Rep

variable {m m' : Mem} {S : MemMap ρ κ} {q q' : ρ} {k : κ} {v w : Vpn} {a : ℕ} {i : Fin NPTE}
  {p path : List (Fin NPTE)}

theorem pageIn_table (hlen : path.length ≤ 2) : pageIn m S (.inl (q, path)) = node m (S.root q) path :=
  if_pos (counted_of_le hlen)

theorem pageIn_page (hv : ¬ Reserved v) :
    pageIn m S (.inl (q, pagePath v)) = node m (S.root q) (pagePath v) :=
  if_pos (counted_pagePath.2 hv)

/-- A page-table page is at the end of one path of one table. -/
theorem table_inj (h : Rep m S) (hp : node m (S.root q) p = some a) (hlen : p.length ≤ 2)
    (hpath : node m (S.root q') path = some a) (hlen' : path.length ≤ 2) : q' = q ∧ path = p := by
  have heq := h.pool.inj (.inl (q', path)) (.inl (q, p)) a ((pageIn_table hlen').trans hpath)
    ((pageIn_table hlen).trans hp)
  rwa [Sum.inl.injEq, Prod.mk.injEq] at heq

theorem pageIn_entry (hv : ¬ Reserved v) (hval : hasFlag (entry m (S.root q) v) PTEV = true) :
    pageIn m S (.inl (q, pagePath v)) = some (pte2pa (entry m (S.root q) v)) := by
  rw [pageIn_page hv, node_pagePath, if_pos hval]

theorem pageIn_box {pg : Page} (hk : S.box k = some (a, pg)) : pageIn m S (.inr k) = some a := by
  show (S.box k).map Prod.fst = some a
  rw [hk]
  rfl

theorem pageIn_cell (h : Rep m S) {pte : BitVec 64} {pg : Page} (hv : ¬ Reserved v)
    (hc : S.cell q v = some (pte, pg)) :
    pageIn m S (.inl (q, pagePath v)) = some (pte2pa pte) ∧ m.page (pte2pa pte) = pg := by
  have hcell := h.cell q v
  rw [hc] at hcell
  unfold cellAt leafOf at hcell
  by_cases hval : hasFlag (entry m (S.root q) v) PTEV = true
  · rw [if_pos hval, if_neg hv, Option.some_inj, Prod.mk.injEq] at hcell
    rw [pageIn_page hv, node_pagePath, if_pos hval, hcell.1]
    exact ⟨rfl, hcell.1 ▸ hcell.2⟩
  · simp [if_neg hval] at hcell

/-- The trees are as they were when the pages they consist of are. -/
theorem node_congr (hpage : ∀ q path a, path.length ≤ 2 → node m (S.root q) path = some a →
    m'.page a = m.page a) (q : ρ) (path : List (Fin NPTE)) (hlen : path.length ≤ 3) :
    node m' (S.root q) path = node m (S.root q) path := by
  apply descendant_congr (D := 3) _ path hlen
  intro path b hb hnode j
  unfold kids
  rw [hpage q path b (by omega) hnode]

theorem entry_congr (hpage : ∀ q path a, path.length ≤ 2 → node m (S.root q) path = some a →
    m'.page a = m.page a) (q : ρ) (v : Vpn) : entry m' (S.root q) v = entry m (S.root q) v := by
  unfold entry
  rw [node_congr hpage q (tablePath v) (by simp)]
  cases ht : node m (S.root q) (tablePath v) with
  | none => rfl
  | some t =>
    show m'.page t _ = m.page t _
    rw [hpage q (tablePath v) t (by simp) ht]

end Rep

/-- Two memories agree on the pages in use. -/
def Agree (m m' : Mem) (S : MemMap ρ κ) : Prop := ∀ x a, pageIn m S x = some a → m'.page a = m.page a

namespace Agree

variable {m m' m'' : Mem} {S : MemMap ρ κ}

theorem table (h : Agree m m' S) (q : ρ) (path : List (Fin NPTE)) (a : ℕ) (hlen : path.length ≤ 2)
    (hnode : node m (S.root q) path = some a) : m'.page a = m.page a :=
  h (.inl (q, path)) a ((Rep.pageIn_table hlen).trans hnode)

theorem node_eq (h : Agree m m' S) (q : ρ) {path : List (Fin NPTE)} (hlen : path.length ≤ 3) :
    node m' (S.root q) path = node m (S.root q) path :=
  Rep.node_congr h.table q path hlen

theorem pageIn_eq (h : Agree m m' S) : pageIn m' S = pageIn m S := by
  funext x
  rcases x with ⟨q, path⟩ | k
  · by_cases hc : Counted path
    · simp only [pageIn, if_pos hc]
      exact h.node_eq q hc.1
    · simp only [pageIn, if_neg hc]
  · rfl

theorem trans (h : Agree m m' S) (h' : Agree m' m'' S) : Agree m m'' S := by
  intro x a hx
  rw [h' x a (h.pageIn_eq ▸ hx), h x a hx]

end Agree

namespace Rep

variable {m m' : Mem} {S : MemMap ρ κ} {q : ρ} {k : κ} {v : Vpn} {a : ℕ}

/-- **Only the pages in use matter.** -/
theorem congr (h : Rep m S) (hkend : m'.kend = m.kend) (hpage : Agree m m' S)
    (hpool : Pool (pageIn m S) (PageOk m.kend) m'.free) : Rep m' S := by
  have htable := hpage.table
  constructor
  · rw [hkend]
    exact h.kend
  · rwa [hpage.pageIn_eq, hkend]
  · intro q path a i hlen hn
    rw [hpage.node_eq q (by omega)] at hn
    rw [htable q path a (by omega) hn]
    exact h.inner q path a i hlen hn
  · intro q a i hr hi
    rw [htable q [] a (by simp) hr]
    exact h.high q a i hr hi
  · exact h.hidden
  · intro q v
    rw [← h.cell q v]
    unfold cellAt
    rw [entry_congr htable]
    exact leafOf_congr fun hv hval => hpage _ _ (pageIn_entry hv hval)
  · intro k a pg hk
    rw [hpage _ _ (pageIn_box hk)]
    exact h.box k a pg hk

end Rep

/-! ### Changing a map -/

namespace MemMap

/-- Put a page into a box, or empty it. -/
def setBox [DecidableEq κ] (S : MemMap ρ κ) (k : κ) (x : Option (ℕ × Page)) : MemMap ρ κ :=
  { S with box := update S.box k x }

/-- The map with other names for its tables. -/
def reindex {ρ' : Type} (S : MemMap ρ κ) (e : ρ' → ρ) : MemMap ρ' κ := ⟨S.root ∘ e, S.cell ∘ e, S.box⟩

/-- A page that was put into an empty box is taken out again. -/
theorem setBox_setBox_none [DecidableEq κ] (S : MemMap ρ κ) {k : κ} (hk : S.box k = none)
    (x : Option (ℕ × Page)) : (S.setBox k x).setBox k none = S := by
  apply MemMap.ext
  · rfl
  · rfl
  · show update (update S.box k x) k none = S.box
    rw [update_idem, ← hk, update_eq_self]

@[simp] theorem box_setBox_self [DecidableEq κ] (S : MemMap ρ κ) (k : κ) (x : Option (ℕ × Page)) :
    (S.setBox k x).box k = x := update_self _ _ _

theorem box_setBox_of_ne [DecidableEq κ] (S : MemMap ρ κ) {k k' : κ} (h : k' ≠ k)
    (x : Option (ℕ × Page)) : (S.setBox k x).box k' = S.box k' := update_of_ne h _ _

variable [DecidableEq ρ]

/-- Map a virtual page, or unmap it. -/
def setCell (S : MemMap ρ κ) (q : ρ) (v : Vpn) (x : Option (BitVec 64 × Page)) : MemMap ρ κ :=
  { S with cell := update S.cell q (update (S.cell q) v x) }

/-- Give up a page table and everything it maps. -/
def drop (S : MemMap ρ κ) (q : ρ) : MemMap ρ κ :=
  { S with root := update S.root q none, cell := update S.cell q fun _ => none }

/-- Begin or give up a page table. -/
def setRoot (S : MemMap ρ κ) (q : ρ) (r : Option ℕ) : MemMap ρ κ :=
  { S with root := update S.root q r }

@[simp] theorem root_setCell (S : MemMap ρ κ) (q : ρ) (v : Vpn) (x : Option (BitVec 64 × Page)) :
    (S.setCell q v x).root = S.root := rfl

theorem cell_setCell (S : MemMap ρ κ) (q q' : ρ) (v w : Vpn) (x : Option (BitVec 64 × Page)) :
    (S.setCell q v x).cell q' w = if q' = q ∧ w = v then x else S.cell q' w := by
  unfold setCell
  by_cases hq : q' = q
  · subst hq
    simp [update_apply]
  · simp [hq]

theorem setCell_setCell (S : MemMap ρ κ) (q : ρ) (v : Vpn) (x y : Option (BitVec 64 × Page)) :
    (S.setCell q v x).setCell q v y = S.setCell q v y := by
  unfold setCell
  simp only [update_self, update_idem]

/-- Unmap the virtual pages from `lo` to before `hi`. -/
def clearRange (S : MemMap ρ κ) (q : ρ) (lo hi : ℕ) : MemMap ρ κ :=
  { S with cell := fun q' v => if q' = q ∧ lo ≤ v.val ∧ v.val < hi then none else S.cell q' v }

theorem clearRange_of_le (S : MemMap ρ κ) (q : ρ) {lo hi : ℕ} (h : hi ≤ lo) : S.clearRange q lo hi = S := by
  apply MemMap.ext
  · rfl
  · funext q' v
    exact if_neg (by omega)
  · rfl

/-- A cell is set and a range is cleared; `hw` says what the range is outside the cell. -/
theorem clearRange_setCell_eq {S : MemMap ρ κ} {q : ρ} {v : Vpn} {lo hi lo' hi' : ℕ}
    {x : Option (BitVec 64 × Page)}
    (hv : (if lo ≤ v.val ∧ v.val < hi then none else x) = if lo' ≤ v.val ∧
    v.val < hi' then none else S.cell q v)
    (hw : ∀ w : Vpn, w.val ≠ v.val → (lo ≤ w.val ∧ w.val < hi ↔ lo' ≤ w.val ∧ w.val < hi')) :
    (S.setCell q v x).clearRange q lo hi = S.clearRange q lo' hi' := by
  refine MemMap.ext rfl ?_ rfl
  funext q' w
  unfold clearRange
  dsimp only
  rw [cell_setCell]
  by_cases hq : q' = q
  · subst hq
    by_cases hwv : w = v
    · simpa [hwv] using hv
    · simp [hwv, hw w fun he => hwv (Fin.ext he)]
  · simp [hq]

theorem clearRange_cons (S : MemMap ρ κ) (q : ρ) {v : Vpn} {hi : ℕ} (h : v.val < hi) :
    (S.setCell q v none).clearRange q (v.val + 1) hi = S.clearRange q v.val hi :=
  clearRange_setCell_eq (by simp [h]) fun w hw => by omega

/-- A page mapped at the end of a range is unmapped with it. -/
theorem clearRange_setCell (S : MemMap ρ κ) (q : ρ) {v : Vpn} {lo n : ℕ} {x : Option (BitVec 64 × Page)}
    (hnone : S.cell q v = none) (hlo : lo ≤ n) (hv : v.val = n) :
    (S.setCell q v x).clearRange q lo (n + 1) = S.clearRange q lo n :=
  clearRange_setCell_eq (by simp [hnone, hv, hlo]) fun w hw => by omega

end MemMap

/-- The page `a` is in hand: it belongs to nobody and is not free. -/
def Holding (m : Mem) (a : ℕ) (S : MemMap ρ κ) : Prop := Rep { m with free := a :: m.free } S

/-- The page of the user an entry refers to. -/
def leafPage (v : Vpn) (x : BitVec 64) : Option ℕ :=
  if Reserved v then none else if hasFlag x PTEV then some (pte2pa x) else none

theorem fill_zero_apply (i : Fin NPTE) : (Words.fill 0 : Page) i = 0#64 := rfl

theorem kids_of_fill_zero {m : Mem} {a : ℕ} (h : m.page a = Words.fill 0) (i : Fin NPTE) :
    kids m a i = none := by
  rw [kids_eq_none, h, fill_zero_apply, hasFlag_zero]

namespace Rep

variable {m : Mem} {S : MemMap ρ κ} {q : ρ} {k : κ} {v : Vpn} {a c t : ℕ} {i : Fin NPTE}
  {p : List (Fin NPTE)}

theorem free_ne_zero (h : Rep m S) : ∀ a ∈ m.free, a ≠ 0 := by
  intro a ha
  have hok := (h.pool.ok_free a ha).2.1
  have hkend := h.kend
  omega

theorem agree_setFree (h : Rep m S) {rest : List ℕ} (hf : m.free = a :: rest) (pg : Page) :
    Agree m ({ m with free := rest }.setPage a pg) S := by
  intro x b hx
  apply update_of_ne
  rintro rfl
  exact h.pool.apart x b hx (hf ▸ mem_cons_self)

theorem holding (h : Rep m S) {rest : List ℕ} (hf : m.free = a :: rest) (pg : Page) :
    Holding ({ m with free := rest }.setPage a pg) a S := by
  have hpool : Pool (pageIn m S) (PageOk m.kend) (a :: rest) := hf ▸ h.pool
  unfold Holding
  exact h.congr rfl (fun x b hx => h.agree_setFree hf pg x b hx) hpool

theorem page_setPage_of_ne (m : Mem) {b : ℕ} (hb : b ≠ a) (pg : Page) :
    (m.setPage a pg).page b = m.page b :=
  update_of_ne hb _ _

theorem page_setPage_self (m : Mem) (a : ℕ) (pg : Page) : (m.setPage a pg).page a = pg :=
  update_self _ _ _

theorem page_setPte_of_ne (m : Mem) {b : ℕ} (hb : b ≠ a) (x : BitVec 64) :
    (m.setPte a i x).page b = m.page b :=
  update_of_ne hb _ _

theorem page_setPte_self (m : Mem) (a : ℕ) (i j : Fin NPTE) (x : BitVec 64) :
    (m.setPte a i x).page a j = if j = i then x else m.page a j := by
  unfold Mem.setPte Mem.setPage
  simp [update_apply]

theorem kids_setPte_of_ne (m : Mem) (x : BitVec 64) {b : ℕ} {j : Fin NPTE} (h : b ≠ a ∨ j ≠ i) :
    kids (m.setPte a i x) b j = kids m b j := by
  unfold kids
  by_cases hb : b = a
  · subst hb
    rw [page_setPte_self, if_neg (h.resolve_left (fun hne => hne rfl))]
  · rw [page_setPte_of_ne m hb]

theorem kids_setPte_self (m : Mem) (a : ℕ) (i : Fin NPTE) (x : BitVec 64) :
    kids (m.setPte a i x) a i = if hasFlag x PTEV then some (pte2pa x) else none := by
  unfold kids
  rw [page_setPte_self, if_pos rfl]

/-- The pages that are not the written page-table page are as they were. -/
theorem page_of_place (h : Rep m S) (hp : node m (S.root q) p = some a) (hlen : p.length ≤ 2)
    (x : BitVec 64) {y : Place ρ κ} {b : ℕ} (hy : pageIn m S y = some b) (hne : y ≠ .inl (q, p)) :
    (m.setPte a i x).page b = m.page b := by
  apply page_setPte_of_ne
  rintro rfl
  exact hne (h.pool.inj y _ b hy ((pageIn_table hlen).trans hp))

theorem inl_ne_of_length {q' : ρ} {path : List (Fin NPTE)} (hl : path.length ≠ p.length) :
    (Sum.inl (q', path) : Place ρ κ) ≠ .inl (q, p) := by
  intro he
  rw [Sum.inl.injEq, Prod.mk.injEq] at he
  exact hl (congrArg List.length he.2)

variable [DecidableEq ρ]

/-- **One entry of one page-table page is written**, below which nothing hangs: one path of one table
ends elsewhere. -/
theorem node_setPte (h : Rep m S) (hp : node m (S.root q) p = some a) (hlen : p.length ≤ 2)
    (x : BitVec 64) (hold : p.length + 1 < 3 → ∀ c, kids m a i = some c → ∀ j, kids m c j = none)
    (hnew : p.length + 1 < 3 → ∀ c, kids (m.setPte a i x) a i = some c →
      ∀ j, kids (m.setPte a i x) c j = none)
    (q' : ρ) (path : List (Fin NPTE)) (hD : path.length ≤ 3) :
    node (m.setPte a i x) (S.root q') path =
      if q' = q ∧ path = p ++ [i] then kids (m.setPte a i x) a i else node m (S.root q') path := by
  by_cases hq : q' = q
  · subst hq
    have hset : descendant (kids (m.setPte a i x)) (S.root q') path =
        if path = p ++ [i] then kids (m.setPte a i x) a i else descendant (kids m) (S.root q') path :=
      descendant_set (D := 3) hp (by omega) (fun b j hne => kids_setPte_of_ne m x hne)
        (fun path hl hpath => (h.table_inj hp hlen hpath (by omega)).2) hold hnew path hD
    simp only [true_and]
    exact hset
  · rw [if_neg (fun hcon => hq hcon.1)]
    apply descendant_congr (D := 3) _ path hD
    intro path b hl hpath j
    apply kids_setPte_of_ne
    left
    rintro rfl
    exact hq (h.table_inj hp hlen hpath (by omega)).1

/-- The page-table entries after a leaf entry is written. -/
theorem entry_setLeaf (h : Rep m S) (ht : node m (S.root q) (tablePath v) = some t) (x : BitVec 64)
    (q' : ρ) (w : Vpn) :
    entry (m.setPte t (px 0 (pageAddr v)) x) (S.root q') w =
      if q' = q ∧ w = v then x else entry m (S.root q') w := by
  have hnode := h.node_setPte (i := px 0 (pageAddr v)) ht (by simp) x (fun hc => absurd hc (by simp))
    (fun hc => absurd hc (by simp)) q' (tablePath w) (by simp)
  rw [if_neg (fun hc => absurd (congrArg List.length hc.2) (by simp))] at hnode
  unfold entry
  rw [hnode]
  cases hw : node m (S.root q') (tablePath w) with
  | none =>
    by_cases hc : q' = q ∧ w = v
    · simp [hc.1, hc.2, ht] at hw
    · rw [if_neg hc]
  | some u =>
    show (m.setPte t (px 0 (pageAddr v)) x).page u _ = if _ then x else m.page u _
    by_cases hut : u = t
    · subst hut
      obtain ⟨hq, hpath⟩ := h.table_inj ht (by simp) hw (by simp)
      rw [page_setPte_self]
      by_cases hj : px 0 (pageAddr w) = px 0 (pageAddr v)
      · have hwv : w = v := pagePath_injective (by rw [pagePath, pagePath, hpath, hj])
        rw [if_pos hj, if_pos ⟨hq, hwv⟩]
      · rw [if_neg hj, if_neg]
        rintro ⟨_, rfl⟩
        exact hj rfl
    · rw [page_setPte_of_ne m hut, if_neg]
      rintro ⟨rfl, rfl⟩
      rw [ht, Option.some_inj] at hw
      exact hut hw.symm

variable [DecidableEq κ]

/-- **Writing an entry of a page-table page of level 0 changes one cell.** -/
theorem setLeaf (h : Rep m S) (ht : node m (S.root q) (tablePath v) = some t) (x : BitVec 64)
    (f : List ℕ) (hx : Reserved v → hasFlag x PTEU = false)
    (hpool : Pool (update (pageIn m S) (.inl (q, pagePath v)) (leafPage v x))
      (PageOk m.kend) f) :
    Rep { m.setPte t (px 0 (pageAddr v)) x with free := f } (S.setCell q v (leafOf m v x)) := by
  have hnode := h.node_setPte (i := px 0 (pageAddr v)) ht (by simp) x
    (fun hc => absurd hc (by simp)) (fun hc => absurd hc (by simp))
  have hshort : ∀ q' path, path.length ≤ 2 →
      node (m.setPte t (px 0 (pageAddr v)) x) (S.root q') path = node m (S.root q') path := by
    intro q' path hl
    rw [hnode q' path (by omega), if_neg]
    rintro ⟨-, rfl⟩
    simp at hl
  have htable : ∀ q' path b, path.length ≤ 1 → node m (S.root q') path = some b →
      (m.setPte t (px 0 (pageAddr v)) x).page b = m.page b := by
    intro q' path b hl hb
    apply h.page_of_place ht (by simp) x ((pageIn_table (by omega)).trans hb)
    apply inl_ne_of_length
    rw [length_tablePath]
    omega
  constructor
  · exact h.kend
  · -- one place has another page
    have hown : pageIn { m.setPte t (px 0 (pageAddr v)) x with free := f } (S.setCell q v (leafOf m v x))
        = update (pageIn m S) (.inl (q, pagePath v)) (leafPage v x) := by
      funext y
      rcases y with ⟨q', path⟩ | k
      · by_cases hy : q' = q ∧ path = pagePath v
        · obtain ⟨rfl, rfl⟩ := hy
          rw [update_self]
          show (if Counted (pagePath v) then node (m.setPte t _ x) (S.root q') (pagePath v) else none) = _
          unfold leafPage
          by_cases hv : Reserved v
          · rw [if_neg (fun hc => counted_pagePath.1 hc hv), if_pos hv]
          · rw [if_pos (counted_pagePath.2 hv), if_neg hv, hnode q' _ (by simp), if_pos ⟨rfl, rfl⟩,
              kids_setPte_self]
        · rw [update_of_ne (fun he => hy (Prod.mk.inj (Sum.inl.inj he)))]
          show (if Counted path then node (m.setPte t _ x) (S.root q') path else none) =
            if Counted path then node m (S.root q') path else none
          by_cases hc : Counted path
          · rw [if_pos hc, if_pos hc, hnode q' path hc.1]
            exact if_neg hy
          · rw [if_neg hc, if_neg hc]
      · rw [update_of_ne (by simp)]
        rfl
    rwa [hown]
  · intro q' path b j hl hb
    have hb' := (hshort q' path (by omega)).symm.trans hb
    rw [htable q' path b hl hb']
    exact h.inner q' path b j hl hb'
  · intro q' b j hr hj
    rw [htable q' [] b (by simp) hr]
    exact h.high q' b j hr hj
  · intro q' w pte pg hw hc
    rw [MemMap.cell_setCell] at hc
    by_cases hqw : q' = q ∧ w = v
    · rw [if_pos hqw, leafOf] at hc
      by_cases hval : hasFlag x PTEV = true
      · rw [if_pos hval, Option.some_inj, Prod.mk.injEq] at hc
        rw [← hc.1]
        exact hx (hqw.2 ▸ hw)
      · rw [if_neg hval] at hc
        cases hc
    · rw [if_neg hqw] at hc
      exact h.hidden q' w pte pg hw hc
  · intro q' w
    rw [MemMap.cell_setCell, cellAt_free, MemMap.root_setCell, cellAt, h.entry_setLeaf ht x q' w]
    by_cases hc : q' = q ∧ w = v
    · obtain ⟨rfl, rfl⟩ := hc
      simp only [and_self, if_true]
      apply leafOf_congr
      intro hv hval
      -- the mapped page is not the page-table page
      apply page_setPte_of_ne
      intro hxt
      have h1 : update (pageIn m S) (.inl (q', pagePath w)) (leafPage w x)
          (.inl (q', pagePath w)) = some t := by
        rw [update_self, leafPage, if_neg hv, if_pos hval, hxt]
      have h2 : update (pageIn m S) (.inl (q', pagePath w)) (leafPage w x)
          (.inl (q', tablePath w)) = some t := by
        rw [update_of_ne (inl_ne_of_length (by simp)), pageIn_table (by simp), ht]
      exact inl_ne_of_length (by simp) (hpool.inj _ _ t h1 h2)
    · rw [if_neg hc, if_neg hc, ← h.cell q' w]
      exact leafOf_congr fun hv hval =>
        h.page_of_place ht (by simp) x (pageIn_entry hv hval) (inl_ne_of_length (by simp))
  · intro k b pg hk
    show (m.setPte t _ x).page b = pg
    rw [h.page_of_place ht (by simp) x (pageIn_box (S := S) hk) (by simp)]
    exact h.box k b pg hk

end Rep

/-! ### A page in hand -/

namespace Holding

variable {m : Mem} {S : MemMap ρ κ} {q : ρ} {k : κ} {v : Vpn} {a c t : ℕ} {i : Fin NPTE}
  {p : List (Fin NPTE)}

section

variable (h : Holding m c S)
include h

theorem pageOk : PageOk m.kend c := h.pool.ok_free c mem_cons_self

theorem ne_zero : c ≠ 0 := by
  have h1 : 0 < m.kend := h.kend
  have h2 := h.pageOk.2.1
  omega

theorem not_pageIn (x : Place ρ κ) : pageIn m S x ≠ some c :=
  fun hx => h.pool.apart x c hx mem_cons_self

theorem drop : Rep m S := h.congr rfl (fun _ _ _ => rfl) h.pool.tail

theorem agree_write (pg : Page) : Agree m (m.setPage c pg) S := by
  intro x b hx
  apply Rep.page_setPage_of_ne
  rintro rfl
  exact h.not_pageIn x hx

theorem write (pg : Page) : Holding (m.setPage c pg) c S :=
  h.congr rfl (h.agree_write pg) h.pool

theorem free (pg : Page) :
    Rep { m.setPage c pg with free := c :: m.free } S := h.write pg

theorem box [DecidableEq ρ] [DecidableEq κ] (k : κ) :
    Rep m (S.setBox k (some (c, m.page c))) := by
  have hrep := h.drop
  have hown : pageIn m (S.setBox k (some (c, m.page c))) = update (pageIn m S) (.inr k) (some c) := by
    funext y
    rcases y with ⟨q', path⟩ | k'
    · rw [update_of_ne (by simp)]
      rfl
    · by_cases hk : k' = k
      · subst hk
        rw [update_self]
        show (update S.box k' (some (c, m.page c)) k').map Prod.fst = some c
        rw [update_self]
        rfl
      · rw [update_of_ne (fun he => hk (Sum.inr.inj he))]
        show (update S.box k (some (c, m.page c)) k').map Prod.fst = (S.box k').map Prod.fst
        rw [update_of_ne hk]
  refine ⟨hrep.kend, ?_, hrep.inner, hrep.high, hrep.hidden, hrep.cell, ?_⟩
  · rw [hown]
    exact h.pool.take _
  · intro k' b pg hk'
    replace hk' : update S.box k (some (c, m.page c)) k' = some (b, pg) := hk'
    by_cases hk : k' = k
    · rw [hk, update_self, Option.some_inj, Prod.mk.injEq] at hk'
      rw [← hk'.1]
      exact hk'.2
    · rw [update_of_ne hk] at hk'
      exact hrep.box k' b pg hk'

/-- It may become the root of a new page table, when it is zeroed. -/
theorem root [DecidableEq ρ] [DecidableEq κ] (hzero : m.page c = Words.fill 0)
    (hq : S.root q = none) : Rep m (S.setRoot q (some c)) := by
  have hrep := h.drop
  have hnew : ∀ path : List (Fin NPTE), path ≠ [] → node m (some c) path = none := by
    intro path hp
    obtain ⟨i, rest, rfl⟩ := exists_cons_of_ne_nil hp
    unfold node
    rw [descendant_cons, Option.bind_some, kids_of_fill_zero hzero, descendant_none]
  have hroot : ∀ q', q' ≠ q → (S.setRoot q (some c)).root q' = S.root q' :=
    fun q' hne => update_of_ne hne _ _
  have hself : (S.setRoot q (some c)).root q = some c := update_self _ _ _
  have hold : ∀ path, node m (S.root q) path = none := by
    intro path
    rw [hq]
    exact descendant_none _ path
  constructor
  · exact hrep.kend
  · have hown : pageIn m (S.setRoot q (some c)) = update (pageIn m S) (.inl (q, [])) (some c) := by
      funext y
      rcases y with ⟨q', path⟩ | k
      · by_cases hy : q' = q
        · subst hy
          by_cases hp : path = []
          · subst hp
            rw [update_self, Rep.pageIn_table (by simp), hself]
            rfl
          · rw [update_of_ne (fun he => hp (Prod.mk.inj (Sum.inl.inj he)).2)]
            show (if Counted path then node m ((S.setRoot q' (some c)).root q') path else none) =
              if Counted path then node m (S.root q') path else none
            rw [hself, hnew path hp, hold path]
        · rw [update_of_ne (fun he => hy (Prod.mk.inj (Sum.inl.inj he)).1)]
          show (if Counted path then node m ((S.setRoot q (some c)).root q') path else none) = _
          rw [hroot q' hy]
          rfl
      · rw [update_of_ne (by simp)]
        rfl
    rw [hown]
    exact h.pool.take _
  · intro q' path b j hl hb
    by_cases hy : q' = q
    · subst hy
      rw [hself] at hb
      cases path with
      | nil =>
        rw [show b = c from (Option.some_inj.1 hb).symm, hzero, fill_zero_apply, hasFlag_zero]
        exact fun hc => absurd hc (by simp)
      | cons i rest =>
        rw [hnew _ (by simp)] at hb
        cases hb
    · rw [hroot q' hy] at hb
      exact hrep.inner q' path b j hl hb
  · intro q' b j hr hj
    by_cases hy : q' = q
    · subst hy
      rw [hself, Option.some_inj] at hr
      rw [← hr, hzero, fill_zero_apply, hasFlag_zero]
    · rw [hroot q' hy] at hr
      exact hrep.high q' b j hr hj
  · exact hrep.hidden
  · intro q' v
    show cellAt m ((S.setRoot q (some c)).root q') v = S.cell q' v
    by_cases hy : q' = q
    · subst hy
      rw [← hrep.cell q' v, hself]
      unfold cellAt entry
      rw [hnew (tablePath v) (by simp [tablePath]), hold (tablePath v)]
    · rw [hroot q' hy]
      exact hrep.cell q' v
  · exact hrep.box

theorem pte2pa_attach : pte2pa (pa2pte c ||| PTEV) = c := by
  obtain ⟨hmod, -, hstop⟩ := h.pageOk
  rw [pte2pa_or (by decide), pte2pa_pa2pte (hstop.trans (by decide)) hmod]

theorem kids_attach :
    kids (m.setPte a i (pa2pte c ||| PTEV)) a i = some c := by
  rw [Rep.kids_setPte_self, if_pos (hasFlag_or_self (by decide)), h.pte2pa_attach]

theorem page_attach (hp : node m (S.root q) p = some a) (hlen : p.length ≤ 2)
    {x : BitVec 64} {pg : Page} (hpg : m.page c = pg) : (m.setPte a i x).page c = pg := by
  rw [Rep.page_setPte_of_ne m, hpg]
  rintro rfl
  exact h.not_pageIn _ ((Rep.pageIn_table hlen).trans hp)

/-- **It may become a page-table page**, when it is zeroed: no cell changes. -/
theorem attach [DecidableEq ρ] [DecidableEq κ] (hzero : m.page c = Words.fill 0)
    (hp : node m (S.root q) p = some a) (hlen : p.length ≤ 1) (hnone : kids m a i = none)
    (hlow : p = [] → i.val < 256) : Rep (m.setPte a i (pa2pte c ||| PTEV)) S := by
  have hrep := h.drop
  have hkid := h.kids_attach (a := a) (i := i)
  have hpagec := h.page_attach (i := i) hp (by omega) hzero (x := pa2pte c ||| PTEV)
  have hnode := hrep.node_setPte (i := i) hp (by omega) (pa2pte c ||| PTEV)
    (fun _ b hb => by rw [hnone] at hb; cases hb)
    (fun _ b hb j => by
      rw [hkid, Option.some_inj] at hb
      rw [← hb]
      exact kids_of_fill_zero hpagec j)
  rw [hkid] at hnode
  have hpage : ∀ y b, pageIn m S y = some b → y ≠ .inl (q, p) →
      (m.setPte a i (pa2pte c ||| PTEV)).page b = m.page b :=
    fun y b hy hne => hrep.page_of_place hp (by omega) _ hy hne
  -- the entries of a page-table page that was there before
  have hentry : ∀ q' path b j, path.length ≤ 2 → node m (S.root q') path = some b →
      (¬ (q' = q ∧ path = p) ∨ j ≠ i) →
      (m.setPte a i (pa2pte c ||| PTEV)).page b j = m.page b j := by
    intro q' path b j hl hb hne
    by_cases hqp : q' = q ∧ path = p
    · have hba : b = a := by
        rw [hqp.1, hqp.2, hp, Option.some_inj] at hb
        exact hb.symm
      rw [hba, Rep.page_setPte_self, if_neg (hne.resolve_left (fun hc => hc hqp))]
    · rw [hpage (.inl (q', path)) b ((Rep.pageIn_table hl).trans hb)
        (fun he => hqp (Prod.mk.inj (Sum.inl.inj he)))]
  constructor
  · exact hrep.kend
  · have hown : pageIn (m.setPte a i (pa2pte c ||| PTEV)) S =
        update (pageIn m S) (.inl (q, p ++ [i])) (some c) := by
      funext y
      rcases y with ⟨q', path⟩ | k
      · by_cases hy : q' = q ∧ path = p ++ [i]
        · obtain ⟨rfl, rfl⟩ := hy
          rw [update_self, Rep.pageIn_table (by simp; omega), hnode _ _ (by simp; omega),
            if_pos ⟨rfl, rfl⟩]
        · rw [update_of_ne (fun he => hy (Prod.mk.inj (Sum.inl.inj he)))]
          unfold pageIn
          by_cases hc : Counted path
          · simp only [if_pos hc]
            rw [hnode q' path hc.1, if_neg hy]
          · simp only [if_neg hc]
      · rw [update_of_ne (by simp)]
        rfl
    rw [hown]
    exact h.pool.take _
  · intro q' path b j hl hb
    rw [hnode q' path (by omega)] at hb
    by_cases hy : q' = q ∧ path = p ++ [i]
    · rw [if_pos hy, Option.some_inj] at hb
      rw [← hb, hpagec, fill_zero_apply, hasFlag_zero]
      exact fun hc => absurd hc (by simp)
    · rw [if_neg hy] at hb
      by_cases hqp : (q' = q ∧ path = p) ∧ j = i
      · obtain ⟨⟨rfl, rfl⟩, rfl⟩ := hqp
        rw [hp, Option.some_inj] at hb
        subst hb
        intro _
        rw [Rep.page_setPte_self, if_pos rfl, pteFlags_or, pteFlags_pa2pte]
        rfl
      · rw [hentry q' path b j (by omega) hb (not_and_or.1 hqp)]
        exact hrep.inner q' path b j hl hb
  · intro q' b j hr hj
    rw [hentry q' [] b j (by simp) hr]
    · exact hrep.high q' b j hr hj
    · by_cases hqp : q' = q ∧ [] = p
      · right
        rintro rfl
        have := hlow hqp.2.symm
        omega
      · exact Or.inl hqp
  · exact hrep.hidden
  · intro q' v
    rw [← hrep.cell q' v]
    have hsame : entry (m.setPte a i (pa2pte c ||| PTEV)) (S.root q') v = entry m (S.root q') v := by
      unfold entry
      rw [hnode q' (tablePath v) (by simp)]
      by_cases hy : q' = q ∧ tablePath v = p ++ [i]
      · -- the new page-table page has no entries yet
        have hbefore : node m (S.root q') (tablePath v) = none := by
          rw [hy.1, hy.2]
          unfold node
          rw [descendant_snoc, show descendant (kids m) (S.root q) p = some a from hp,
            Option.bind_some, hnone]
        rw [if_pos hy, hbefore]
        show (m.setPte a i (pa2pte c ||| PTEV)).page c _ = 0
        rw [hpagec, fill_zero_apply]
        rfl
      · rw [if_neg hy]
        cases hu : node m (S.root q') (tablePath v) with
        | none => rfl
        | some u =>
          refine hentry q' (tablePath v) u _ (by simp) hu (Or.inl ?_)
          rintro ⟨-, he⟩
          have := congrArg List.length he
          rw [length_tablePath] at this
          omega
    unfold cellAt
    rw [hsame]
    refine leafOf_congr fun hv hval => hpage _ _ (Rep.pageIn_entry hv hval) (Rep.inl_ne_of_length ?_)
    rw [length_pagePath]
    omega
  · intro k b pg hk
    rw [hpage (.inr k) b (Rep.pageIn_box hk) (by simp)]
    exact hrep.box k b pg hk

/-- **It may be mapped** at a virtual page of the user that is not mapped. -/
theorem map [DecidableEq ρ] [DecidableEq κ]
    (ht : node m (S.root q) (tablePath v) = some t) (hv : ¬ Reserved v) {x : BitVec 64}
    (hx : hasFlag x PTEV = true) (hc : pte2pa x = c) :
    Rep (m.setPte t (px 0 (pageAddr v)) x) (S.setCell q v (some (x, m.page c))) := by
  have hpool := h.pool.take (.inl (q, pagePath v))
  have hleaf : leafPage v x = some c := by
    rw [leafPage, if_neg hv, if_pos hx, hc]
  have hset := h.drop.setLeaf ht x m.free (fun hr => absurd hr hv) (hleaf ▸ hpool)
  rwa [leafOf, if_pos hx, if_neg hv, hc] at hset

end

end Holding

/-! ### Boxes, reserved pages, contents -/

namespace Rep

variable {m : Mem} {S : MemMap ρ κ} {q : ρ} {k : κ} {v : Vpn} {a c t : ℕ} {pg : Page} {pte : BitVec 64}

theorem entry_of_cell (h : Rep m S) (hc : S.cell q v = some (pte, pg)) :
    entry m (S.root q) v = pte ∧ hasFlag pte PTEV = true := by
  have hcell := h.cell q v
  rw [hc] at hcell
  unfold cellAt leafOf at hcell
  by_cases hval : hasFlag (entry m (S.root q) v) PTEV = true
  · rw [if_pos hval, Option.some_inj, Prod.mk.injEq] at hcell
    rw [← hcell.1]
    exact ⟨rfl, hval⟩
  · simp [if_neg hval] at hcell

theorem entry_of_none (h : Rep m S) (hc : S.cell q v = none) :
    hasFlag (entry m (S.root q) v) PTEV = false := by
  have hcell := h.cell q v
  rw [hc] at hcell
  unfold cellAt leafOf at hcell
  by_cases hval : hasFlag (entry m (S.root q) v) PTEV = true
  · simp [if_pos hval] at hcell
  · exact Bool.not_eq_true _ ▸ hval

theorem cell_of_root_none (h : Rep m S) (hr : S.root q = none) (v : Vpn) : S.cell q v = none := by
  rw [← h.cell q v, hr]
  unfold cellAt entry node
  rw [descendant_none]
  exact if_neg (by simp)

theorem entry_of_table (ht : node m (S.root q) (tablePath v) = some t) :
    entry m (S.root q) v = m.page t (px 0 (pageAddr v)) := by
  unfold entry
  rw [ht]

variable [DecidableEq κ]

theorem pageIn_setBox_none (k : κ) [DecidableEq ρ] :
    pageIn m (S.setBox k none) = update (pageIn m S) (.inr k) none := by
  funext y
  rcases y with ⟨q', path⟩ | k'
  · rw [update_of_ne (by simp)]
    rfl
  · by_cases hk : k' = k
    · subst hk
      rw [update_self]
      show (update S.box k' none k').map Prod.fst = none
      rw [update_self]
      rfl
    · rw [update_of_ne (fun he => hk (Sum.inr.inj he))]
      show (update S.box k none k').map Prod.fst = (S.box k').map Prod.fst
      rw [update_of_ne hk]

theorem unbox [DecidableEq ρ] (h : Rep m S) (hk : S.box k = some (a, pg)) :
    Holding m a (S.setBox k none) := by
  refine ⟨h.kend, ?_, h.inner, h.high, h.hidden, h.cell, ?_⟩
  · show Pool (pageIn m (S.setBox k none)) (PageOk m.kend) (a :: m.free)
    rw [pageIn_setBox_none]
    exact h.pool.put (pageIn_box hk)
  · intro k' b pg' hk'
    replace hk' : update S.box k none k' = some (b, pg') := hk'
    by_cases hkk : k' = k
    · simp [hkk, update_self] at hk'
    · rw [update_of_ne hkk] at hk'
      exact h.box k' b pg' hk'

/-- **Writing to a page in a box.** -/
theorem setBox [DecidableEq ρ] (h : Rep m S) (hk : S.box k = some (a, pg)) (pg' : Page) :
    Rep (m.setPage a pg') (S.setBox k (some (a, pg'))) := by
  have hhold := ((h.unbox hk).write pg').box k
  rw [page_setPage_self] at hhold
  have hstore : (S.setBox k none).setBox k (some (a, pg')) = S.setBox k (some (a, pg')) := by
    unfold MemMap.setBox
    simp
  rwa [hstore] at hhold

variable [DecidableEq ρ]

/-- **A page of the user is unmapped** and is in hand. -/
theorem unmap (h : Rep m S) (ht : node m (S.root q) (tablePath v) = some t) (hv : ¬ Reserved v)
    (hc : S.cell q v = some (pte, pg)) :
    Holding (m.setPte t (px 0 (pageAddr v)) 0) (pte2pa pte) (S.setCell q v none) := by
  have hown := (h.pageIn_cell hv hc).1
  have hpool := h.pool.put hown
  have hleaf : leafPage v 0 = none := by
    rw [leafPage, if_neg hv, if_neg (by simp)]
  have hset := h.setLeaf ht 0 (pte2pa pte :: m.free) (fun hr => absurd hr hv) (hleaf ▸ hpool)
  have hnone : leafOf m v 0 = none := if_neg (by simp)
  rwa [hnone] at hset

/-- An entry of the trampoline or of the trapframe is written. -/
theorem setReserved (h : Rep m S) (ht : node m (S.root q) (tablePath v) = some t) (hv : Reserved v)
    {x : BitVec 64} (hx : hasFlag x PTEU = false) :
    Rep (m.setPte t (px 0 (pageAddr v)) x) (S.setCell q v (leafOf m v x)) := by
  have hleaf : leafPage v x = pageIn m S (.inl (q, pagePath v)) := by
    rw [leafPage, if_pos hv]
    exact (if_neg fun hc => counted_pagePath.1 hc hv).symm
  apply h.setLeaf ht x m.free fun _ => hx
  rw [hleaf, update_eq_self]
  exact h.pool

theorem setFlags (h : Rep m S) (ht : node m (S.root q) (tablePath v) = some t) (hv : ¬ Reserved v)
    (hc : S.cell q v = some (pte, pg)) {x : BitVec 64} (hx : hasFlag x PTEV = true)
    (hpa : pte2pa x = pte2pa pte) :
    Rep (m.setPte t (px 0 (pageAddr v)) x) (S.setCell q v (some (x, pg))) := by
  obtain ⟨hown, hpage⟩ := h.pageIn_cell hv hc
  have hleaf : leafPage v x = pageIn m S (.inl (q, pagePath v)) := by
    rw [leafPage, if_neg hv, if_pos hx, hpa, hown]
  have hset := h.setLeaf ht x m.free (fun hr => absurd hr hv) (by
    rw [hleaf, update_eq_self]
    exact h.pool)
  rwa [leafOf, if_pos hx, if_neg hv, hpa, hpage] at hset

omit [DecidableEq κ] in
/-- **Writing to a page of the user** changes the contents of one cell. -/
theorem setCell (h : Rep m S) (hv : ¬ Reserved v) (hc : S.cell q v = some (pte, pg)) (pg' : Page) :
    Rep (m.setPage (pte2pa pte) pg') (S.setCell q v (some (pte, pg'))) := by
  obtain ⟨hown, -⟩ := h.pageIn_cell hv hc
  have hpage : ∀ y b, pageIn m S y = some b → y ≠ .inl (q, pagePath v) →
      (m.setPage (pte2pa pte) pg').page b = m.page b := by
    intro y b hy hne
    apply page_setPage_of_ne
    rintro rfl
    exact hne (h.pool.inj y _ _ hy hown)
  have htable : ∀ q path b, path.length ≤ 2 → node m (S.root q) path = some b →
      (m.setPage (pte2pa pte) pg').page b = m.page b := by
    intro q' path b hl hb
    have hb' : pageIn m S (.inl (q', path)) = some b := (pageIn_table hl).trans hb
    apply hpage _ b hb'
    apply inl_ne_of_length
    rw [length_pagePath]
    omega
  have hnode := node_congr htable
  have hentry := entry_congr htable
  constructor
  · exact h.kend
  · have hsame : pageIn (m.setPage (pte2pa pte) pg') (S.setCell q v (some (pte, pg'))) = pageIn m S := by
      funext y
      rcases y with ⟨q', path⟩ | k
      · show (if Counted path then node (m.setPage (pte2pa pte) pg') (S.root q') path else none) = _
        by_cases hcount : Counted path
        · rw [if_pos hcount, hnode q' path hcount.1]
          exact (if_pos hcount).symm
        · rw [if_neg hcount]
          exact (if_neg hcount).symm
      · rfl
    rw [hsame]
    exact h.pool
  · intro q' path b j hl hb
    replace hb := (hnode q' path (by omega)).symm.trans hb
    rw [htable q' path b (by omega) hb]
    exact h.inner q' path b j hl hb
  · intro q' b j hr hj
    rw [htable q' [] b (by simp) hr]
    exact h.high q' b j hr hj
  · intro q' w pte' pg₁ hw hc'
    rw [MemMap.cell_setCell] at hc'
    by_cases hqw : q' = q ∧ w = v
    · exact absurd (hqw.2 ▸ hw) hv
    · rw [if_neg hqw] at hc'
      exact h.hidden q' w pte' pg₁ hw hc'
  · intro q' w
    rw [MemMap.cell_setCell, MemMap.root_setCell, cellAt, hentry]
    by_cases hqw : q' = q ∧ w = v
    · obtain ⟨rfl, rfl⟩ := hqw
      obtain ⟨he, hval⟩ := h.entry_of_cell hc
      rw [he, leafOf, if_pos hval, if_neg hv, page_setPage_self]
      simp
    · rw [if_neg hqw, ← h.cell q' w]
      apply leafOf_congr
      intro hw hval
      apply hpage (.inl (q', pagePath w)) _ (pageIn_entry hw hval)
      intro heq
      obtain ⟨hq, hpath⟩ := Prod.mk.inj (Sum.inl.inj heq)
      exact hqw ⟨hq, pagePath_injective hpath⟩
  · intro k b pg₁ hk
    rw [hpage (.inr k) b (pageIn_box (S := S) hk) (by simp)]
    exact h.box k b pg₁ hk

omit [DecidableEq κ] [DecidableEq ρ] in
theorem reindex {ρ' : Type} (h : Rep m S) {e : ρ' → ρ} (he : Injective e) :
    Rep m (S.reindex e) := by
  constructor
  · exact h.kend
  · refine h.pool.comap (Sum.map (Prod.map e id) id) (fun x y _ _ _ hxy => ?_) fun x a hx => ?_
    · exact Sum.map_injective.2 ⟨he.prodMap injective_id, injective_id⟩ hxy
    · rcases x with ⟨q, path⟩ | k
      · exact hx
      · exact hx
  · exact fun q => h.inner (e q)
  · exact fun q => h.high (e q)
  · exact fun q => h.hidden (e q)
  · exact fun q => h.cell (e q)
  · exact h.box

end Rep

end Xv6
