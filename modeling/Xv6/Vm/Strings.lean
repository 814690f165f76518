import Xv6.Vm.Bytewise

/-!
# Fetching strings (`vm.c`, `syscall.c`)

`copyinstr` has two loops: one over the pages of the string, one over the bytes of a page; both count down
`max`.  The model keeps the bytes stored at `dst`, whether the null was found, and the pages looked at.

* `strPage`, `copyinstrLoop`, `copyinstrRun`: the loops;
* `copyinstr_bytewise`: **the string up to its null is fetched**, at most `max` bytes are stored, and no
  page after the one of the null is looked at;
* `copyinstrRun_eq`: the result is that of `copyinstr`, which takes one byte at a time;
* `fetchstr`: it returns the length of the string, by the same theorem.
-/

namespace Xv6

open Stateful List

/-- What `copyinstr` has done: the bytes stored, whether one of them is the null, and the pages looked
at. -/
structure StrCopy where
  dst : List Byte
  gotNull : Bool
  pages : List ℕ

/-- The inner loop: at most `n` bytes of a page, from offset `p` on. -/
def strPage (pg : Page) : ℕ → ℕ → List Byte × Bool
  | _, 0 => ([], false)
  | p, n + 1 =>
    if pg.byte p = 0 then ([0], true)
    else
      let r := strPage pg (p + 1) n
      (pg.byte p :: r.1, r.2)

/-- The outer loop. -/
def copyinstrLoop (m : Mem) (pt : ℕ) : ℕ → ℕ → ℕ → StrCopy
  | 0, _, _ => ⟨[], false, []⟩
  | fuel + 1, srcva, max =>
    if 0 < max then
      let va0 := pgRoundDown srcva
      let pa0 := walkaddr m pt va0
      if pa0 = 0 then ⟨[], false, [va0]⟩
      else
        let n := min (PGSIZE - (srcva - va0)) max
        let r := strPage (m.page pa0) (srcva - va0) n
        if r.2 then ⟨r.1, true, [va0]⟩
        else
          let t := copyinstrLoop m pt fuel (add64 va0 PGSIZE) (max - n)
          ⟨r.1 ++ t.dst, t.gotNull, va0 :: t.pages⟩
    else ⟨[], false, []⟩

/-- Copy a null-terminated string from user to kernel. -/
def copyinstrRun (m : Mem) (pt srcva max : ℕ) : StrCopy := copyinstrLoop m pt (max + 1) srcva max

/-- The length of a string. -/
def strlen : List Byte → ℕ
  | [] => 0
  | b :: bs => if b = 0 then 0 else strlen bs + 1

/-- Fetch the null-terminated string at `addr` into `buf`. Returns its length, or -1 for an error. -/
def fetchstr (m : Mem) (pt addr max : ℕ) (buf : List Byte) : ℤ × List Byte :=
  let r := copyinstrRun m pt addr max
  let buf := r.dst ++ buf.drop r.dst.length
  if !r.gotNull then (-1, buf) else (strlen buf, buf)

variable {m : Mem} {pt va max : ℕ}

/-! ### The loops -/

/-- The first `k` bytes are not null. -/
def NoNull (m : Mem) (pt va k : ℕ) : Prop := ∀ j < k, byteAt m pt (va + j) ≠ 0

/-- A string of length `k`: the first null is `k` bytes after the start, and the user may read up to it. -/
structure IsStr (m : Mem) (pt va k : ℕ) : Prop where
  readable : ∀ j ≤ k, Readable m pt (va + j)
  noNull : NoNull m pt va k
  null : byteAt m pt (va + k) = 0

theorem IsStr.add {a k : ℕ} (hr : ∀ j < a, Readable m pt (va + j)) (hn : NoNull m pt va a)
    (h : IsStr m pt (va + a) k) : IsStr m pt va (a + k) where
  readable j hj := by
    by_cases hja : j < a
    · exact hr j hja
    · have := h.readable (j - a) (by omega)
      rwa [show va + a + (j - a) = va + j by omega] at this
  noNull j hj := by
    by_cases hja : j < a
    · exact hn j hja
    · have := h.noNull (j - a) (by omega)
      rwa [show va + a + (j - a) = va + j by omega] at this
  null := by
    rw [← Nat.add_assoc]
    exact h.null

theorem IsStr.drop {a k : ℕ} (h : IsStr m pt va (a + k)) : IsStr m pt (va + a) k := by
  refine ⟨fun j hj => ?_, fun j hj => ?_, ?_⟩ <;> rw [Nat.add_assoc]
  · exact h.readable (a + j) (by omega)
  · exact h.noNull (a + j) (by omega)
  · exact h.null

/-- A null that the user may read up to ends a string. -/
theorem exists_isStr {k : ℕ} (hr : ∀ j ≤ k, Readable m pt (va + j)) (h0 : byteAt m pt (va + k) = 0) :
    ∃ i ≤ k, IsStr m pt va i := by
  classical
  have hex : ∃ j, byteAt m pt (va + j) = 0 := ⟨k, h0⟩
  refine ⟨Nat.find hex, Nat.find_min' hex h0, ?_, fun j hj => Nat.find_min hex hj, Nat.find_spec hex⟩
  exact fun j hj => hr j (hj.trans (Nat.find_min' hex h0))

theorem strPage_eq {pg : Page} {n p : ℕ} (hpg : ∀ j < n, pg.byte (p + j) = byteAt m pt (va + j)) :
    (NoNull m pt va n ∧ strPage pg p n = (bytesAt m pt va n, false)) ∨
    ∃ k < n, NoNull m pt va k ∧ byteAt m pt (va + k) = 0 ∧
      strPage pg p n = (bytesAt m pt va (k + 1), true) := by
  induction n generalizing p va with
  | zero => exact Or.inl ⟨fun j hj => absurd hj (Nat.not_lt_zero _), rfl⟩
  | succ n ih =>
    have h0 : pg.byte p = byteAt m pt va := hpg 0 (Nat.succ_pos n)
    have hone : ∀ i, bytesAt m pt va (i + 1) = byteAt m pt va :: bytesAt m pt (va + 1) i := by
      intro i
      rw [Nat.add_comm i 1, bytesAt_add]
      rfl
    rw [strPage]
    by_cases hz : pg.byte p = 0
    · right
      rw [if_pos hz]
      refine ⟨0, Nat.succ_pos n, fun j hj => absurd hj (Nat.not_lt_zero _), h0.symm.trans hz, ?_⟩
      rw [hone, ← h0, hz]
      rfl
    · rw [if_neg hz]
      have hcons : ∀ i, NoNull m pt (va + 1) i → NoNull m pt va (i + 1) := by
        intro i hi j hj
        cases j with
        | zero => exact fun h => hz (h0.trans h)
        | succ j =>
          have := hi j (by omega)
          rwa [show va + 1 + j = va + (j + 1) by omega] at this
      have hpg' : ∀ j < n, pg.byte (p + 1 + j) = byteAt m pt (va + 1 + j) := fun j hj => by
        have := hpg (j + 1) (by omega)
        rwa [show p + (j + 1) = p + 1 + j by omega, show va + (j + 1) = va + 1 + j by omega] at this
      rcases ih hpg' with ⟨hno, hr⟩ | ⟨k, hk, hno, hnull, hr⟩
      · left
        refine ⟨hcons n hno, ?_⟩
        rw [hr, hone, h0]
      · right
        refine ⟨k + 1, by omega, hcons k hno, ?_, ?_⟩
        · rwa [show va + (k + 1) = va + 1 + k by omega]
        · rw [hr, hone (k + 1), h0]

/-- What the outer loop does: it fetches a string of less than `max` bytes, or it finds none. -/
inductive Fetched (m : Mem) (pt va max : ℕ) (r : StrCopy) : Prop
  | str (k : ℕ) (hk : k < max) (h : IsStr m pt va k) (hdst : r.dst = bytesAt m pt va (k + 1))
      (hnull : r.gotNull = true) (hpages : ∀ p ∈ r.pages, p ≤ va + k)
  | none (hno : ∀ k < max, ¬ IsStr m pt va k) (hlen : r.dst.length ≤ max) (hnull : r.gotNull = false)

theorem copyinstrLoop_fetched (h : NonNull m pt) {fuel max : ℕ} (hf : max < fuel) (va : ℕ)
    (hva : va < 2 ^ 64) : Fetched m pt va max (copyinstrLoop m pt fuel va max) := by
  -- every round takes at least one byte, so the fuel lasts
  induction fuel generalizing va max with
  | zero => exact absurd hf (Nat.not_lt_zero _)
  | succ fuel ih =>
    have hmax : MAXVA = 2 ^ 38 := rfl
    have hdown := pgRoundDown_eq va
    rw [copyinstrLoop]
    dsimp only
    by_cases h0 : 0 < max
    swap
    · rw [if_neg h0]
      exact .none (fun k hk => absurd hk (by omega)) (Nat.zero_le _) rfl
    rw [if_pos h0]
    by_cases hr : Readable m pt va
    swap
    · rw [if_pos (walkaddr_pgRoundDown_eq_zero hr)]
      exact .none (fun k _ hs => hr (hs.readable 0 (Nat.zero_le k))) (Nat.zero_le _) rfl
    rw [page_pgRoundDown hr, if_neg (h va hr)]
    have hlt := hr.1
    obtain ⟨hoff, hnext⟩ := page_step hlt
    rw [hoff, hnext, show PGSIZE = 4096 from rfl]
    obtain ⟨a, ha⟩ : ∃ a, a = min (4096 - va % 4096) max := ⟨_, rfl⟩
    rw [← ha]
    have hgood : ∀ k < a, Readable m pt (va + k) := fun k hk => (readable_congr (by omega)).2 hr
    have hbytes : ∀ j < a, (m.page (frameAt m pt va)).byte (va % 4096 + j) = byteAt m pt (va + j) :=
      fun j hj => byte_page (by omega)
    rcases strPage_eq hbytes with ⟨hno, hpage⟩ | ⟨k, hk, hno, hnull, hpage⟩
    · -- no null in this page
      rw [hpage]
      dsimp only
      rw [if_neg (by simp)]
      have hlen : (bytesAt m pt va a).length = a := by simp [bytesAt]
      have hf' : max - a < fuel := by omega
      by_cases hend : max = a
      · cases ih hf' (va / 4096 * 4096 + 4096) (by omega) with
        | str k hk => exact absurd hk (by omega)
        | none _ hl hn =>
          refine .none (fun k hk hs => hno k (by omega) hs.null) ?_ hn
          show (bytesAt m pt va a ++ _).length ≤ max
          rw [length_append, hlen]
          omega
      · have haddr : va / 4096 * 4096 + 4096 = va + a := by omega
        rw [haddr]
        cases ih hf' (va + a) (by omega) with
        | str k hk hs hdst hn hpages =>
          refine .str (a + k) (by omega) (hs.add hgood hno) ?_ hn ?_
          · show bytesAt m pt va a ++ _ = _
            rw [hdst, Nat.add_assoc, bytesAt_add a (k + 1)]
          · intro p hp
            rcases mem_cons.1 hp with rfl | hp
            · omega
            · have := hpages p hp
              omega
        | none hnone hl hn =>
          refine .none (fun k hk hs => ?_) ?_ hn
          · by_cases hka : k < a
            · exact hno k hka hs.null
            · obtain ⟨d, rfl⟩ : ∃ d, k = a + d := ⟨k - a, by omega⟩
              exact hnone d (by omega) hs.drop
          · show (bytesAt m pt va a ++ _).length ≤ max
            rw [length_append, hlen]
            omega
    · -- the null is in this page
      rw [hpage]
      dsimp only
      rw [if_pos rfl]
      refine .str k (by omega) ⟨fun j hj => hgood j (by omega), hno, hnull⟩ rfl rfl ?_
      intro p hp
      rw [mem_singleton.1 hp]
      omega

theorem copyinstrRun_fetched (h : NonNull m pt) (hva : va < 2 ^ 64) (max : ℕ) :
    Fetched m pt va max (copyinstrRun m pt va max) :=
  copyinstrLoop_fetched h (Nat.lt_succ_self max) va hva

/-! ### The string -/

/-- `copyinstr` in the calls of the kernel takes one byte at a time. -/
theorem copyinstr_succ (h : NonNull m pt) (hr : Readable m pt va) (max : ℕ) :
    copyinstr m pt va (max + 1) =
      if byteAt m pt va = 0 then some [] else (copyinstr m pt (va + 1) max).map (byteAt m pt va :: ·) := by
  have hmax : MAXVA = 2 ^ 38 := rfl
  have hlt := hr.1
  rw [copyinstr]
  dsimp only
  rw [page_pgRoundDown hr, if_neg (h va hr), (page_step hlt).1, add64_eq (by omega)]
  rfl

theorem copyinstr_of_isStr (h : NonNull m pt) {k : ℕ} (hk : k < max) (hs : IsStr m pt va k) :
    copyinstr m pt va max = some (bytesAt m pt va k) := by
  induction max generalizing va k with
  | zero => exact absurd hk (Nat.not_lt_zero _)
  | succ max ih =>
    have hr : Readable m pt va := hs.readable 0 (Nat.zero_le k)
    rw [copyinstr_succ h hr]
    cases k with
    | zero =>
      have h0 : byteAt m pt va = 0 := hs.null
      rw [if_pos h0]
      rfl
    | succ k =>
      have hne : byteAt m pt va ≠ 0 := hs.noNull 0 (Nat.succ_pos k)
      rw [Nat.add_comm] at hs
      rw [if_neg hne, ih (by omega) hs.drop, Nat.add_comm k 1, bytesAt_add]
      rfl

theorem copyinstr_of_not_isStr (h : NonNull m pt) (hva : va < 2 ^ 64) (hno : ∀ k < max, ¬ IsStr m pt va k) :
    copyinstr m pt va max = none := by
  induction max generalizing va with
  | zero => rfl
  | succ max ih =>
    by_cases hr : Readable m pt va
    · have hlt : va + 1 < 2 ^ 64 := lt_of_le_of_lt hr.1 (by decide)
      have hne : byteAt m pt va ≠ 0 := fun h0 => hno 0 (Nat.succ_pos max)
        ⟨fun j hj => by rwa [Nat.le_zero.1 hj], fun j hj => absurd hj (Nat.not_lt_zero _), h0⟩
      rw [copyinstr_succ h hr, if_neg hne, ih hlt]
      · rfl
      · intro k hk hs
        refine hno (k + 1) (by omega) ?_
        rw [Nat.add_comm k 1]
        exact IsStr.add (fun j hj => by rwa [Nat.lt_one_iff.1 hj])
          (fun j hj => by rwa [Nat.lt_one_iff.1 hj]) hs
    · rw [copyinstr]
      dsimp only
      rw [if_pos (walkaddr_pgRoundDown_eq_zero hr)]

/-- **The two loops fetch what `copyinstr` fetches** in the calls of the kernel. -/
theorem copyinstrRun_eq (h : NonNull m pt) (hva : va < 2 ^ 64) (max : ℕ) :
    copyinstr m pt va max = if (copyinstrRun m pt va max).gotNull then
      some (copyinstrRun m pt va max).dst.dropLast else none := by
  cases copyinstrRun_fetched h hva max with
  | str k hk hs hdst hnull hpages =>
    rw [if_pos hnull, hdst, copyinstr_of_isStr h hk hs, bytesAt_add]
    simp [bytesAt]
  | none hno hlen hnull => rw [hnull, if_neg (by simp), copyinstr_of_not_isStr h hva hno]

theorem strlen_append {l : List Byte} (h : 0 ∉ l) (rest : List Byte) :
    strlen (l ++ 0 :: rest) = l.length := by
  induction l with
  | nil => rfl
  | cons b l ih =>
    have hb : b ≠ 0 := fun hb => h (hb ▸ mem_cons_self)
    rw [cons_append, strlen, if_neg hb, ih fun hm => h (mem_cons_of_mem b hm), length_cons]

theorem IsStr.strlen_eq {k : ℕ} (h : IsStr m pt va k) (rest : List Byte) :
    strlen (bytesAt m pt va (k + 1) ++ rest) = k := by
  have hone : bytesAt m pt (va + k) 1 = [0] := by
    show [byteAt m pt (va + k + 0)] = [0]
    rw [Nat.add_zero, h.null]
  have hno : (0 : Byte) ∉ bytesAt m pt va k := by
    intro hm
    obtain ⟨j, hj, h0⟩ := mem_map.1 hm
    exact h.noNull j (mem_range.1 hj) h0
  rw [bytesAt_add, hone, append_assoc, singleton_append, strlen_append hno]
  simp [bytesAt]

/-- **`copyinstr` fetches exactly the string.**  It succeeds exactly when there is a null among the first
`max` bytes and the user may read all bytes up to it.  Then it has stored these bytes, it has looked at no
page after the one of the null, and `fetchstr` returns the length.  It never stores more than `max`
bytes. -/
theorem copyinstr_bytewise (h : NonNull m pt) (hva : va < 2 ^ 64) (max : ℕ) (buf : List Byte) :
    ((copyinstrRun m pt va max).gotNull = true ↔
      ∃ k < max, (∀ j ≤ k, Readable m pt (va + j)) ∧ byteAt m pt (va + k) = 0) ∧
    ((copyinstrRun m pt va max).gotNull = true → ∃ k < max, IsStr m pt va k ∧
      (copyinstrRun m pt va max).dst = bytesAt m pt va (k + 1) ∧
      (∀ p ∈ (copyinstrRun m pt va max).pages, p ≤ va + k) ∧
      fetchstr m pt va max buf = ((k : ℤ), bytesAt m pt va (k + 1) ++ buf.drop (k + 1))) ∧
    ((copyinstrRun m pt va max).gotNull = false → (fetchstr m pt va max buf).1 = -1) ∧
    (copyinstrRun m pt va max).dst.length ≤ max := by
  have hfetched := copyinstrRun_fetched h hva max
  generalize hrun : copyinstrRun m pt va max = r at *
  cases hfetched with
  | str k hk hs hdst hnull hpages =>
    have hlen : r.dst.length = k + 1 := by simp [hdst, bytesAt]
    refine ⟨iff_of_true hnull ⟨k, hk, hs.readable, hs.null⟩,
      fun _ => ⟨k, hk, hs, hdst, hpages, ?_⟩, ?_, by omega⟩
    · unfold fetchstr
      rw [hrun]
      dsimp only
      rw [hnull, if_neg (by simp), hlen, hdst, hs.strlen_eq]
    · intro hf
      rw [hnull] at hf
      cases hf
  | none hno hlen hnull =>
    refine ⟨iff_of_false (by simp [hnull]) ?_, fun ht => by simp [hnull] at ht, fun _ => ?_, hlen⟩
    · rintro ⟨k, hk, hr, h0⟩
      obtain ⟨i, hi, hs⟩ := exists_isStr hr h0
      exact hno i (by omega) hs
    · unfold fetchstr
      rw [hrun]
      dsimp only
      rw [hnull, if_pos (by simp)]

theorem hi_evaluated : (copyinstrRun onePage 4096 0 10).gotNull = true ∧
    (copyinstrRun onePage 4096 0 10).dst = [0x68, 0x69, 0] := by
  decide +kernel

/-- The string at the start of the only page of a table is `hi`. -/
theorem copyinstr_bytewise_onePage : ∃ k < 10, IsStr onePage 4096 0 k ∧
    bytesAt onePage 4096 0 (k + 1) = [0x68, 0x69, 0] := by
  obtain ⟨hnull, hdst⟩ := hi_evaluated
  obtain ⟨k, hk, hstr, hbytes, -⟩ := (copyinstr_bytewise onePage_sound.nonNull (by decide) 10 []).2.1 hnull
  exact ⟨k, hk, hstr, hbytes.symm.trans hdst⟩

end Xv6
