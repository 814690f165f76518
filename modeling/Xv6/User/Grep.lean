import Mathlib.Tactic
import Mathlib.Data.List.TakeWhile

/-!
# `grep` (`grep.c`)

A string is the list of its characters before the null.

* `matchhere`, `matchstar`, `search`: the matcher; the recursion is on the expression, and `matchstar` goes
  along the text with what it does on the rest of the expression;
* `items`, `Lang`: the expression read as a list of items, and their language;
* `match_iff`: **the matcher decides the language**;
* `grep`: the loop over the buffer, for reads of any length;
* `grep_lines`: **the matching lines are written**, exactly when none of them comes at or after a line that
  does not end or does not fit the buffer.
-/

namespace Xv6.Grep

open List

/-! ### The matcher -/

/-- A character of the expression, read as itself or as any character. -/
def fits (c x : Char) : Bool := c == '.' || c == x

/-- Search for `c*` and then what `here` accepts, at the beginning of the text. -/
def matchstar (here : List Char → Bool) (c : Char) : List Char → Bool
  | [] => here []
  | x :: text => here (x :: text) || (fits c x && matchstar here c text)

/-- Search for the expression at the beginning of the text. -/
def matchhere : List Char → List Char → Bool
  | [], _ => true
  | c :: '*' :: re, text => matchstar (matchhere re) c text
  | ['$'], text => text.isEmpty
  | _ :: _, [] => false
  | c :: re, x :: text => fits c x && matchhere re text

/-- The loop of `match` over the suffixes of the text. -/
def search (re : List Char) : List Char → Bool
  | [] => matchhere re []
  | x :: text => matchhere re (x :: text) || search re text

/-- `match` of the source. -/
def match_ : List Char → List Char → Bool
  | '^' :: re, text => matchhere re text
  | re, text => search re text

/-! ### The language -/

/-- An expression is a list of items. -/
inductive Item
  | star (c : Char)
  | one (c : Char)
  /-- The end of the text. -/
  | eot

def items : List Char → List Item
  | [] => []
  | c :: '*' :: re => .star c :: items re
  | ['$'] => [.eot]
  | c :: re => .one c :: items re

/-- The word `w`, which `rest` follows in the text, is in the language of the items. -/
inductive Lang : List Item → List Char → List Char → Prop
  | nil (rest) : Lang [] [] rest
  | star {c its w rest} (u : List Char) (hu : ∀ x ∈ u, fits c x = true) (h : Lang its w rest) :
      Lang (.star c :: its) (u ++ w) rest
  | one {c x its w rest} (hx : fits c x = true) (h : Lang its w rest) : Lang (.one c :: its) (x :: w) rest
  | eot : Lang [.eot] [] []

/-- The items at the beginning of the text. -/
def Begins (its : List Item) (text : List Char) : Prop := ∃ w rest, text = w ++ rest ∧ Lang its w rest

theorem matchstar_iff (here : List Char → Bool) (c : Char) (text : List Char) :
    matchstar here c text = true ↔ ∃ u t, text = u ++ t ∧ (∀ x ∈ u, fits c x = true) ∧ here t = true := by
  induction text with
  | nil => simp [matchstar]
  | cons x text ih =>
    rw [matchstar, Bool.or_eq_true, Bool.and_eq_true, ih]
    constructor
    · rintro (h | ⟨hx, u, t, rfl, hu, ht⟩)
      · exact ⟨[], x :: text, rfl, by simp, h⟩
      · exact ⟨x :: u, t, rfl, by simpa using ⟨hx, hu⟩, ht⟩
    · rintro ⟨u, t, he, hu, ht⟩
      cases u with
      | nil =>
        rw [nil_append] at he
        exact .inl (he ▸ ht)
      | cons y u =>
        obtain ⟨rfl, rfl⟩ := cons_eq_cons.1 he
        rw [forall_mem_cons] at hu
        exact .inr ⟨hu.1, u, t, rfl, hu.2, ht⟩

theorem begins_star {c : Char} {its : List Item} {text : List Char} :
    Begins (.star c :: its) text ↔ ∃ u t, text = u ++ t ∧ (∀ x ∈ u, fits c x = true) ∧ Begins its t := by
  constructor
  · rintro ⟨_, rest, rfl, h⟩
    cases h with
    | @star _ _ w _ u hu h => exact ⟨u, w ++ rest, append_assoc .., hu, w, rest, rfl, h⟩
  · rintro ⟨u, _, rfl, hu, w, rest, rfl, h⟩
    exact ⟨u ++ w, rest, (append_assoc ..).symm, .star u hu h⟩

theorem begins_one {c : Char} {its : List Item} {text : List Char} :
    Begins (.one c :: its) text ↔ ∃ x t, text = x :: t ∧ fits c x = true ∧ Begins its t := by
  constructor
  · rintro ⟨_, rest, rfl, h⟩
    cases h with
    | @one _ x _ w _ hx h => exact ⟨x, w ++ rest, rfl, hx, w, rest, rfl, h⟩
  · rintro ⟨x, _, rfl, hx, w, rest, rfl, h⟩
    exact ⟨x :: w, rest, rfl, .one hx h⟩

theorem begins_eot {text : List Char} : Begins [.eot] text ↔ text = [] := by
  constructor
  · rintro ⟨_, _, rfl, h⟩
    cases h
    rfl
  · rintro rfl
    exact ⟨[], [], rfl, .eot⟩

theorem matchhere_iff (re text : List Char) : matchhere re text = true ↔ Begins (items re) text := by
  -- the cases are those in which `items` reads the expression
  induction re using items.induct generalizing text with
  | case1 => exact iff_of_true (by simp [matchhere]) ⟨[], text, rfl, .nil _⟩
  | case2 c re ih =>
    rw [matchhere, items, matchstar_iff, begins_star]
    simp only [ih]
  | case3 => rw [matchhere, items, begins_eot, List.isEmpty_iff]
  | case4 c re hstar hend ih =>
    rw [items, begins_one]
    · cases text with
      | nil => simp [matchhere]
      | cons x text => simp [matchhere, ih]
    all_goals assumption

theorem search_iff (re text : List Char) :
    search re text = true ↔ ∃ pre t, text = pre ++ t ∧ Begins (items re) t := by
  induction text with
  | nil => simp [search, matchhere_iff]
  | cons x text ih =>
    rw [search, Bool.or_eq_true, matchhere_iff, ih]
    constructor
    · rintro (h | ⟨pre, t, rfl, h⟩)
      · exact ⟨[], x :: text, rfl, h⟩
      · exact ⟨x :: pre, t, rfl, h⟩
    · rintro ⟨pre, t, he, h⟩
      cases pre with
      | nil => exact .inl (he ▸ h)
      | cons y pre =>
        obtain ⟨rfl, rfl⟩ := cons_eq_cons.1 he
        exact .inr ⟨pre, t, rfl, h⟩

/-- **The matcher decides its language**: some part of the text is in the language of the items, a prefix of
it if the expression starts with `^`, which is no item then. -/
theorem match_iff (re text : List Char) : match_ re text = true ↔
    ∃ pre w post, text = pre ++ w ++ post ∧ (re.head? = some '^' → pre = []) ∧
      Lang (items (if re.head? = some '^' then re.tail else re)) w post := by
  by_cases hre : re.head? = some '^'
  · obtain ⟨re, rfl⟩ : ∃ r, re = '^' :: r := ⟨re.tail, (cons_head?_tail hre).symm⟩
    rw [match_, matchhere_iff]
    constructor
    · rintro ⟨w, post, rfl, h⟩
      exact ⟨[], w, post, rfl, fun _ => rfl, h⟩
    · rintro ⟨pre, w, post, rfl, hpre, h⟩
      rw [hpre rfl]
      exact ⟨w, post, rfl, h⟩
  · have hm : match_ re text = search re text := by
      unfold match_
      split
      · exact absurd rfl hre
      · rfl
    rw [hm, search_iff, if_neg hre]
    constructor
    · rintro ⟨pre, _, rfl, w, post, rfl, h⟩
      exact ⟨pre, w, post, (append_assoc ..).symm, fun hc => absurd hc hre, h⟩
    · rintro ⟨pre, w, post, rfl, -, h⟩
      exact ⟨pre, w ++ post, append_assoc .., w, post, rfl, h⟩

/-! ### Lines -/

/-- The offset of a character in a string. -/
def strchr (c : Char) : List Char → Option ℕ
  | [] => none
  | x :: s => if x = '\x00' then none else if x = c then some 0 else (strchr c s).map (· + 1)

/-- The inner loop of `grep` from `p` on: what it writes, and the rest without a newline. -/
def scan (pattern : List Char) : ℕ → List Char → List Char × List Char
  | 0, p => ([], p)
  | fuel + 1, p =>
    match strchr '\n' p with
    | none => ([], p)
    | some k =>
      let (out, rest) := scan pattern fuel (p.drop (k + 1))
      ((if match_ pattern (p.take k) then p.take (k + 1) else []) ++ out, rest)

/-- The size of `buf`. -/
def BUFSZ : ℕ := 1024

/-- The outer loop, with the characters `buf` left from the reads before and the rest of the file.  The
`i`-th read returns `cut i` characters, but at least one, if there are as many and there is room. -/
def grepLoop (pattern : List Char) (cut : ℕ → ℕ) : ℕ → ℕ → List Char → List Char → List Char
  | 0, _, _, _ => []
  | fuel + 1, i, buf, file =>
    let n := min (min (max 1 (cut i)) (BUFSZ - buf.length - 1)) file.length
    if n = 0 then []
    else
      let m := buf ++ file.take n
      let (out, rest) := scan pattern m.length m
      out ++ grepLoop pattern cut fuel (i + 1) rest (file.drop n)

/-- What `grep` writes. -/
def grep (pattern : List Char) (cut : ℕ → ℕ) (file : List Char) : List Char :=
  grepLoop pattern cut (file.length + 1) 0 [] file

/-- The file with these lines. -/
def unlines (ls : List (List Char)) : List Char := ls.flatMap (· ++ ['\n'])

/-- A line is a string without newline. -/
def Line (l : List Char) : Prop := '\n' ∉ l ∧ '\x00' ∉ l

variable {pattern rest t file buf long : List Char} {ls : List (List Char)}

theorem unlines_cons (l : List Char) (ls : List (List Char)) : unlines (l :: ls) =
    (l ++ ['\n']) ++ unlines ls := rfl

theorem length_le_unlines (ls : List (List Char)) : ls.length ≤ (unlines ls).length := by
  induction ls with
  | nil => exact le_rfl
  | cons l ls ih =>
    rw [unlines_cons, length_append, length_append, length_cons, length_singleton]
    omega

theorem strchr_line {l : List Char} (h : Line l) (t : List Char) : strchr '\n' (l ++ '\n' :: t) =
    some l.length := by
  induction l with
  | nil => rfl
  | cons x l ih =>
    obtain ⟨hn, h0⟩ := h
    rw [mem_cons, not_or] at hn h0
    rw [cons_append, strchr, if_neg (Ne.symm h0.1), if_neg (Ne.symm hn.1), ih ⟨hn.2, h0.2⟩]
    rfl

theorem strchr_none (h : '\n' ∉ rest) : strchr '\n' rest = none := by
  induction rest with
  | nil => rfl
  | cons x l ih =>
    rw [mem_cons, not_or] at h
    rw [strchr, if_neg (Ne.symm h.1), ih h.2]
    simp

theorem scan_unlines (hls : ∀ l ∈ ls, Line l) (hrest : '\n' ∉ rest) {fuel : ℕ} (hf : ls.length ≤ fuel) :
    scan pattern fuel (unlines ls ++ rest) = (unlines (ls.filter (match_ pattern)), rest) := by
  induction ls generalizing fuel with
  | nil =>
    show scan pattern fuel rest = ([], rest)
    cases fuel with
    | zero => rfl
    | succ fuel => rw [scan, strchr_none hrest]
  | cons l ls ih =>
    obtain ⟨fuel, rfl⟩ := Nat.exists_eq_succ_of_ne_zero (by simp at hf; omega : fuel ≠ 0)
    rw [forall_mem_cons] at hls
    have htext : unlines (l :: ls) ++ rest = l ++ '\n' :: (unlines ls ++ rest) := by simp [unlines_cons]
    rw [htext, scan, strchr_line hls.1]
    have hdrop : (l ++ '\n' :: (unlines ls ++ rest)).drop (l.length + 1) = unlines ls ++ rest := by
      simp [drop_append]
    have htake : (l ++ '\n' :: (unlines ls ++ rest)).take (l.length + 1) = l ++ ['\n'] := by
      simp [take_append]
    dsimp only
    rw [hdrop, htake, take_left, ih hls.2 (by simpa using hf), filter_cons]
    split_ifs <;> rfl

/-- The beginning of a file is some lines and the beginning of the next.  What follows the lines has no
newline as far as the buffer goes. -/
theorem split_unlines (hls : ∀ l ∈ ls, Line l) (hlong : '\n' ∉ long.take (BUFSZ - 1))
    (ht : t.length < BUFSZ)
    (h : unlines ls ++ long = t ++ file) : ∃ ls₁ ls₂ rest, ls = ls₁ ++ ls₂ ∧ t = unlines ls₁ ++ rest ∧
      '\n' ∉ rest ∧ unlines ls₂ ++ long = rest ++ file := by
  induction ls generalizing t with
  | nil =>
    refine ⟨[], [], t, rfl, rfl, fun hmem => hlong ?_, h⟩
    rw [show long = t ++ file from h, take_append, take_of_length_le (by omega)]
    exact mem_append_left _ hmem
  | cons l ls ih =>
    rw [forall_mem_cons] at hls
    rw [unlines_cons, append_assoc, append_eq_append_iff] at h
    rcases h with ⟨a, rfl, ha⟩ | ⟨a, ha, hrest⟩
    · obtain ⟨ls₁, ls₂, rest, rfl, rfl, hrest, hrest'⟩ := ih hls.2 (by simp at ht; omega) ha
      exact ⟨l :: ls₁, ls₂, rest, rfl, by simp [unlines_cons], hrest, hrest'⟩
    · rcases eq_nil_or_concat' a with rfl | ⟨a, x, rfl⟩
      · rw [append_nil] at ha
        subst ha
        exact ⟨[l], ls, [], rfl, by simp [unlines], not_mem_nil, hrest.symm⟩
      · rw [← append_assoc] at ha
        obtain ⟨rfl, hx⟩ := append_inj' ha rfl
        refine ⟨[], (t ++ a) :: ls, t, rfl, rfl, fun hmem => hls.1.1 (mem_append_left a hmem), ?_⟩
        rw [unlines_cons, hrest, ← hx]
        simp

/-- What is left in the buffer is shorter than the next line. -/
theorem length_le_of_line {l : List Char} (h : (l ++ ['\n']) ++ rest = buf ++ file) (hbuf : '\n' ∉ buf) :
    buf.length ≤ l.length := by
  rw [append_eq_append_iff] at h
  rcases h with ⟨a, rfl, -⟩ | ⟨a, ha, -⟩
  · simp at hbuf
  · rcases eq_nil_or_concat' a with rfl | ⟨a, x, rfl⟩
    · rw [append_nil] at ha
      simp [← ha] at hbuf
    · have := congrArg List.length ha
      simp only [length_append, length_singleton] at this
      omega

theorem grepLoop_unlines (cut : ℕ → ℕ) (hls : ∀ l ∈ ls, Line l) (hlen : ∀ l ∈ ls, l.length + 1 < BUFSZ)
    (hlong : '\n' ∉ long.take (BUFSZ - 1)) {fuel i : ℕ} (hf : file.length < fuel) (hbuf : '\n' ∉ buf)
    (hb : buf.length < BUFSZ) (h : unlines ls ++ long = buf ++ file) :
    grepLoop pattern cut fuel i buf file = unlines (ls.filter (match_ pattern)) := by
  -- the buffer has the beginning of the next line
  induction fuel generalizing i buf file ls with
  | zero => exact absurd hf (Nat.not_lt_zero _)
  | succ fuel ih =>
    rw [grepLoop]
    dsimp only
    generalize hn : min (min (max 1 (cut i)) (BUFSZ - buf.length - 1)) file.length = n
    by_cases h0 : n = 0
    · -- `read` returns 0: the file is at its end, or the buffer is full
      rw [if_pos h0]
      cases ls with
      | nil => rfl
      | cons l ls =>
        rw [unlines_cons, append_assoc] at h
        have hshort := length_le_of_line h hbuf
        have hroom := hlen l mem_cons_self
        obtain rfl : file = [] := length_eq_zero_iff.1 (by omega)
        rw [append_nil] at h
        simp [← h] at hbuf
    rw [if_neg h0]
    have hsplit : unlines ls ++ long = (buf ++ file.take n) ++ file.drop n := by
      rw [append_assoc, take_append_drop, h]
    have ht : (buf ++ file.take n).length < BUFSZ := by
      rw [length_append, length_take]
      omega
    obtain ⟨ls₁, ls₂, rest, rfl, htext, hrest, hnext⟩ := split_unlines hls hlong ht hsplit
    rw [htext, length_append] at ht
    rw [forall_mem_append] at hls hlen
    have hfuel : ls₁.length ≤ (unlines ls₁ ++ rest).length := by
      have := length_le_unlines ls₁
      rw [length_append]
      omega
    rw [htext, scan_unlines hls.1 hrest hfuel]
    dsimp only
    rw [ih hls.2 hlen.2 (by rw [length_drop]; omega) hrest (by omega) hnext, filter_append]
    exact flatMap_append.symm

/-- The line fits the buffer, with its newline and a null. -/
def Short (l : List Char) : Bool := l.length + 1 < BUFSZ

/-- **What `grep` writes**, however `read` cuts the file: the matching lines before the first that is too
long, and nothing of a last line without newline. -/
theorem grep_eq (pattern : List Char) (cut : ℕ → ℕ) {last : List Char} (hls : ∀ l ∈ ls, Line l)
    (hlast : Line last) : grep pattern cut (unlines ls ++ last) =
      unlines ((ls.takeWhile Short).filter (match_ pattern)) := by
  have hsplit : unlines ls ++ last = unlines (ls.takeWhile Short) ++
    (unlines (ls.dropWhile Short) ++ last) := by
    rw [← append_assoc, unlines, unlines, unlines, ← flatMap_append, takeWhile_append_dropWhile]
  have hlong : '\n' ∉ (unlines (ls.dropWhile Short) ++ last).take (BUFSZ - 1) := by
    cases hd : ls.dropWhile Short with
    | nil => exact fun hmem => hlast.1 (mem_of_mem_take hmem)
    | cons l rest =>
      have hl : Line l := hls l ((dropWhile_sublist Short).mem (hd ▸ mem_cons_self))
      have hlen : BUFSZ - 1 ≤ l.length := by
        have hno := head?_dropWhile_not Short ls
        rw [hd] at hno
        simp only [head?_cons, Short, decide_eq_false_iff_not] at hno
        omega
      rw [unlines_cons, append_assoc, append_assoc, take_append_of_le_length hlen]
      exact fun hmem => hl.1 (mem_of_mem_take hmem)
  rw [hsplit]
  exact grepLoop_unlines cut (fun l hl => hls l (takeWhile_subset _ hl))
    (fun l hl => by simpa [Short] using mem_takeWhile_imp hl) hlong (Nat.lt_succ_self _) not_mem_nil
    (by decide) rfl

/-- The lines of a file that match, in order; `last` is what follows the last newline, a line if it is not
empty. -/
def matching (pattern : List Char) (ls : List (List Char)) (last : List Char) : List Char :=
  unlines (ls.filter (match_ pattern)) ++ if last ≠ [] ∧ match_ pattern last then last else []

/-- **`grep` writes exactly the matching lines, if and only if** no line matches that has no newline, is too
long for the buffer or comes after one that is. -/
theorem grep_lines (pattern : List Char) (cut : ℕ → ℕ) {ls : List (List Char)} {last : List Char}
    (hls : ∀ l ∈ ls, Line l) (hlast : Line last) :
    grep pattern cut (unlines ls ++ last) = matching pattern ls last ↔
      (∀ l ∈ ls.dropWhile Short, match_ pattern l = false) ∧ (last ≠ [] → match_ pattern last = false) := by
  have hcut : unlines (ls.filter (match_ pattern)) = unlines
    ((ls.takeWhile Short).filter (match_ pattern)) ++
      unlines ((ls.dropWhile Short).filter (match_ pattern)) := by
    rw [unlines, unlines, unlines, ← flatMap_append, ← filter_append, takeWhile_append_dropWhile]
  have hnil : ∀ ls : List (List Char), unlines ls = [] ↔ ls = [] := by
    intro ls
    cases ls with
    | nil => simp [unlines]
    | cons l ls => simp [unlines_cons]
  rw [grep_eq pattern cut hls hlast, matching, hcut, append_assoc, self_eq_append_right,
    append_eq_nil_iff, hnil,
    filter_eq_nil_iff]
  simp only [Bool.not_eq_true]
  refine and_congr_right fun _ => ?_
  split_ifs with h
  · exact iff_of_false h.1 fun hc => by simp [hc h.1] at h
  · exact iff_of_true rfl fun hne => by simpa [hne] using h

/-- Two lines, of which one matches, read in pieces of two, and the beginning of a third. -/
theorem grep_lines_two : grep ['a'] (fun _ => 2) (unlines [['b'], ['a', 'b']] ++ ['c']) =
    matching ['a'] [['b'], ['a', 'b']] ['c'] :=
  (grep_lines ['a'] (fun _ => 2) (by unfold Line; decide) (by unfold Line; decide)).2 (by decide)

/-- **The last line is lost** when no newline ends it. -/
theorem grep_last_line : grep ['a'] (fun _ => 1) ['a'] = [] ∧ match_ ['a'] ['a'] = true := by
  decide

end Xv6.Grep
