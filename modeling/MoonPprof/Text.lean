/-
Text, as the methods of `str` see it.

* `trimmed_trim`, `trim_of_trimmed` — trimming leaves what needs no trimming;
* `splitAtLast_append`, `splitAtLast_some` — the last separator;
* `lines_flatMap` — lines that were written are read back;
* `lines_append_newline` — the lines of two texts with a line feed between them;
* `not_mem_of_mem_lines` — no line holds a line feed.
-/
import Mathlib.Data.List.DropRight

namespace Text

/-! ### White space -/

/-- `char::is_whitespace`. -/
def isWhitespace (c : Char) : Bool :=
  let n := c.toNat
  (0x09 ≤ n && n ≤ 0x0d) || n == 0x20 || n == 0x85 || n == 0xa0 || n == 0x1680 ||
    (0x2000 ≤ n && n ≤ 0x200a) || n == 0x2028 || n == 0x2029 || n == 0x202f || n == 0x205f ||
    n == 0x3000

theorem isWhitespace_of_isDigit {c : Char} (h : c.isDigit = true) : isWhitespace c = false := by
  have hlo : 48 ≤ c.toNat ∧ c.toNat ≤ 57 := by
    simpa [Char.isDigit, UInt32.le_iff_toNat_le] using h
  simp only [isWhitespace, Bool.or_eq_false_iff, Bool.and_eq_false_iff, decide_eq_false_iff_not,
    beq_eq_false_iff_ne]
  omega

/-- `s.trim()`. -/
def trim (s : List Char) : List Char := (s.dropWhile isWhitespace).rdropWhile isWhitespace

/-- There is no white space at either end. -/
structure Trimmed (s : List Char) : Prop where
  head : ∀ c, s.head? = some c → isWhitespace c = false
  last : ∀ c, s.getLast? = some c → isWhitespace c = false

theorem trimmed_iff {s : List Char} :
    ((s.head?.all (!isWhitespace ·)) = true ∧ (s.getLast?.all (!isWhitespace ·)) = true) ↔
      Trimmed s := by
  simp only [Option.all_eq_true, Bool.not_eq_true']
  exact ⟨fun h => ⟨h.1, h.2⟩, fun h => ⟨h.head, h.last⟩⟩

instance (s : List Char) : Decidable (Trimmed s) := decidable_of_iff _ trimmed_iff

theorem trim_of_trimmed {s : List Char} (h : Trimmed s) : trim s = s := by
  have hdrop : s.dropWhile isWhitespace = s := by
    rcases s with _ | ⟨c, s⟩
    · rfl
    · rw [List.dropWhile_cons_of_neg (by simp [h.head c rfl])]
  rw [trim, hdrop, List.rdropWhile_eq_self_iff]
  intro hne
  rw [h.last _ (List.getLast?_eq_some_getLast hne)]
  exact Bool.false_ne_true

theorem trimmed_trim (s : List Char) : Trimmed (trim s) where
  head := by
    intro c hc
    obtain ⟨t, ht⟩ := List.rdropWhile_prefix isWhitespace (s.dropWhile isWhitespace)
    have hhead : (s.dropWhile isWhitespace).head? = some c := by
      rw [← ht, List.head?_append, show (List.rdropWhile isWhitespace _).head? = some c from hc]
      rfl
    have := List.head?_dropWhile_not isWhitespace s
    rwa [hhead] at this
  last := by
    intro c hc
    have hne : trim s ≠ [] := by
      intro hnil
      rw [hnil] at hc
      cases hc
    rw [List.getLast?_eq_some_getLast hne, Option.some.injEq] at hc
    subst hc
    exact Bool.eq_false_iff.mpr (List.rdropWhile_last_not isWhitespace _ hne)

/-- Trimming takes characters away, and keeps those that are not white space. -/
theorem mem_of_mem_trim {s : List Char} {c : Char} (h : c ∈ trim s) : c ∈ s :=
  (List.dropWhile_suffix _).mem ((List.rdropWhile_prefix _ _).mem h)

/-- A text that starts with a visible character keeps it. -/
theorem head?_trim {s : List Char} {c : Char} (h : s.head? = some c)
    (hc : isWhitespace c = false) : (trim s).head? = some c := by
  rcases s with _ | ⟨d, s⟩
  · cases h
  · cases h
    have hdrop : (c :: s).dropWhile isWhitespace = c :: s :=
      List.dropWhile_cons_of_neg (by simp [hc])
    obtain ⟨t, ht⟩ := List.rdropWhile_prefix isWhitespace (c :: s)
    rw [trim, hdrop]
    rcases hr : (c :: s).rdropWhile isWhitespace with _ | ⟨d, r⟩
    · rw [List.rdropWhile_eq_nil_iff] at hr
      rw [hr c (by simp)] at hc
      cases hc
    · rw [hr, List.cons_append, List.cons.injEq] at ht
      rw [ht.1]
      rfl

/-! ### The last separator -/

/-- The text before and the text from the last character that satisfies `p`
(`rfind` and `split_at`). -/
def splitAtLast (p : Char → Bool) : List Char → Option (List Char × List Char)
  | [] => none
  | c :: s =>
    match splitAtLast p s with
    | some (before, rest) => some (c :: before, rest)
    | none => if p c then some ([], c :: s) else none

theorem splitAtLast_eq_none_iff {p : Char → Bool} {s : List Char} :
    splitAtLast p s = none ↔ ∀ c ∈ s, p c = false := by
  induction s with
  | nil => simp [splitAtLast]
  | cons c s ih =>
    rw [splitAtLast]
    rcases hs : splitAtLast p s with _ | ⟨before, rest⟩
    · have hall := ih.mp hs
      cases hc : p c <;> simp [hc]
      exact hall
    · have hsome : ¬∀ d ∈ s, p d = false := fun hall => by
        rw [ih.mpr hall] at hs
        cases hs
      simp only [reduceCtorEq, List.mem_cons, false_iff]
      exact fun hall => hsome fun d hd => hall d (Or.inr hd)

theorem splitAtLast_append {p : Char → Bool} {before rest : List Char} {c : Char}
    (hc : p c = true) (h : ∀ d ∈ rest, p d = false) :
    splitAtLast p (before ++ c :: rest) = some (before, c :: rest) := by
  induction before with
  | nil =>
    rw [List.nil_append, splitAtLast, splitAtLast_eq_none_iff.mpr h]
    simp [hc]
  | cons d before ih => rw [List.cons_append, splitAtLast, ih]

theorem splitAtLast_some {p : Char → Bool} {s before rest : List Char}
    (h : splitAtLast p s = some (before, rest)) :
    s = before ++ rest ∧ ∃ c after, rest = c :: after ∧ p c = true ∧ ∀ d ∈ after, p d = false := by
  induction s generalizing before with
  | nil => cases h
  | cons c s ih =>
    rw [splitAtLast] at h
    rcases hs : splitAtLast p s with _ | ⟨b, r⟩
    · rw [hs] at h
      simp only at h
      split at h
      · cases h
        exact ⟨rfl, c, s, rfl, by assumption, splitAtLast_eq_none_iff.mp hs⟩
      · cases h
    · rw [hs] at h
      simp only [Option.some.injEq, Prod.mk.injEq] at h
      obtain ⟨rfl, rfl⟩ := h
      obtain ⟨hsplit, hrest⟩ := ih hs
      exact ⟨by rw [hsplit, List.cons_append], hrest⟩

/-! ### Lines -/

/-- `s.split_inclusive(d)`. -/
def splitInclusive (d : Char) : List Char → List (List Char)
  | [] => []
  | c :: s =>
    if c = d then [c] :: splitInclusive d s
    else
      match splitInclusive d s with
      | [] => [[c]]
      | piece :: pieces => (c :: piece) :: pieces

/-- `s.strip_suffix(c)`. -/
def stripSuffix (c : Char) (s : List Char) : Option (List Char) :=
  if s.getLast? = some c then some s.dropLast else none

/-- A piece without its line ending. -/
def lineOf (piece : List Char) : List Char :=
  match stripSuffix '\n' piece with
  | none => piece
  | some line => (stripSuffix '\r' line).getD line

/-- `s.lines()`. -/
def lines (s : List Char) : List (List Char) := (splitInclusive '\n' s).map lineOf

theorem splitInclusive_append {d : Char} {line : List Char} (h : d ∉ line) (rest : List Char) :
    splitInclusive d (line ++ d :: rest) = (line ++ [d]) :: splitInclusive d rest := by
  induction line with
  | nil => rw [List.nil_append, splitInclusive, if_pos rfl, List.nil_append]
  | cons c line ih =>
    rw [List.mem_cons, not_or] at h
    rw [List.cons_append, splitInclusive, if_neg (Ne.symm h.1), ih h.2]
    rfl

theorem lineOf_append {line : List Char} (h : line.getLast? ≠ some '\r') :
    lineOf (line ++ ['\n']) = line := by
  have hstrip : stripSuffix '\n' (line ++ ['\n']) = some line := by
    rw [stripSuffix, if_pos List.getLast?_concat, List.dropLast_concat]
  rw [lineOf, hstrip]
  simp only
  rw [stripSuffix, if_neg h, Option.getD_none]

/-- Lines that are written one after the other are read back. -/
theorem lines_flatMap {ls : List (List Char)}
    (h : ∀ line ∈ ls, '\n' ∉ line ∧ line.getLast? ≠ some '\r') :
    lines (ls.flatMap fun line => line ++ ['\n']) = ls := by
  induction ls with
  | nil => rfl
  | cons line ls ih =>
    obtain ⟨hlf, hcr⟩ := h line List.mem_cons_self
    rw [List.flatMap_cons, List.append_assoc, List.singleton_append, lines,
      splitInclusive_append hlf, List.map_cons, lineOf_append hcr]
    exact congrArg (line :: ·) (ih fun l hl => h l (List.mem_cons_of_mem _ hl))

theorem splitInclusive_of_not_mem {d : Char} {s : List Char} (h : d ∉ s) (hne : s ≠ []) :
    splitInclusive d s = [s] := by
  induction s with
  | nil => exact absurd rfl hne
  | cons c s ih =>
    rw [List.mem_cons, not_or] at h
    rw [splitInclusive, if_neg (Ne.symm h.1)]
    rcases s with _ | ⟨e, s⟩
    · rfl
    · rw [ih h.2 (List.cons_ne_nil e s)]

/-- A text without a line feed is one line. -/
theorem lines_of_not_mem {s : List Char} (h : '\n' ∉ s) (hne : s ≠ []) : lines s = [s] := by
  have hstrip : stripSuffix '\n' s = none :=
    if_neg fun hlast => h (List.mem_of_getLast? hlast)
  rw [lines, splitInclusive_of_not_mem h hne, List.map_singleton, lineOf, hstrip]

theorem lines_append {line : List Char} (h : '\n' ∉ line) (rest : List Char) :
    lines (line ++ '\n' :: rest) = lineOf (line ++ ['\n']) :: lines rest := by
  rw [lines, splitInclusive_append h, List.map_cons, lines]

/-- Between the lines of two texts that are joined with a line feed there is at
most an empty line. -/
theorem lines_append_newline (a b : List Char) (h : a.getLast? ≠ some '\r') :
    lines (a ++ '\n' :: b) = lines a ++ lines b ∨
      lines (a ++ '\n' :: b) = lines a ++ [] :: lines b := by
  by_cases hmem : '\n' ∈ a
  · -- behind the first line of `a`, the text is shorter
    obtain ⟨line, rest, rfl, hline⟩ := List.eq_append_cons_of_mem hmem
    have hrest : rest.getLast? ≠ some '\r' := by
      intro hlast
      apply h
      simp [List.getLast?_append, List.getLast?_cons, hlast]
    rw [List.append_assoc, List.cons_append, lines_append hline, lines_append hline,
      List.cons_append, List.cons_append, List.cons.injEq, List.cons.injEq]
    exact (lines_append_newline rest b hrest).imp (⟨rfl, ·⟩) (⟨rfl, ·⟩)
  · rw [lines_append hmem, lineOf_append h]
    rcases a with _ | ⟨c, a⟩
    · exact Or.inr rfl
    · rw [lines_of_not_mem hmem (List.cons_ne_nil c a)]
      exact Or.inl rfl
termination_by a.length
decreasing_by
  subst_vars
  rw [List.length_append, List.length_cons]
  omega

theorem not_mem_dropLast_of_mem_splitInclusive {d : Char} {s piece : List Char}
    (h : piece ∈ splitInclusive d s) : d ∉ piece.dropLast := by
  induction s generalizing piece with
  | nil => cases h
  | cons c s ih =>
    rw [splitInclusive] at h
    split at h
    · rcases List.mem_cons.mp h with rfl | h
      · simp
      · exact ih h
    · rename_i hc
      rcases hs : splitInclusive d s with _ | ⟨p, ps⟩
      · rw [hs, List.mem_singleton] at h
        rw [h]
        simp
      · rw [hs] at h ih
        rcases List.mem_cons.mp h with rfl | h
        · have hp := ih List.mem_cons_self
          rcases p with _ | ⟨e, p⟩
          · simp
          · rw [List.dropLast_cons_cons, List.mem_cons, not_or]
            exact ⟨Ne.symm hc, hp⟩
        · exact ih (List.mem_cons_of_mem _ h)

theorem not_mem_of_dropLast {d : Char} {s : List Char} (h : d ∉ s.dropLast)
    (hlast : s.getLast? ≠ some d) : d ∉ s := by
  intro hmem
  have hne := List.ne_nil_of_mem hmem
  rw [← List.dropLast_append_getLast hne, List.mem_append, List.mem_singleton] at hmem
  rcases hmem with hmem | hmem
  · exact h hmem
  · exact hlast (by rw [List.getLast?_eq_some_getLast hne, ← hmem])

theorem not_mem_of_mem_lines {s line : List Char} (h : line ∈ lines s) : '\n' ∉ line := by
  obtain ⟨piece, hpiece, rfl⟩ := List.mem_map.mp h
  have hdrop := not_mem_dropLast_of_mem_splitInclusive hpiece
  by_cases hlast : piece.getLast? = some '\n'
  · rw [lineOf, stripSuffix, if_pos hlast]
    simp only
    rw [stripSuffix]
    split
    · exact fun hmem => hdrop ((List.dropLast_prefix _).mem hmem)
    · exact hdrop
  · rw [lineOf, stripSuffix, if_neg hlast]
    exact not_mem_of_dropLast hdrop hlast

/-! ### Fields -/

/-- A field consists of characters of the text other than the separator. -/
theorem of_mem_splitOn {d c : Char} {s field : List Char} (h : field ∈ s.splitOn d)
    (hc : c ∈ field) : c ≠ d ∧ c ∈ s := by
  induction s generalizing field with
  | nil =>
    rw [List.splitOn_nil, List.mem_singleton] at h
    rw [h] at hc
    cases hc
  | cons e s ih =>
    have hlater : ∀ f, f ∈ s.splitOn d → c ∈ f → c ≠ d ∧ c ∈ e :: s := fun f hf hcf =>
      ⟨(ih hf hcf).1, List.mem_cons_of_mem _ (ih hf hcf).2⟩
    rw [List.splitOn_cons_eq_if_modifyHead] at h
    split at h
    · rcases List.mem_cons.mp h with rfl | h
      · cases hc
      · exact hlater field h hc
    · rename_i he
      rcases hs : s.splitOn d with _ | ⟨f, fs⟩
      · exact absurd hs (List.splitOn_ne_nil d s)
      · rw [hs] at h hlater
        rcases List.mem_cons.mp h with rfl | h
        · rcases List.mem_cons.mp hc with rfl | hc
          · exact ⟨by simpa using he, List.mem_cons_self⟩
          · exact hlater f List.mem_cons_self hc
        · exact hlater field (List.mem_cons_of_mem _ h) hc

theorem not_mem_of_mem_splitOn {d : Char} {s field : List Char} (h : field ∈ s.splitOn d) :
    d ∉ field :=
  fun hd => (of_mem_splitOn h hd).1 rfl

theorem mem_of_mem_splitOn {d c : Char} {s field : List Char} (h : field ∈ s.splitOn d)
    (hc : c ∈ field) : c ∈ s :=
  (of_mem_splitOn h hc).2

/-- The first field starts as the text does, unless it is empty. -/
theorem head?_splitOn {d c : Char} {s field : List Char} (hs : s.head? = some c)
    (h : (s.splitOn d).head? = some field) : field = [] ∨ field.head? = some c := by
  rcases s with _ | ⟨e, s⟩
  · cases hs
  · cases hs
    rw [List.splitOn_cons_eq_if_modifyHead] at h
    split at h
    · exact Or.inl (Option.some.inj h).symm
    · right
      rcases hs : s.splitOn d with _ | ⟨f, fs⟩
      · exact absurd hs (List.splitOn_ne_nil d s)
      · rw [hs] at h
        cases h
        rfl

end Text
