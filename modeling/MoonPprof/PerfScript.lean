/-
The text of `perf script` (`parse` of `crates/perf-to-pprof`).

A sample is a header line at column 0 and the indented lines of its stack under
it.  An empty line, the next header and the end of the text each finish the
sample in flight; indented lines before any header are dropped.

* `parse_eq_groups` — each header opens a sample with the frames right under it;
* `parse_separates` — samples of one text are neither lost nor merged.
-/
import MoonPprof.Perf
import MoonPprof.Text

open Text

namespace Perf

/-! ### Words and numbers -/

/-- `s.split_whitespace()`. -/
def splitWhitespace (s : List Char) : List (List Char) :=
  (s.splitOnP isWhitespace).filter fun word => !word.isEmpty

/-- `s.parse::<u64>().ok()`: digits, perhaps after a plus sign. -/
def parseU64 (s : List Char) : Option Nat :=
  let digits := if s.head? = some '+' then s.tail else s
  if digits.isEmpty || digits.any (!·.isDigit) then none
  else
    let n := Nat.ofDigitChars 10 digits 0
    if n < 2 ^ 64 then some n else none

/-- `parse_header_period`: the last word but one, the last being the event. -/
def parseHeaderPeriod (header : List Char) : Option Nat :=
  let trimmed := (header.rdropWhile (· = ':')).rdropWhile isWhitespace
  let toks := splitWhitespace trimmed
  if toks.length < 2 then none
  else toks[toks.length - 2]?.bind parseU64

/-! ### Frames -/

/-- `s.split_once(char::is_whitespace)`. -/
def splitOnceWhitespace : List Char → Option (List Char × List Char)
  | [] => none
  | c :: s =>
    if isWhitespace c then some ([], s)
    else (splitOnceWhitespace s).map fun (before, after) => (c :: before, after)

/-- The text before and the text after the last occurrence of `pat` (`rfind`). -/
def splitAtLastStr (pat : List Char) : List Char → Option (List Char × List Char)
  | [] => none
  | c :: s =>
    match splitAtLastStr pat s with
    | some (before, after) => some (c :: before, after)
    | none => if pat.isPrefixOf (c :: s) then some ([], (c :: s).drop pat.length) else none

/-- The symbol without a trailing `+0x…`. -/
def stripOffset (symPart : List Char) : List Char :=
  match splitAtLast (· = '+') symPart with
  | some (before, rest) => if "0x".toList.isPrefixOf rest.tail then before else symPart
  | none => symPart

/-- `parse_frame`: an address, a symbol and a binary in parentheses. -/
def parseFrame (line : List Char) : Option Frame := do
  let (_addr, rest) ← splitOnceWhitespace line
  let rest := rest.dropWhile isWhitespace
  let (symPart, dso) := match splitAtLastStr [' ', '('] rest with
    | some (symPart, dsoPart) => (symPart, dsoPart.rdropWhile (· = ')'))
    | none => (rest, [])
  some ⟨String.ofList (stripOffset symPart), String.ofList dso⟩

/-! ### Samples -/

/-- The finished samples and the one in flight. -/
structure ParseState where
  samples : List Sample
  current : Option Sample

/-- `if let Some(s) = current.take() { samples.push(s) }`. -/
def ParseState.flush (st : ParseState) : ParseState := ⟨st.samples ++ st.current.toList, none⟩

/-- One turn of the loop over the lines. -/
def parseLine (st : ParseState) (raw : List Char) : ParseState :=
  if raw.isEmpty then st.flush
  else if raw.head?.any isWhitespace then
    match st.current with
    | some s =>
      match parseFrame (trim raw) with
      | some frame => { st with current := some { s with stack := s.stack ++ [frame] } }
      | none => st
    | none => st
  else { st.flush with current := some ⟨[], (parseHeaderPeriod raw).getD 1⟩ }

/-- `parse`, which never fails. -/
def parse (input : String) : List Sample :=
  ((lines input.toList).foldl parseLine ⟨[], none⟩).flush.samples

/-! ### Headers and the stacks under them -/

def isHeader (line : List Char) : Bool := !line.isEmpty && !line.head?.any isWhitespace

def isIndented (line : List Char) : Bool := !line.isEmpty && line.head?.any isWhitespace

/-- The frames of the indented lines at the start of `ls`. -/
def framesUnder (ls : List (List Char)) : List Frame :=
  (ls.takeWhile isIndented).filterMap fun line => parseFrame (trim line)

/-- The sample of a header and the lines after it. -/
def sampleOf (header : List Char) (ls : List (List Char)) : Sample :=
  ⟨framesUnder ls, (parseHeaderPeriod header).getD 1⟩

/-- A sample for each header. -/
def groups : List (List Char) → List Sample
  | [] => []
  | line :: ls => if isHeader line then sampleOf line ls :: groups ls else groups ls

/-- The sample in flight, with the frames that `ls` starts with. -/
def Sample.extend (s : Sample) (ls : List (List Char)) : Sample :=
  { s with stack := s.stack ++ framesUnder ls }

/-- What the state and the lines that are left come to. -/
theorem flush_foldl_parseLine (st : ParseState) (ls : List (List Char)) :
    (ls.foldl parseLine st).flush.samples =
      st.samples ++ (st.current.map (·.extend ls)).toList ++ groups ls := by
  induction ls generalizing st with
  | nil =>
    obtain ⟨samples, _ | s⟩ := st
    · simp [ParseState.flush, groups]
    · simp [ParseState.flush, groups, Sample.extend, framesUnder]
  | cons line ls ih =>
    rw [List.foldl_cons, ih, groups]
    rcases line with _ | ⟨c, line⟩
    · -- an empty line finishes the sample, as no frame follows
      have hframes : framesUnder ([] :: ls) = [] := rfl
      obtain ⟨samples, _ | s⟩ := st <;>
        simp [parseLine, ParseState.flush, isHeader, Sample.extend, hframes]
    · cases hc : isWhitespace c
      · have hframes : framesUnder ((c :: line) :: ls) = [] := by
          simp [framesUnder, isIndented, hc]
        obtain ⟨samples, _ | s⟩ := st <;>
          simp [parseLine, ParseState.flush, isHeader, hc, Sample.extend, hframes, sampleOf]
      · obtain ⟨samples, _ | s⟩ := st
        · simp [parseLine, isHeader, hc]
        · rcases hf : parseFrame (trim (c :: line)) with _ | frame <;>
            simp [parseLine, isHeader, isIndented, hc, Sample.extend, framesUnder, hf]

theorem parse_eq_groups (input : String) : parse input = groups (lines input.toList) := by
  rw [parse, flush_foldl_parseLine]
  simp

theorem length_groups (ls : List (List Char)) : (groups ls).length = ls.countP isHeader := by
  induction ls with
  | nil => rfl
  | cons line ls ih =>
    rw [groups, List.countP_cons]
    split <;> simp [ih]

/-- The sample of the header at a position has the number of headers before it. -/
theorem groups_get {line : List Char} (h : isHeader line = true) (before rest : List (List Char)) :
    (groups (before ++ line :: rest))[before.countP isHeader]? = some (sampleOf line rest) := by
  induction before with
  | nil => rw [List.nil_append, groups, if_pos h, List.countP_nil, List.getElem?_cons_zero]
  | cons other before ih =>
    rw [List.cons_append, groups, List.countP_cons]
    by_cases hother : isHeader other = true
    · rw [if_pos hother, if_pos hother, List.getElem?_cons_succ]
      exact ih
    · rw [if_neg hother, if_neg hother]
      exact ih

theorem framesUnder_append {line : List Char} (h : isIndented line = false)
    (xs ys : List (List Char)) : framesUnder (xs ++ line :: ys) = framesUnder xs := by
  rw [framesUnder, framesUnder]
  induction xs with
  | nil => simp [h]
  | cons x xs ih =>
    rw [List.cons_append, List.takeWhile_cons, List.takeWhile_cons]
    split
    · rw [List.filterMap_cons, List.filterMap_cons, ih]
    · rfl

/-- A line at column 0 separates the samples before it from those after it. -/
theorem groups_append {line : List Char} (h : isIndented line = false)
    (xs ys : List (List Char)) :
    groups (xs ++ line :: ys) = groups xs ++ groups (line :: ys) := by
  induction xs with
  | nil => rfl
  | cons x xs ih =>
    rw [List.cons_append, groups, groups, ih]
    split
    · rw [sampleOf, framesUnder_append h, List.cons_append]
      rfl
    · rfl

theorem isIndented_of_isHeader {line : List Char} (h : isHeader line = true) :
    isIndented line = false := by
  simp only [isHeader, Bool.and_eq_true, Bool.not_eq_true'] at h
  simp [isIndented, h.2]

/-- The samples of a text that ends where a header follows stay as they are, and so
do those that follow; and each header of a text has its sample, with exactly the
frames of the lines under it. -/
theorem parse_separates (a b text : String) (ha : a.toList.getLast? ≠ some '\r')
    (hb : ∃ header, (lines b.toList).head? = some header ∧ isHeader header = true) :
    parse (a ++ "\n" ++ b) = parse a ++ parse b ∧
      (parse text).length = (lines text.toList).countP isHeader ∧
      ∀ before header rest, lines text.toList = before ++ header :: rest →
        isHeader header = true →
        (parse text)[before.countP isHeader]? = some
          ⟨(rest.takeWhile isIndented).filterMap fun line => parseFrame (trim line),
            (parseHeaderPeriod header).getD 1⟩ := by
  simp only [parse_eq_groups]
  refine ⟨?_, length_groups _, fun before header rest hlines hheader => ?_⟩
  · obtain ⟨header, hhead, hheader⟩ := hb
    obtain ⟨rest, hlines⟩ := List.head?_eq_some_iff.mp hhead
    have hindented := isIndented_of_isHeader hheader
    have htext : (a ++ "\n" ++ b).toList = a.toList ++ '\n' :: b.toList := by simp
    rw [htext]
    -- an empty line stands between them where `a` itself ends in a newline
    rcases lines_append_newline a.toList b.toList ha with heq | heq
    · rw [heq, hlines, groups_append hindented]
    · rw [heq, groups_append rfl, hlines]
      rfl
  · rw [hlines]
    exact groups_get hheader before rest

/-- Two samples without an empty line between them. -/
theorem parse_separates_two :
    "main 7: 5 cpu:\n ff f (x)".toList.getLast? ≠ some '\r' ∧
      isHeader "main 8: 6 cpu:".toList = true ∧
      parse ("main 7: 5 cpu:\n ff f (x)" ++ "\n" ++ "main 8: 6 cpu:") =
        parse "main 7: 5 cpu:\n ff f (x)" ++ parse "main 8: 6 cpu:" :=
  ⟨by decide, by decide,
    (parse_separates _ _ "" (by decide) ⟨"main 8: 6 cpu:".toList, by decide, by decide⟩).1⟩

end Perf
