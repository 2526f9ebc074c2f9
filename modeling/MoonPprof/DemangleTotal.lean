/-
The decoder on arbitrary symbols.

`demangleChecked` is `demangle` with every index, slice and subtraction of the
source checked as the source checks it: `none` is a panic.  A slice of a string
must begin and end at character boundaries.

* `demangleChecked_eq` — no step panics, whatever the bytes;
* `segmentsFrom_spec` — the parts that are read stand, each behind its length, at
  the end of the text;
* `demangle_total` — the result is the name or the path of such parts.
-/
import MoonPprof.DemangleRoundTrip

namespace Demangle

/-! ### Checked operations -/

/-- `s.is_char_boundary(i)`: not inside of the bytes of a character. -/
def isCharBoundary (s : Bytes) (i : Nat) : Bool :=
  if i = 0 then true
  else
    match s[i]? with
    | none => i = s.length
    | some c => c < 0x80 || 0xc0 ≤ c

/-- `&s[a..b]` of a string. -/
def strSlice (s : Bytes) (a b : Nat) : Option Bytes :=
  if a ≤ b && isCharBoundary s a && isCharBoundary s b then some (slice s a b) else none

/-- `&bytes[a..b]`. -/
def byteSlice (bytes : Bytes) (a b : Nat) : Option Bytes :=
  if a ≤ b ∧ b ≤ bytes.length then some (slice bytes a b) else none

/-- `a - b` of unsigned numbers. -/
def checkedSub (a b : Nat) : Option Nat := if b ≤ a then some (a - b) else none

/-- `itoa`, which asserts that its buffer is large enough. -/
def itoaChecked (n : Nat) : Option Bytes := if n ≤ maxSegmentLen then some (itoa n) else none

/-! ### The decoder with its checks -/

def stripPrefixChecked (name : Bytes) : Option (Option Bytes) :=
  let trimmed := name.dropWhile (· == '_'.toUInt8)
  if trimmed.length < 3 then some none
  else do
    if (← byteSlice trimmed 0 2) != mangleInnerPrefix then some none
    else if !isAsciiUppercase (← trimmed[2]?) then some none
    else some (some trimmed)

def lettersStartChecked (bytes : Bytes) : Nat → Option Nat
  | 0 => some 0
  | i + 1 => do
    let c ← bytes[i]?
    if isAsciiAlphabetic c && c != 'G'.toUInt8 then lettersStartChecked bytes i else some (i + 1)

def stripGenericSuffixChecked (s : Bytes) : Option Bytes :=
  let fin := s.length
  if fin < 3 then some s
  else do
    let last ← checkedSub fin 1
    if (← s[last]?) != 'E'.toUInt8 then some s
    else
      let i ← lettersStartChecked s last
      if 0 < i then
        let g ← checkedSub i 1
        if (← s[g]?) == 'G'.toUInt8 && g < last then strSlice s 0 g else some s
      else some s

def digitRunStartChecked (bytes : Bytes) : Nat → Option Nat
  | 0 => some 0
  | d + 1 => do if isAsciiDigit (← bytes[d]?) then digitRunStartChecked bytes d else some (d + 1)

/-- The `for ds` loop of `find_segment_end`. -/
def lengthStartChecked (bytes : Bytes) (dEnd : Nat) (target : Bytes) :
    List Nat → Option (Option Nat)
  | [] => some none
  | ds :: rest => do
    if (← byteSlice bytes ds dEnd) == target then some (some ds)
    else lengthStartChecked bytes dEnd target rest

def segmentOfLenChecked (bytes : Bytes) (i n : Nat) : Option (Option (Nat × Nat)) := do
  let charsStart ← checkedSub i n
  if !isIdent (← byteSlice bytes charsStart i) then some none
  else
    let dStart ← digitRunStartChecked bytes charsStart
    if dStart = charsStart then some none
    else
      let target ← itoaChecked n
      let found ← lengthStartChecked bytes charsStart target
        (List.range' dStart (charsStart - dStart))
      some (found.map fun ds => (charsStart, ds))

def longestSegmentChecked (bytes : Bytes) (i : Nat) : Nat → Option (Option (Nat × Nat))
  | 0 => some none
  | n + 1 => do
    match ← segmentOfLenChecked bytes i (n + 1) with
    | some r => some (some r)
    | none => longestSegmentChecked bytes i n

def findSegmentEndChecked (bytes : Bytes) (i : Nat) : Option (Option (Nat × Nat)) := do
  longestSegmentChecked bytes i (min (← checkedSub i 1) maxSegmentLen)

def segmentsFromChecked (inner : Bytes) : Nat → Nat → List Bytes → Option (List Bytes)
  | 0, _, parts => some parts
  | turns + 1, i, parts =>
    if i = 0 then some parts
    else do
      match ← findSegmentEndChecked inner i with
      | none => some parts
      | some (charsStart, newI) =>
        segmentsFromChecked inner turns newI ((← strSlice inner charsStart i) :: parts)

def demangleChecked (name : Bytes) : Option Bytes := do
  match ← stripPrefixChecked name with
  | none => some name
  | some inner =>
    let inner ← stripGenericSuffixChecked inner
    let parts ← segmentsFromChecked inner maxSegments inner.length []
    some (if parts.isEmpty then name else joinPath parts)

/-! ### No check fails -/

theorem strSlice_eq {s : Bytes} {a b : Nat} (hab : a ≤ b) (ha : isCharBoundary s a = true)
    (hb : isCharBoundary s b = true) : strSlice s a b = some (slice s a b) := by
  rw [strSlice, if_pos (by simp [hab, ha, hb])]

theorem byteSlice_eq {bytes : Bytes} {a b : Nat} (hab : a ≤ b) (hb : b ≤ bytes.length) :
    byteSlice bytes a b = some (slice bytes a b) :=
  if_pos ⟨hab, hb⟩

theorem isCharBoundary_length (s : Bytes) : isCharBoundary s s.length = true := by
  simp [isCharBoundary]

/-- A string may be cut before an ASCII character. -/
theorem isCharBoundary_of_ascii {s : Bytes} {i : Nat} {c : UInt8} (h : s[i]? = some c)
    (hc : c < 0x80) : isCharBoundary s i = true := by
  rw [isCharBoundary, h]
  simp [hc]

theorem lettersStartChecked_eq {bytes : Bytes} {i : Nat} (hi : i ≤ bytes.length) :
    lettersStartChecked bytes i = some (lettersStart bytes i) := by
  induction i with
  | zero => rfl
  | succ i ih =>
    rw [lettersStartChecked, lettersStart, List.getElem?_eq_getElem hi, Option.any_some,
      ih (Nat.le_of_succ_le hi)]
    simp only [Option.bind_eq_bind, Option.bind_some]
    split <;> rfl

theorem digitRunStartChecked_eq {bytes : Bytes} {d : Nat} (hd : d ≤ bytes.length) :
    digitRunStartChecked bytes d = some (digitRunStart bytes d) := by
  induction d with
  | zero => rfl
  | succ d ih =>
    rw [digitRunStartChecked, digitRunStart, List.getElem?_eq_getElem hd, Option.any_some,
      ih (Nat.le_of_succ_le hd)]
    simp only [Option.bind_eq_bind, Option.bind_some]
    split <;> rfl

theorem stripPrefixChecked_eq (name : Bytes) :
    stripPrefixChecked name = some (stripPrefix name) := by
  rw [stripPrefixChecked, stripPrefix]
  set trimmed := name.dropWhile (· == '_'.toUInt8)
  by_cases hlen : trimmed.length < 3
  · simp [hlen]
  · have hhead : byteSlice trimmed 0 2 = some (trimmed.take 2) :=
      byteSlice_eq (by omega) (by omega)
    have hget : trimmed[2]? = some trimmed[2] := List.getElem?_eq_getElem (by omega)
    simp only [hlen, if_false, hhead, hget, Option.bind_eq_bind, Option.bind_some,
      decide_false, Bool.false_or, Option.any_some]
    split
    · rfl
    · split <;> rfl

theorem stripGenericSuffixChecked_eq (s : Bytes) :
    stripGenericSuffixChecked s = some (stripGenericSuffix s) := by
  rw [stripGenericSuffixChecked, stripGenericSuffix]
  by_cases hlen : s.length < 3
  · simp [hlen]
  · have hlast : s[s.length - 1]? = some s[s.length - 1] := List.getElem?_eq_getElem (by omega)
    have hletters := lettersStartChecked_eq (Nat.sub_le s.length 1)
    have hle := (exists_letters_of_lettersStart s (s.length - 1) (Nat.sub_le _ _)).1
    have hsub : checkedSub s.length 1 = some (s.length - 1) := if_pos (by omega)
    simp only [hlen, if_false, hsub, hlast, hletters, Option.bind_eq_bind, Option.bind_some,
      decide_false, Bool.false_or]
    set i := lettersStart s (s.length - 1)
    by_cases hE : s[s.length - 1] = 'E'.toUInt8
    · rcases Nat.eq_zero_or_pos i with hi | hi
      · simp [hE, hi]
      · have hg : s[i - 1]? = some s[i - 1] := List.getElem?_eq_getElem (by omega)
        have hsub' : checkedSub i 1 = some (i - 1) := if_pos hi
        simp only [hE, hi, hsub', hg, bne_self_eq_false, Bool.false_eq_true, if_false, if_true,
          Option.bind_some, decide_true, Bool.true_and]
        by_cases hG : s[i - 1] = 'G'.toUInt8 ∧ i - 1 < s.length - 1
        · -- the marker begins with an ASCII letter
          have hcut : strSlice s 0 (i - 1) = some (slice s 0 (i - 1)) :=
            strSlice_eq (Nat.zero_le _) rfl
              (isCharBoundary_of_ascii hg (by rw [hG.1]; decide))
          simp [hG.1, hG.2, hcut, slice]
        · rw [if_neg (by simpa using hG), if_neg (by simpa using hG)]
    · simp [hE]

theorem lengthStartChecked_eq {bytes : Bytes} {dEnd : Nat} (hd : dEnd ≤ bytes.length)
    (target : Bytes) {starts : List Nat} (h : ∀ ds ∈ starts, ds ≤ dEnd) :
    lengthStartChecked bytes dEnd target starts =
      some (starts.find? fun ds => slice bytes ds dEnd == target) := by
  induction starts with
  | nil => rfl
  | cons ds starts ih =>
    obtain ⟨hds, hrest⟩ := List.forall_mem_cons.mp h
    rw [lengthStartChecked, byteSlice_eq hds hd, ih hrest, List.find?_cons]
    simp only [Option.bind_eq_bind, Option.bind_some]
    cases slice bytes ds dEnd == target <;> rfl

theorem segmentOfLenChecked_eq {bytes : Bytes} {i n : Nat} (hi : i ≤ bytes.length) (hni : n ≤ i)
    (hn : n ≤ maxSegmentLen) : segmentOfLenChecked bytes i n = some (segmentOfLen bytes i n) := by
  have hle : i - n ≤ bytes.length := by omega
  have hsub : checkedSub i n = some (i - n) := if_pos hni
  have hitoa : itoaChecked n = some (itoa n) := if_pos hn
  have hstarts : ∀ ds ∈ List.range' (digitRunStart bytes (i - n))
      (i - n - digitRunStart bytes (i - n)), ds ≤ i - n := by
    intro ds hds
    have := List.mem_range'_1.mp hds
    omega
  rw [segmentOfLenChecked, segmentOfLen]
  simp only [hsub, byteSlice_eq (Nat.sub_le i n) hi, digitRunStartChecked_eq hle, hitoa,
    lengthStartChecked_eq hle (itoa n) hstarts, Option.bind_eq_bind, Option.bind_some]
  split
  · rfl
  · split <;> rfl

theorem longestSegmentChecked_eq {bytes : Bytes} {i m : Nat} (hi : i ≤ bytes.length)
    (hmi : m ≤ i) (hm : m ≤ maxSegmentLen) :
    longestSegmentChecked bytes i m = some (longestSegment bytes i m) := by
  induction m with
  | zero => rfl
  | succ m ih =>
    rw [longestSegmentChecked, longestSegment, segmentOfLenChecked_eq hi hmi hm,
      ih (by omega) (by omega)]
    simp only [Option.bind_eq_bind, Option.bind_some]
    cases segmentOfLen bytes i (m + 1) <;> rfl

theorem findSegmentEndChecked_eq {bytes : Bytes} {i : Nat} (hpos : 0 < i)
    (hi : i ≤ bytes.length) :
    findSegmentEndChecked bytes i = some (findSegmentEnd bytes i) := by
  have hsub : checkedSub i 1 = some (i - 1) := if_pos hpos
  rw [findSegmentEndChecked, hsub, Option.bind_eq_bind, Option.bind_some,
    longestSegmentChecked_eq hi (by omega) (by omega), findSegmentEnd]

theorem isIdent_head_ascii {c : UInt8} {w : Bytes} (h : isIdent (c :: w) = true) : c < 0x80 := by
  simp only [isIdent, Bool.and_eq_true, Bool.or_eq_true, beq_iff_eq, isAsciiAlphabetic,
    isAsciiUppercase, isAsciiLowercase, decide_eq_true_eq] at h
  have hZ : 'Z'.toUInt8 < 0x80 := by decide
  have hz : 'z'.toUInt8 < 0x80 := by decide
  rcases h.1 with rfl | ⟨-, hle⟩ | ⟨-, hle⟩
  · decide
  · exact UInt8.lt_of_le_of_lt hle hZ
  · exact UInt8.lt_of_le_of_lt hle hz

theorem isAsciiDigit_ascii {c : UInt8} (h : isAsciiDigit c = true) : c < 0x80 := by
  simp only [isAsciiDigit, Bool.and_eq_true, decide_eq_true_eq] at h
  exact UInt8.lt_of_le_of_lt h.2 (by decide)

/-- What one turn reads: a segment, with its length, at the end of the text; both ends
of it are character boundaries, and so is the end of the text that is left. -/
structure Turn (inner : Bytes) (i : Nat) (r : Nat × Nat) (pre w : Bytes) : Prop where
  text : inner.take i = pre ++ itoa w.length ++ w
  segment : IsSegment w
  rest : inner.take r.2 = pre
  slice : slice inner r.1 i = w
  start_le : r.1 ≤ i
  end_lt : r.2 < i
  start_boundary : isCharBoundary inner r.1 = true
  end_boundary : isCharBoundary inner r.2 = true

theorem exists_turn {inner : Bytes} {i : Nat} {r : Nat × Nat} (hi : i ≤ inner.length)
    (h : findSegmentEnd inner i = some r) : ∃ pre w, Turn inner i r pre w := by
  obtain ⟨n, hn, ⟨⟨pre, w, htake, rfl, hid⟩, -⟩, rfl⟩ := (findSegmentEnd_eq_some_iff hi).mp h
  have hlen := congrArg List.length htake
  have hpos := itoa_length_pos w.length
  rw [List.length_take, List.length_append, List.length_append] at hlen
  have hstart : i - w.length = (pre ++ itoa w.length).length := by
    rw [List.length_append]
    omega
  have hend : i - w.length - (itoa w.length).length = pre.length := by omega
  refine ⟨pre, w, htake, ⟨hid, hn⟩, ?_, slice_eq htake hstart, Nat.sub_le _ _, by omega, ?_, ?_⟩
  · have hpre := congrArg (List.take pre.length) htake
    rw [List.take_take, Nat.min_eq_left (by omega), List.append_assoc, List.take_left] at hpre
    rw [hend, hpre]
  · rcases w with _ | ⟨c, w⟩
    · exact absurd rfl (isIdent_ne_nil hid)
    · rw [hstart]
      exact isCharBoundary_of_ascii (getElem?_of_take htake) (isIdent_head_ascii hid)
  · rcases hdigits : itoa w.length with _ | ⟨d, digits⟩
    · exact absurd hdigits (itoa_ne_nil _)
    · have hd := itoa_digits w.length hn d (by simp [hdigits])
      rw [hdigits, List.append_assoc, List.cons_append] at htake
      rw [hdigits] at hend
      rw [hend]
      exact isCharBoundary_of_ascii (getElem?_of_take htake) (isAsciiDigit_ascii hd)

theorem segmentsFromChecked_eq {inner : Bytes} {turns i : Nat} (hi : i ≤ inner.length)
    (hboundary : isCharBoundary inner i = true) (parts : List Bytes) :
    segmentsFromChecked inner turns i parts = some (segmentsFrom inner turns i parts) := by
  induction turns generalizing i parts with
  | zero => rfl
  | succ turns ih =>
    rw [segmentsFromChecked, segmentsFrom]
    split
    · rfl
    · rw [findSegmentEndChecked_eq (by omega) hi, Option.bind_eq_bind, Option.bind_some]
      rcases hfind : findSegmentEnd inner i with _ | r
      · rfl
      · obtain ⟨pre, w, hturn⟩ := exists_turn hi hfind
        have hlt := hturn.end_lt
        simp only
        rw [strSlice_eq hturn.start_le hturn.start_boundary hboundary, Option.bind_eq_bind,
          Option.bind_some, ih (by omega) hturn.end_boundary]

/-- No index, slice or subtraction of the decoder is out of range, and no string is cut
inside of a character. -/
theorem demangleChecked_eq (name : Bytes) : demangleChecked name = some (demangle name) := by
  rw [demangleChecked, demangle, stripPrefixChecked_eq, Option.bind_eq_bind, Option.bind_some]
  rcases stripPrefix name with _ | inner
  · rfl
  · simp only [stripGenericSuffixChecked_eq, Option.bind_eq_bind, Option.bind_some,
      segmentsFromChecked_eq (le_refl _) (isCharBoundary_length _)]

/-! ### What is displayed -/

/-- The parts that are read stand, each behind its length, at the end of the text. -/
theorem segmentsFrom_spec {inner : Bytes} {turns i : Nat} (hi : i ≤ inner.length) :
    (segmentsFrom inner turns i []).length ≤ turns ∧
      (∀ s ∈ segmentsFrom inner turns i [], IsSegment s) ∧
      (segmentsFrom inner turns i []).flatMap encodeSegment <:+ inner.take i := by
  induction turns generalizing i with
  | zero => exact ⟨le_refl _, List.forall_mem_nil _, List.nil_suffix⟩
  | succ turns ih =>
    rw [segmentsFrom]
    split
    · exact ⟨Nat.zero_le _, List.forall_mem_nil _, List.nil_suffix⟩
    · rcases hfind : findSegmentEnd inner i with _ | r
      · exact ⟨Nat.zero_le _, List.forall_mem_nil _, List.nil_suffix⟩
      · obtain ⟨pre, w, hturn⟩ := exists_turn hi hfind
        have hlt := hturn.end_lt
        obtain ⟨hlen, hsegments, hsuffix⟩ := ih (show r.2 ≤ inner.length by omega)
        simp only
        rw [segmentsFrom_parts, hturn.slice]
        refine ⟨?_, ?_, ?_⟩
        · rw [List.length_append, List.length_singleton]
          omega
        · rw [List.forall_mem_append, List.forall_mem_singleton]
          exact ⟨hsegments, hturn.segment⟩
        · obtain ⟨before, hbefore⟩ := hsuffix
          rw [hturn.rest] at hbefore
          rw [List.flatMap_append, List.flatMap_singleton, hturn.segment.encode, hturn.text,
            ← hbefore]
          exact ⟨before, by simp⟩

theorem stripPrefix_eq {name inner : Bytes} (h : stripPrefix name = some inner) :
    inner = name.dropWhile (· == '_'.toUInt8) := by
  rw [stripPrefix] at h
  split at h
  · cases h
  · split at h
    · cases h
    · exact (Option.some.inj h).symm

theorem infix_of_mem_parts {parts : List Bytes} {body s : Bytes}
    (h : parts.flatMap encodeSegment <:+ body) (hs : s ∈ parts) : s <:+: body := by
  obtain ⟨l, r, rfl⟩ := List.append_of_mem hs
  have hpart : encodeSegment s <:+: (l ++ s :: r).flatMap encodeSegment :=
    ⟨l.flatMap encodeSegment, r.flatMap encodeSegment, by simp⟩
  exact ((List.suffix_append _ s).isInfix.trans hpart).trans h.isInfix

theorem stripGenericSuffix_isPrefix (inner : Bytes) : stripGenericSuffix inner <+: inner := by
  rcases stripGenericSuffix_cases inner with heq | ⟨letters, heq, -⟩
  · rw [heq]
  · exact ⟨_, heq.symm⟩

/-- Whatever the name, the decoder returns, and displays the name or the path of at
most fifty identifiers, which stand behind their lengths at the end of the name, or
before one trailing marker. -/
theorem demangle_total (name : Bytes) :
    demangleChecked name = some (demangle name) ∧
      (demangle name = name ∨
        ∃ parts, demangle name = joinPath parts ∧ 1 ≤ parts.length ∧ parts.length ≤ 50 ∧
          (∀ s ∈ parts, isIdent s = true ∧ 1 ≤ s.length ∧ s.length ≤ 64 ∧ s <:+: name) ∧
          ∃ body, (name.dropWhile (· == '_'.toUInt8) = body ∨
              ∃ letters, name.dropWhile (· == '_'.toUInt8) =
                  body ++ 'G'.toUInt8 :: (letters ++ ['E'.toUInt8]) ∧
                ∀ c ∈ letters, isAsciiAlphabetic c = true) ∧
            parts.flatMap (fun s => decimal s.length ++ s) <:+ body) := by
  refine ⟨demangleChecked_eq name, ?_⟩
  rcases hstrip : stripPrefix name with _ | inner
  · left
    rw [demangle, hstrip]
  · have hinner := stripPrefix_eq hstrip
    set body := stripGenericSuffix inner with hbody
    have hcases := stripGenericSuffix_cases inner
    rw [← hbody] at hcases
    -- the name ends in `inner`, which begins with the text the segments are read from
    have hname : body <:+: name := by
      refine (stripGenericSuffix_isPrefix inner).isInfix.trans ?_
      rw [hinner]
      exact (List.dropWhile_suffix _).isInfix
    obtain ⟨hlen, hsegments, hsuffix⟩ :=
      segmentsFrom_spec (le_refl body.length)
    rw [List.take_length] at hsuffix
    have hdemangle : demangle name = if (segmentsFrom body maxSegments body.length []).isEmpty
        then name else joinPath (segmentsFrom body maxSegments body.length []) := by
      rw [demangle, hstrip]
    set parts := segmentsFrom body maxSegments body.length []
    rcases hparts : parts with _ | ⟨p, ps⟩
    · left
      rw [hdemangle, hparts]
      rfl
    · right
      refine ⟨parts, ?_, by simp [hparts], hlen, fun s hs => ?_, body, ?_, hsuffix⟩
      · rw [hdemangle, hparts]
        rfl
      · obtain ⟨hid, hmax⟩ := hsegments s hs
        exact ⟨hid, List.length_pos_iff.mpr (isIdent_ne_nil hid), hmax,
          (infix_of_mem_parts hsuffix hs).trans hname⟩
      · rw [← hinner]
        refine hcases.imp Eq.symm fun ⟨letters, heq, hl⟩ => ⟨letters, heq, fun c hc => ?_⟩
        have hmarker := hl c hc
        rw [isMarkerLetter, Bool.and_eq_true] at hmarker
        exact hmarker.1

end Demangle
