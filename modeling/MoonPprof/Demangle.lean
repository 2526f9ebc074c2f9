/-
The MoonBit symbol decoder (`crates/moonbit-demangle`).

`demangle name` strips the leading underscores and a trailing generic marker,
then reads `<decimal length><identifier>` segments backwards from the end of
the symbol.  A Rust string is its UTF-8 bytes here, as `as_bytes` shows it to
the decoder.

* `segmentOfLen_eq_some_iff` — a segment of length `n` is read off the end of
  a text exactly when the text fits one (`Fits`);
* `findSegmentEnd_eq_some_iff`, `findSegmentEnd_eq_none_iff` — the backward
  scan takes the longest segment that fits, and fails only when none does;
* `segmentsFrom_concat` — one turn of the decoding loop, on texts.
-/
import MoonPprof.Bytes
import Mathlib.Data.List.Infix
import Mathlib.Data.Nat.Find
import Mathlib.Tactic.Common

namespace Demangle

def isAsciiDigit (c : UInt8) : Bool := '0'.toUInt8 ≤ c && c ≤ '9'.toUInt8

def isAsciiUppercase (c : UInt8) : Bool := 'A'.toUInt8 ≤ c && c ≤ 'Z'.toUInt8

def isAsciiLowercase (c : UInt8) : Bool := 'a'.toUInt8 ≤ c && c ≤ 'z'.toUInt8

def isAsciiAlphabetic (c : UInt8) : Bool := isAsciiUppercase c || isAsciiLowercase c

def isAsciiAlphanumeric (c : UInt8) : Bool := isAsciiAlphabetic c || isAsciiDigit c

/-- `&bytes[a..b]`. -/
def slice (bytes : Bytes) (a b : Nat) : Bytes := (bytes.take b).drop a

def mangleInnerPrefix : Bytes := ascii "M0"

def maxSegments : Nat := 50

def maxSegmentLen : Nat := 64

def isIdent : Bytes → Bool
  | [] => false
  | c :: rest =>
    (c == '_'.toUInt8 || isAsciiAlphabetic c) &&
      rest.all fun c => c == '_'.toUInt8 || isAsciiAlphanumeric c

/-- The stack-only integer formatter; callers stay below two digits. -/
def itoa (n : Nat) : Bytes :=
  if n < 10 then [UInt8.ofNat ('0'.toNat + n)]
  else [UInt8.ofNat ('0'.toNat + n / 10), UInt8.ofNat ('0'.toNat + n % 10)]

/-- Accept `_*M0[A-Z]…` and return everything from `M0` onward. -/
def stripPrefix (name : Bytes) : Option Bytes :=
  let trimmed := name.dropWhile (· == '_'.toUInt8)
  if trimmed.length < 3 || trimmed.take 2 != mangleInnerPrefix then none
  else if !(trimmed[2]?.any isAsciiUppercase) then none
  else some trimmed

/-- The `while` loop of `stripGenericSuffix`: walk left over letters other
than `G`. -/
def lettersStart (bytes : Bytes) : Nat → Nat
  | 0 => 0
  | i + 1 =>
    if bytes[i]?.any (fun c => isAsciiAlphabetic c && c != 'G'.toUInt8) then
      lettersStart bytes i
    else i + 1

/-- Drop a trailing `G<letters>E` generic-instantiation marker. -/
def stripGenericSuffix (s : Bytes) : Bytes :=
  let fin := s.length
  if fin < 3 || s[fin - 1]? != some 'E'.toUInt8 then s
  else
    let i := lettersStart s (fin - 1)
    if 0 < i && s[i - 1]? == some 'G'.toUInt8 && i - 1 < fin - 1 then s.take (i - 1)
    else s

/-- The `while` loop of `find_segment_end`: walk left over the digit run that
ends at `d`. -/
def digitRunStart (bytes : Bytes) : Nat → Nat
  | 0 => 0
  | d + 1 => if bytes[d]?.any isAsciiDigit then digitRunStart bytes d else d + 1

/-- One turn of the `for n` loop of `find_segment_end`. -/
def segmentOfLen (bytes : Bytes) (i n : Nat) : Option (Nat × Nat) :=
  let chars := slice bytes (i - n) i
  if !isIdent chars then none
  else
    let dEnd := i - n
    let dStart := digitRunStart bytes dEnd
    if dStart = dEnd then none
    else
      -- The digit run may begin with the namespace count, so every suffix of
      -- it is tried, leftmost first.
      ((List.range' dStart (dEnd - dStart)).find? fun ds => slice bytes ds dEnd == itoa n).map
        fun ds => (i - n, ds)

/-- The `for n in (1..=max_n).rev()` loop of `find_segment_end`. -/
def longestSegment (bytes : Bytes) (i : Nat) : Nat → Option (Nat × Nat)
  | 0 => none
  | n + 1 =>
    match segmentOfLen bytes i (n + 1) with
    | some r => some r
    | none => longestSegment bytes i n

/-- The start of the longest segment that ends at `i`, and of its length
digits. -/
def findSegmentEnd (bytes : Bytes) (i : Nat) : Option (Nat × Nat) :=
  longestSegment bytes i (min (i - 1) maxSegmentLen)

/-- The decoding loop of `demangle`, with the turns left, the current end and
the parts read so far. -/
def segmentsFrom (inner : Bytes) : Nat → Nat → List Bytes → List Bytes
  | 0, _, parts => parts
  | turns + 1, i, parts =>
    if i = 0 then parts
    else
      match findSegmentEnd inner i with
      | none => parts
      | some (charsStart, newI) =>
        segmentsFrom inner turns newI (slice inner charsStart i :: parts)

/-- `parts.join("::")`. -/
def joinPath (parts : List Bytes) : Bytes := (ascii "::").intercalate parts

/-- Decode a MoonBit mangled symbol; a name that does not look mangled is
returned as it is. -/
def demangle (name : Bytes) : Bytes :=
  match stripPrefix name with
  | none => name
  | some inner =>
    let inner := stripGenericSuffix inner
    let parts := segmentsFrom inner maxSegments inner.length []
    if parts.isEmpty then name else joinPath parts

example : demangle (ascii "__M0FP26mizchi5bench3fib") = ascii "mizchi::bench::fib" := by
  decide +kernel

/-! ### What one backward step reads -/

/-- The text ends in a segment of length `n`: an identifier of `n` bytes with
its length in decimal before it. -/
def Fits (text : Bytes) (n : Nat) : Prop :=
  ∃ pre w, text = pre ++ itoa n ++ w ∧ w.length = n ∧ isIdent w = true

/-- The longest segment, at most `maxSegmentLen` bytes, that the text ends in
has length `n`. -/
def LongestFit (text : Bytes) (n : Nat) : Prop :=
  Fits text n ∧ ∀ n', n < n' → n' ≤ maxSegmentLen → ¬ Fits text n'

theorem itoa_ne_nil (n : Nat) : itoa n ≠ [] := by
  unfold itoa
  split <;> simp

theorem itoa_length_pos (n : Nat) : 0 < (itoa n).length :=
  List.length_pos_iff.mpr (itoa_ne_nil n)

theorem itoa_digits (n : Nat) (hn : n ≤ maxSegmentLen) :
    ∀ c ∈ itoa n, isAsciiDigit c = true := by
  have hdigit : ∀ d < 10, isAsciiDigit (UInt8.ofNat ('0'.toNat + d)) = true := by decide
  have hmax : maxSegmentLen = 64 := rfl
  intro c hc
  unfold itoa at hc
  split at hc
  · rename_i h
    rw [List.mem_singleton.mp hc]
    exact hdigit n h
  · rcases List.mem_pair.mp hc with rfl | rfl
    · exact hdigit _ (by omega)
    · exact hdigit _ (Nat.mod_lt _ (by omega))

theorem isIdent_ne_nil {w : Bytes} (h : isIdent w = true) : w ≠ [] := by
  rintro rfl
  simp [isIdent] at h

theorem slice_eq {bytes : Bytes} {a b : Nat} {pre w : Bytes}
    (h : bytes.take b = pre ++ w) (ha : a = pre.length) : slice bytes a b = w := by
  rw [slice, h, ha, List.drop_left]

/-- The byte behind a beginning of the text. -/
theorem getElem?_of_take {inner pre rest : Bytes} {c : UInt8} {i : Nat}
    (h : inner.take i = pre ++ c :: rest) : inner[pre.length]? = some c := by
  have hlen := congrArg List.length h
  have hget := congrArg (·[pre.length]?) h
  rw [List.length_take, List.length_append, List.length_cons] at hlen
  simpa [List.getElem?_take_of_lt (show pre.length < i by omega)] using hget

/-- A text that ends in one more byte: this byte, and what comes before it. -/
theorem take_concat {bytes u w : Bytes} {c : UInt8}
    (h : bytes.take (u.length + (w ++ [c]).length) = u ++ (w ++ [c])) :
    bytes[u.length + w.length]? = some c ∧ bytes.take (u.length + w.length) = u ++ w := by
  have hlen : (w ++ [c]).length = w.length + 1 := by rw [List.length_append, List.length_singleton]
  rw [← List.append_assoc] at h
  have hget := getElem?_of_take h
  have hprev := congrArg (List.take (u.length + w.length)) h
  rw [List.length_append] at hget
  rw [List.take_take, Nat.min_eq_left (by omega), ← List.length_append, List.take_left,
    List.length_append] at hprev
  exact ⟨hget, hprev⟩

theorem slice_length {bytes : Bytes} {a b : Nat} (hb : b ≤ bytes.length) :
    (slice bytes a b).length = b - a := by
  simp [slice, hb]

/-- The bytes before `b` are those before `a` and the slice between. -/
theorem take_eq_take_append_slice (bytes : Bytes) {a b : Nat} (h : a ≤ b) :
    bytes.take b = bytes.take a ++ slice bytes a b := by
  conv_lhs => rw [← List.take_append_drop a (bytes.take b)]
  rw [List.take_take, Nat.min_eq_left h, slice]

theorem digitRunStart_le (bytes : Bytes) (d : Nat) : digitRunStart bytes d ≤ d := by
  induction d with
  | zero => exact Nat.le_refl 0
  | succ d ih =>
    rw [digitRunStart]
    split
    · exact Nat.le_succ_of_le ih
    · exact Nat.le_refl _

/-- The digit run reaches back over any block of digits that ends at `d`. -/
theorem digitRunStart_le_of_digits {bytes pre : Bytes} :
    ∀ {ds : Bytes}, (∀ c ∈ ds, isAsciiDigit c = true) →
      bytes.take (pre.length + ds.length) = pre ++ ds →
      digitRunStart bytes (pre.length + ds.length) ≤ pre.length := by
  intro ds
  induction ds using List.reverseRecOn with
  | nil => exact fun _ _ => digitRunStart_le _ _
  | append_singleton ds c ih =>
    intro hds htake
    obtain ⟨hc, hprev⟩ := take_concat htake
    rw [List.length_append, List.length_singleton, ← Nat.add_assoc, digitRunStart, hc,
      Option.any_some, if_pos (hds c (by simp))]
    exact ih (fun x hx => hds x (by simp [hx])) hprev

/-- A segment of length `n` is read off the end of the first `i` bytes exactly
when they fit one; its length digits are then the last possible ones. -/
theorem segmentOfLen_eq_some_iff {bytes : Bytes} {i n : Nat} {r : Nat × Nat}
    (hi : i ≤ bytes.length) (hn : n ≤ maxSegmentLen) :
    segmentOfLen bytes i n = some r ↔
      Fits (bytes.take i) n ∧ r = (i - n, i - n - (itoa n).length) := by
  constructor
  · intro h
    unfold segmentOfLen at h
    by_cases hid : isIdent (slice bytes (i - n) i)
    · simp only [hid, Bool.not_true, Bool.false_eq_true, if_false] at h
      split at h
      · exact absurd h (by simp)
      · obtain ⟨ds, hfind, rfl⟩ := Option.map_eq_some_iff.mp h
        have hmem := List.mem_of_find?_eq_some hfind
        have heq : slice bytes ds (i - n) = itoa n := by
          simpa using List.find?_some hfind
        have hds : ds < i - n := by
          rw [List.mem_range'_1] at hmem
          omega
        have hlen := congrArg List.length heq
        rw [slice_length (by omega)] at hlen
        refine ⟨⟨bytes.take ds, slice bytes (i - n) i, ?_, ?_, hid⟩, ?_⟩
        · rw [← heq, ← take_eq_take_append_slice bytes (by omega),
            ← take_eq_take_append_slice bytes (by omega)]
        · rw [slice_length hi]
          omega
        · rw [← hlen]
          congr 1
          omega
    · simp [hid] at h
  · rintro ⟨⟨pre, w, htake, hw, hid⟩, rfl⟩
    have hlen : i = (pre ++ itoa n).length + n := by
      have := congrArg List.length htake
      rw [List.length_take, List.length_append, hw] at this
      omega
    have hstart : i - n = pre.length + (itoa n).length := by
      rw [List.length_append] at hlen
      omega
    have hpos := itoa_length_pos n
    have hsl : slice bytes (i - n) i = w :=
      slice_eq htake (by rw [hstart, List.length_append])
    have hpre : bytes.take (pre.length + (itoa n).length) = pre ++ itoa n := by
      have := congrArg (List.take (pre ++ itoa n).length) htake
      rw [List.take_left, List.take_take] at this
      rw [← this, List.length_append]
      congr 1
      rw [List.length_append] at hlen
      omega
    -- the scan for the length digits passes their beginning
    have hrun : digitRunStart bytes (i - n) ≤ pre.length := by
      rw [hstart]
      exact digitRunStart_le_of_digits (itoa_digits n hn) hpre
    have hds : slice bytes pre.length (i - n) = itoa n := by
      rw [hstart]
      exact slice_eq hpre rfl
    have hfind : (List.range' (digitRunStart bytes (i - n))
        (i - n - digitRunStart bytes (i - n))).find?
          (fun ds => slice bytes ds (i - n) == itoa n) = some pre.length := by
      rw [List.find?_range'_eq_some]
      refine ⟨by simpa using hds, List.mem_range'_1.mpr (by omega), fun a _ ha => ?_⟩
      -- an earlier start gives a longer slice
      have hne : slice bytes a (i - n) ≠ itoa n := by
        intro hc
        have := congrArg List.length hc
        rw [slice_length (by omega)] at this
        omega
      simpa using hne
    unfold segmentOfLen
    simp only [hsl, hid, Bool.not_true, Bool.false_eq_true, if_false, hfind, Option.map_some]
    rw [if_neg (by omega)]
    congr 2
    omega

theorem longestSegment_eq_some_iff {bytes : Bytes} {i m : Nat} {r : Nat × Nat}
    (hi : i ≤ bytes.length) (hm : m ≤ maxSegmentLen) :
    longestSegment bytes i m = some r ↔
      ∃ n, 1 ≤ n ∧ n ≤ m ∧ Fits (bytes.take i) n ∧
        (∀ n', n < n' → n' ≤ m → ¬ Fits (bytes.take i) n') ∧
        r = (i - n, i - n - (itoa n).length) := by
  induction m with
  | zero =>
    simp only [longestSegment, reduceCtorEq, false_iff]
    rintro ⟨n, h1, h0, -⟩
    omega
  | succ m ih =>
    rw [longestSegment]
    rcases hseg : segmentOfLen bytes i (m + 1) with _ | s
    · -- no segment of the longest length: the shorter ones decide
      have hno : ¬ Fits (bytes.take i) (m + 1) := fun hf => by
        rw [(segmentOfLen_eq_some_iff hi hm).mpr ⟨hf, rfl⟩] at hseg
        exact absurd hseg (by simp)
      rw [ih (by omega)]
      constructor
      · rintro ⟨n, h1, hn, hf, hmax, rfl⟩
        refine ⟨n, h1, by omega, hf, fun n' hlt hle => ?_, rfl⟩
        rcases Nat.lt_or_eq_of_le hle with h | rfl
        · exact hmax n' hlt (by omega)
        · exact hno
      · rintro ⟨n, h1, hn, hf, hmax, rfl⟩
        have hne : n ≠ m + 1 := fun h => hno (h ▸ hf)
        exact ⟨n, h1, by omega, hf, fun n' hlt hle => hmax n' hlt (by omega), rfl⟩
    · obtain ⟨hf, rfl⟩ := (segmentOfLen_eq_some_iff hi hm).mp hseg
      simp only [Option.some.injEq]
      constructor
      · rintro rfl
        exact ⟨m + 1, by omega, le_refl _, hf, fun n' _ _ => by omega, rfl⟩
      · rintro ⟨n, h1, hn, hf', hmax, rfl⟩
        rcases Nat.lt_or_eq_of_le hn with h | rfl
        · exact absurd hf (hmax (m + 1) h (le_refl _))
        · rfl

/-- A fitting segment leaves room for its length digits. -/
theorem Fits.length_lt {text : Bytes} {n : Nat} (h : Fits text n) : n < text.length := by
  obtain ⟨pre, w, rfl, rfl, -⟩ := h
  have := itoa_length_pos w.length
  simp only [List.length_append]
  omega

theorem Fits.pos {text : Bytes} {n : Nat} (h : Fits text n) : 1 ≤ n := by
  obtain ⟨pre, w, rfl, rfl, hid⟩ := h
  exact List.length_pos_iff.mpr (isIdent_ne_nil hid)

theorem findSegmentEnd_eq_some_iff {bytes : Bytes} {i : Nat} {r : Nat × Nat}
    (hi : i ≤ bytes.length) :
    findSegmentEnd bytes i = some r ↔
      ∃ n ≤ maxSegmentLen, LongestFit (bytes.take i) n ∧
        r = (i - n, i - n - (itoa n).length) := by
  rw [findSegmentEnd, longestSegment_eq_some_iff hi (Nat.min_le_right _ _)]
  have hbound : ∀ {n}, Fits (bytes.take i) n → n ≤ i - 1 := fun hf => by
    have := hf.length_lt
    rw [List.length_take] at this
    omega
  constructor
  · rintro ⟨n, -, hn, hf, hmax, rfl⟩
    refine ⟨n, by omega, ⟨hf, fun n' hlt hle hf' => ?_⟩, rfl⟩
    exact hmax n' hlt (le_min (hbound hf') hle) hf'
  · rintro ⟨n, hn, ⟨hf, hmax⟩, rfl⟩
    exact ⟨n, hf.pos, le_min (hbound hf) hn, hf,
      fun n' hlt hle => hmax n' hlt (le_trans hle (Nat.min_le_right _ _)), rfl⟩

theorem findSegmentEnd_eq_none_iff {bytes : Bytes} {i : Nat} (hi : i ≤ bytes.length) :
    findSegmentEnd bytes i = none ↔ ∀ n ≤ maxSegmentLen, ¬ Fits (bytes.take i) n := by
  constructor
  · intro h n hn hf
    -- Some length fits, so a longest one does, and the scan would take it.
    obtain ⟨m, ⟨hm, hfm⟩, hmax⟩ : ∃ m, (m ≤ maxSegmentLen ∧ Fits (bytes.take i) m) ∧
        ∀ m', m' ≤ maxSegmentLen ∧ Fits (bytes.take i) m' → m' ≤ m := by
      classical
      refine ⟨Nat.findGreatest (fun k => Fits (bytes.take i) k) maxSegmentLen, ⟨?_, ?_⟩, ?_⟩
      · exact Nat.findGreatest_le _
      · exact Nat.findGreatest_spec (P := fun k => Fits (bytes.take i) k) hn hf
      · exact fun m' hm' => Nat.le_findGreatest hm'.1 hm'.2
    have := (findSegmentEnd_eq_some_iff hi).mpr
      ⟨m, hm, ⟨hfm, fun n' hlt hle hf' => by have := hmax n' ⟨hle, hf'⟩; omega⟩, rfl⟩
    rw [h] at this
    exact absurd this (by simp)
  · intro h
    rcases hf : findSegmentEnd bytes i with _ | r
    · rfl
    · obtain ⟨n, hn, hlong, -⟩ := (findSegmentEnd_eq_some_iff hi).mp hf
      exact absurd hlong.1 (h n hn)

/-! ### The decoding loop -/

/-- The parts already read are carried along unchanged. -/
theorem segmentsFrom_parts (inner : Bytes) (turns i : Nat) (parts : List Bytes) :
    segmentsFrom inner turns i parts = segmentsFrom inner turns i [] ++ parts := by
  induction turns generalizing i parts with
  | zero => rfl
  | succ turns ih =>
    rw [segmentsFrom, segmentsFrom]
    split
    · rfl
    · rcases findSegmentEnd inner i with _ | ⟨c, i'⟩
      · rfl
      · simp only
        rw [ih i' (_ :: parts), ih i' [_], List.append_assoc, List.singleton_append]

/-- The last segment that is read is the longest one where the text ends. -/
theorem last_of_segmentsFrom {inner w : Bytes} {segs : List Bytes} {turns i : Nat}
    (hi : i ≤ inner.length) (h : segmentsFrom inner turns i [] = segs ++ [w]) :
    ∃ n ≤ maxSegmentLen, LongestFit (inner.take i) n ∧ slice inner (i - n) i = w := by
  have hne : segs ++ [w] ≠ [] := by simp
  rcases turns with _ | turns
  · exact absurd h hne.symm
  rw [segmentsFrom] at h
  split at h
  · exact absurd h hne.symm
  · rcases hfind : findSegmentEnd inner i with _ | r
    · rw [hfind] at h
      exact absurd h hne.symm
    · obtain ⟨n, hn, hfit, rfl⟩ := (findSegmentEnd_eq_some_iff hi).mp hfind
      rw [hfind] at h
      simp only at h
      rw [segmentsFrom_parts] at h
      obtain ⟨-, hw⟩ := List.append_inj' h rfl
      exact ⟨n, hn, hfit, List.singleton_inj.mp hw⟩

/-- One turn on a text whose last segment is `w`. -/
theorem segmentsFrom_concat {inner text w : Bytes} {turns : Nat}
    (htext : inner.take (text ++ itoa w.length ++ w).length = text ++ itoa w.length ++ w)
    (hw : w.length ≤ maxSegmentLen)
    (hlong : LongestFit (text ++ itoa w.length ++ w) w.length) :
    segmentsFrom inner (turns + 1) (text ++ itoa w.length ++ w).length [] =
      segmentsFrom inner turns text.length [] ++ [w] := by
  set i := (text ++ itoa w.length ++ w).length with hi
  have hle : i ≤ inner.length := by
    have := congrArg List.length htext
    rw [List.length_take] at this
    omega
  have hlen : i = text.length + (itoa w.length).length + w.length := by
    simp [hi]; omega
  have hpos := itoa_length_pos w.length
  have hfind : findSegmentEnd inner i = some (i - w.length, text.length) := by
    rw [findSegmentEnd_eq_some_iff hle]
    refine ⟨w.length, hw, by rwa [htext], ?_⟩
    congr 1
    omega
  rw [segmentsFrom, if_neg (by omega), hfind]
  simp only
  rw [segmentsFrom_parts,
    slice_eq htext (show i - w.length = (text ++ itoa w.length).length by simp; omega)]

/-- A text that no segment ends is not read any further. -/
theorem segmentsFrom_of_not_fits {inner : Bytes} {turns i : Nat} (hi : i ≤ inner.length)
    (h : ∀ n ≤ maxSegmentLen, ¬ Fits (inner.take i) n) : segmentsFrom inner turns i [] = [] := by
  rcases turns with _ | turns
  · rfl
  · rw [segmentsFrom, (findSegmentEnd_eq_none_iff hi).mpr h]
    simp

end Demangle
