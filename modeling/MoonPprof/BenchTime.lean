/-
The time that the bench driver reads from a profiler run (`parse_ms` of
`cmd_bench` and the timing line of `cmd_profile`, `runners/moon-pprof`).

The profiler prints the elapsed time in the `Debug` form of a `Duration`, which
chooses its unit by the magnitude; the driver looks for the first number in
milliseconds in all that the run has printed.

* `captures_timingLine` — the number of the line is found when its unit is `ms`;
* `parseMs_iff` — when the driver reads the printed time.
-/
import MoonPprof.FloatText
import MoonPprof.Pattern
import MoonPprof.Text

open Text

namespace CmdBench

/-! ### The reader -/

/-- `[0-9]+\.[0-9]+|[0-9]+`. -/
def number : Pattern Char :=
  Pattern.alt
    (Pattern.seq (Pattern.many1 Char.isDigit)
      (Pattern.seq (Pattern.lit ['.']) (Pattern.many1 Char.isDigit)))
    (Pattern.many1 Char.isDigit)

/-- `\s*ms`. -/
def unitMs : Pattern Char := Pattern.seq (Pattern.many isWhitespace) (Pattern.lit ['m', 's'])

/-- The group of the first match of `([0-9]+\.[0-9]+|[0-9]+)\s*ms`. -/
def captures (s : List Char) : Option (List Char) :=
  Pattern.leftmost (Pattern.group number unitMs) s

def parseMs (s : String) : Except String F64 :=
  match captures s.toList with
  -- no unit but `ms` is known here
  | none => .error ("no ms value in: " ++ String.ofList (trim s.toList))
  | some m =>
    match parseF64 m with
    | some ms => .ok ms
    | none => .error "invalid float literal"

def combinedOutput (stdout stderr : String) : String := stdout ++ stderr

/-! ### The writer -/

inductive TimeUnit where
  | s | ms | us | ns
deriving DecidableEq

/-- The unit in which a duration of `d` nanoseconds is shown. -/
def TimeUnit.of (d : Nat) : TimeUnit :=
  if 1000000000 ≤ d then .s else if 1000000 ≤ d then .ms else if 1000 ≤ d then .us else .ns

def TimeUnit.nanos : TimeUnit → Nat
  | .s => 1000000000
  | .ms => 1000000
  | .us => 1000
  | .ns => 1

def TimeUnit.suffix : TimeUnit → String
  | .s => "s"
  | .ms => "ms"
  | .us => "µs"
  | .ns => "ns"

-- `tieUp` says of a duration halfway between two hundredths whether it is rounded up.
variable (tieUp : Nat → Bool)

/-- The hundredths of its unit that are shown of a duration. -/
def hundredths (d : Nat) : Nat :=
  let n := (TimeUnit.of d).nanos
  let h := d * 100 / n
  let r := d * 100 % n
  -- the remainder is rounded, and may carry into the whole units
  if n < 2 * r ∨ (2 * r = n ∧ tieUp h) then h + 1 else h

/-- A number of hundredths with two decimals. -/
def twoDecimals (h : Nat) : List Char :=
  Nat.toDigits 10 (h / 100) ++ ['.', Nat.digitChar (h % 100 / 10), Nat.digitChar (h % 10)]

/-- `format!("{:.2?}", d)`. -/
def debugDuration (d : Nat) : String :=
  String.ofList (twoDecimals (hundredths tieUp d)) ++ (TimeUnit.of d).suffix

def timingLine (iterations d : Nat) : String :=
  "[moon-pprof profile] " ++ toString iterations ++ " iter in " ++ debugDuration tieUp d ++
    " (no profile)\n"

/-- The time of the line, in milliseconds. -/
def printedMs (d : Nat) : ℚ := hundredths tieUp d / 100 * ((TimeUnit.of d).nanos / 1000000)

/-! ### A number in milliseconds -/

/-- Digits, with a point among them or not. -/
def IsNumber (tok : List Char) : Prop :=
  (tok ≠ [] ∧ ∀ c ∈ tok, c.isDigit) ∨
    ∃ ds fs, tok = ds ++ '.' :: fs ∧ (ds ≠ [] ∧ ∀ c ∈ ds, c.isDigit) ∧ fs ≠ [] ∧ ∀ c ∈ fs, c.isDigit

/-- The text starts with the number `tok`, white space perhaps, and `ms`. -/
def MsAt (s tok : List Char) : Prop :=
  IsNumber tok ∧ ∃ ws post, s = tok ++ (ws ++ 'm' :: 's' :: post) ∧ ∀ c ∈ ws, isWhitespace c

/-- No number in milliseconds starts anywhere. -/
def NoMs (s : List Char) : Prop := ∀ rest, rest <:+ s → ∀ tok, ¬MsAt rest tok

/-- The number in milliseconds that starts first. -/
def FirstMs (s tok : List Char) : Prop :=
  ∃ rest, rest <:+ s ∧ MsAt rest tok ∧
    ∀ rest', rest' <:+ s → rest.length < rest'.length → ∀ tok', ¬MsAt rest' tok'

theorem mem_number {s x rest : List Char} :
    (x, rest) ∈ number s ↔ s = x ++ rest ∧ IsNumber x := by
  rw [number, Pattern.mem_alt, Pattern.mem_many1, Pattern.mem_seq]
  constructor
  · rintro (⟨ds, tail, mid, hwhole, htail, rfl⟩ | ⟨rfl, h⟩)
    · obtain ⟨rfl, hds⟩ := Pattern.mem_many1.mp hwhole
      obtain ⟨point, fs, mid', hpoint, hfraction, rfl⟩ := Pattern.mem_seq.mp htail
      obtain ⟨rfl, rfl⟩ := Pattern.mem_lit.mp hpoint
      obtain ⟨rfl, hfs⟩ := Pattern.mem_many1.mp hfraction
      exact ⟨by simp, Or.inr ⟨ds, fs, rfl, hds, hfs⟩⟩
    · exact ⟨rfl, Or.inl h⟩
  · rintro ⟨rfl, h | ⟨ds, fs, rfl, hds, hfs⟩⟩
    · exact Or.inr ⟨rfl, h⟩
    · refine Or.inl ⟨ds, '.' :: fs, '.' :: (fs ++ rest), ?_, ?_, rfl⟩
      · exact Pattern.mem_many1.mpr ⟨by simp, hds⟩
      · exact Pattern.mem_seq.mpr ⟨['.'], fs, fs ++ rest, Pattern.mem_lit.mpr ⟨rfl, rfl⟩,
          Pattern.mem_many1.mpr ⟨rfl, hfs⟩, rfl⟩

theorem unitMs_ne_nil_iff {s : List Char} :
    unitMs s ≠ [] ↔ ∃ ws post, s = ws ++ 'm' :: 's' :: post ∧ ∀ c ∈ ws, isWhitespace c := by
  constructor
  · intro h
    obtain ⟨⟨x, post⟩, hmem⟩ := List.exists_mem_of_ne_nil _ h
    obtain ⟨ws, ms, mid, hws, hms, rfl⟩ := Pattern.mem_seq.mp hmem
    obtain ⟨rfl, hall⟩ := Pattern.mem_many.mp hws
    obtain ⟨rfl, rfl⟩ := Pattern.mem_lit.mp hms
    exact ⟨ws, post, rfl, hall⟩
  · rintro ⟨ws, post, rfl, hall⟩
    exact List.ne_nil_of_mem (Pattern.mem_seq.mpr ⟨ws, ['m', 's'], _,
      Pattern.mem_many.mpr ⟨rfl, hall⟩, Pattern.mem_lit.mpr ⟨rfl, rfl⟩, rfl⟩)

def isNumberChar (c : Char) : Bool := c.isDigit || c = '.'

theorem IsNumber.all {tok : List Char} (h : IsNumber tok) : ∀ c ∈ tok, isNumberChar c := by
  have hdigit : ∀ c : Char, c.isDigit → isNumberChar c := by
    intro c hc
    rw [isNumberChar, hc, Bool.true_or]
  rcases h with ⟨-, h⟩ | ⟨ds, fs, rfl, ⟨-, hds⟩, -, hfs⟩
  · exact fun c hc => hdigit c (h c hc)
  · intro c hc
    rcases List.mem_append.mp hc with hc | hc
    · exact hdigit c (hds c hc)
    · rcases List.mem_cons.mp hc with rfl | hc
      · rfl
      · exact hdigit c (hfs c hc)

theorem IsNumber.head {c : Char} {tok : List Char} (h : IsNumber (c :: tok)) : c.isDigit := by
  rcases h with ⟨-, h⟩ | ⟨ds, fs, heq, ⟨hne, hds⟩, -⟩
  · exact h c List.mem_cons_self
  · cases ds with
    | nil => exact absurd rfl hne
    | cons d ds =>
      obtain ⟨rfl, -⟩ := List.cons.inj heq
      exact hds c List.mem_cons_self

theorem IsNumber.ne_nil {tok : List Char} (h : IsNumber tok) : tok ≠ [] := by
  rcases h with ⟨h, -⟩ | ⟨ds, fs, rfl, -⟩
  · exact h
  · simp

theorem not_isNumberChar_of_isWhitespace {c : Char} (h : isWhitespace c) : ¬isNumberChar c := by
  rw [isNumberChar, Bool.or_eq_true, decide_eq_true_eq, not_or]
  constructor
  · intro hdigit
    rw [isWhitespace_of_isDigit hdigit] at h
    cases h
  · rintro rfl
    exact absurd h (by decide)

/-- The number is all there is of digits and points. -/
theorem MsAt.eq_takeWhile {s tok : List Char} (h : MsAt s tok) :
    tok = s.takeWhile isNumberChar := by
  obtain ⟨hnumber, ws, post, rfl, hws⟩ := h
  rw [List.takeWhile_append_of_pos hnumber.all]
  cases ws with
  | nil => rw [List.nil_append, List.takeWhile_cons_of_neg (by decide), List.append_nil]
  | cons w ws =>
    rw [List.cons_append, List.takeWhile_cons_of_neg
      (not_isNumberChar_of_isWhitespace (hws w List.mem_cons_self)), List.append_nil]

theorem group_eq_some_iff {s tok : List Char} :
    Pattern.group number unitMs s = some tok ↔ MsAt s tok := by
  have hat : ∀ x mid, (x, mid) ∈ number s ∧ unitMs mid ≠ [] → MsAt s x := by
    rintro x mid ⟨hx, hne⟩
    obtain ⟨rfl, hnumber⟩ := mem_number.mp hx
    obtain ⟨ws, post, rfl, hws⟩ := unitMs_ne_nil_iff.mp hne
    exact ⟨hnumber, ws, post, rfl, hws⟩
  rw [Pattern.group_eq_some_iff]
  · constructor
    · rintro ⟨mid, h⟩
      exact hat tok mid h
    · rintro ⟨hnumber, ws, post, rfl, hws⟩
      exact ⟨_, mem_number.mpr ⟨rfl, hnumber⟩, unitMs_ne_nil_iff.mpr ⟨ws, post, rfl, hws⟩⟩
  · intro x x' mid mid' hx hx' hne hne'
    rw [(hat x mid ⟨hx, hne⟩).eq_takeWhile, (hat x' mid' ⟨hx', hne'⟩).eq_takeWhile]

theorem captures_eq_some_iff {s tok : List Char} : captures s = some tok ↔ FirstMs s tok := by
  have hnone : ∀ rest : List Char, Pattern.group number unitMs rest = none ↔
      ∀ tok, ¬MsAt rest tok := by
    intro rest
    simp only [Option.eq_none_iff_forall_ne_some, ne_eq, group_eq_some_iff]
  rw [captures, Pattern.leftmost_eq_some_iff, FirstMs]
  simp only [group_eq_some_iff, hnone]

theorem captures_eq_none_iff {s : List Char} : captures s = none ↔ NoMs s := by
  rw [captures, Pattern.leftmost_eq_none_iff, NoMs]
  simp only [Option.eq_none_iff_forall_ne_some, ne_eq, group_eq_some_iff]

/-! ### Numbers do not reach across a text -/

/-- A character of no number, white space or unit. -/
def Breaks (c : Char) : Prop := ¬isNumberChar c ∧ ¬isWhitespace c ∧ c ≠ 'm' ∧ c ≠ 's'

instance (c : Char) : Decidable (Breaks c) := inferInstanceAs (Decidable (_ ∧ _))

theorem msAt_append_iff {c : Char} (hc : Breaks c) {r t tok : List Char} :
    MsAt (r ++ c :: t) tok ↔ MsAt r tok := by
  constructor
  · rintro ⟨hnumber, ws, post, heq, hws⟩
    refine ⟨hnumber, ?_⟩
    have hsplit : r ++ c :: t = (tok ++ (ws ++ ['m', 's'])) ++ post := by
      rw [heq]
      simp
    have hout : c ∉ tok ++ (ws ++ ['m', 's']) := by
      obtain ⟨hnum, hspace, hm, hs⟩ := hc
      simp only [List.mem_append, List.mem_cons, List.not_mem_nil, or_false, not_or]
      exact ⟨fun h => hnum (hnumber.all c h), fun h => hspace (hws c h), hm, hs⟩
    -- the number with its unit lies before `c`, or would hold it
    rcases List.append_eq_append_iff.mp hsplit with ⟨u, hu, hct⟩ | ⟨u, hu, hpost⟩
    · cases u with
      | nil =>
        refine ⟨ws, [], ?_, hws⟩
        rw [List.append_nil] at hu
        rw [← hu]
      | cons d u =>
        obtain ⟨rfl, -⟩ := List.cons.inj hct
        exact absurd (hu ▸ List.mem_append_right _ List.mem_cons_self) hout
    · exact ⟨ws, u, by rw [hu]; simp, hws⟩
  · rintro ⟨hnumber, ws, post, rfl, hws⟩
    exact ⟨hnumber, ws, post ++ c :: t, by simp, hws⟩

theorem not_msAt_nil (tok : List Char) : ¬MsAt [] tok := by
  rintro ⟨hnumber, ws, post, heq, -⟩
  exact hnumber.ne_nil (List.append_eq_nil_iff.mp heq.symm).1

/-- What is before such a character is searched first, and by itself. -/
theorem captures_append {c : Char} (hc : Breaks c) (s t : List Char) :
    captures (s ++ c :: t) = (captures s).or (captures (c :: t)) := by
  refine Pattern.leftmost_append (fun r _ => ?_) ?_
  · refine Option.ext fun tok => ?_
    rw [group_eq_some_iff, group_eq_some_iff, msAt_append_iff hc]
  · rw [Option.eq_none_iff_forall_ne_some]
    intro tok htok
    exact not_msAt_nil tok (group_eq_some_iff.mp htok)

theorem captures_of_no_m {s : List Char} (h : 'm' ∉ s) : captures s = none := by
  rw [captures_eq_none_iff]
  rintro rest hrest tok ⟨-, ws, post, rfl, -⟩
  exact h (hrest.subset (by simp))

/-- The search passes over what is no digit. -/
theorem captures_cons {c : Char} (hc : ¬c.isDigit) (s : List Char) :
    captures (c :: s) = captures s := by
  have hnone : Pattern.group number unitMs (c :: s) = none := by
    rw [Option.eq_none_iff_forall_ne_some]
    intro tok htok
    obtain ⟨hnumber, ws, post, heq, -⟩ := group_eq_some_iff.mp htok
    cases tok with
    | nil => exact hnumber.ne_nil rfl
    | cons d tok =>
      obtain ⟨rfl, -⟩ := List.cons.inj heq
      exact hc hnumber.head
  rw [captures, Pattern.leftmost, hnone, Option.none_or, captures]

theorem captures_append_of_no_digit {s : List Char} (h : ∀ c ∈ s, ¬c.isDigit) (t : List Char) :
    captures (s ++ t) = captures t := by
  induction s with
  | nil => rfl
  | cons c s ih =>
    rw [List.forall_mem_cons] at h
    rw [List.cons_append, captures_cons h.1, ih h.2]

theorem captures_of_no_digit {s : List Char} (h : ∀ c ∈ s, ¬c.isDigit) : captures s = none := by
  have hskip := captures_append_of_no_digit h []
  rwa [List.append_nil] at hskip

theorem captures_of_msAt {s tok : List Char} (h : MsAt s tok) : captures s = some tok := by
  rw [captures_eq_some_iff]
  refine ⟨s, List.suffix_refl s, h, fun rest' hrest' hlt => ?_⟩
  exact absurd hrest'.length_le (Nat.not_le.mpr hlt)

/-! ### The timing line -/

variable {tieUp : Nat → Bool}

theorem isDigit_digitChar {n : Nat} (h : n < 10) : (Nat.digitChar n).isDigit := by
  refine Nat.isDigit_of_mem_toDigits (b := 10) (n := n) (by decide) (by decide) ?_
  rw [Nat.toDigits_of_lt_base h]
  exact List.mem_singleton_self _

theorem isNumber_twoDecimals (h : Nat) : IsNumber (twoDecimals h) := by
  refine Or.inr ⟨_, _, rfl, ⟨Nat.toDigits_ne_nil, fun c hc => ?_⟩, List.cons_ne_nil _ _, ?_⟩
  · exact Nat.isDigit_of_mem_toDigits (by decide) (by decide) hc
  · rw [List.forall_mem_cons, List.forall_mem_singleton]
    exact ⟨isDigit_digitChar (by omega), isDigit_digitChar (by omega)⟩

theorem not_mem_of_isNumberChar {tok : List Char} {c : Char} (h : ∀ d ∈ tok, isNumberChar d)
    (hc : ¬isNumberChar c) : c ∉ tok :=
  fun hmem => hc (h c hmem)

/-- The number and its unit: only milliseconds are found. -/
theorem captures_debugDuration (d : Nat) :
    captures ((debugDuration tieUp d).toList ++ [' ']) =
      if TimeUnit.of d = .ms then some (twoDecimals (hundredths tieUp d)) else none := by
  rw [debugDuration, String.toList_append, String.toList_ofList]
  by_cases hunit : TimeUnit.of d = .ms
  · rw [if_pos hunit, hunit]
    refine captures_of_msAt ⟨isNumber_twoDecimals _, [], [' '], ?_, nofun⟩
    rw [List.append_assoc]
    rfl
  · rw [if_neg hunit]
    refine captures_of_no_m ?_
    have hnumber : 'm' ∉ twoDecimals (hundredths tieUp d) :=
      not_mem_of_isNumberChar (isNumber_twoDecimals _).all (by decide)
    have hsuffix : 'm' ∉ (TimeUnit.of d).suffix.toList := by
      cases h : TimeUnit.of d with
      | ms => exact absurd h hunit
      | s => decide
      | us => decide
      | ns => decide
    simp [hnumber, hsuffix]

theorem timingLine_toList (iterations d : Nat) :
    (timingLine tieUp iterations d).toList =
      '[' :: "moon-pprof profile".toList ++ ']' :: ((' ' :: Nat.toDigits 10 iterations ++ [' ']) ++
        'i' :: ("ter in ".toList ++ (((debugDuration tieUp d).toList ++ [' ']) ++
          '(' :: "no profile)\n".toList))) := by
  have hopen : "[moon-pprof profile] ".toList =
    '[' :: ("moon-pprof profile".toList ++ [']', ' ']) := rfl
  have hiter : " iter in ".toList = ' ' :: 'i' :: "ter in ".toList := rfl
  have hclose : " (no profile)\n".toList = ' ' :: '(' :: "no profile)\n".toList := rfl
  unfold timingLine
  simp only [String.toList_append, Nat.toString_eq_repr, Nat.toList_repr, hopen, hiter, hclose]
  simp only [List.append_assoc, List.cons_append, List.nil_append]

/-- The line has the number of iterations before the duration, with no unit. -/
theorem captures_timingLine (iterations d : Nat) :
    captures (timingLine tieUp iterations d).toList =
      if TimeUnit.of d = .ms then some (twoDecimals (hundredths tieUp d)) else none := by
  have hdigits : 'm' ∉ ' ' :: Nat.toDigits 10 iterations ++ [' '] := by
    intro h
    rcases List.mem_append.mp h with h | h
    · rcases List.mem_cons.mp h with h | h
      · cases h
      · cases Nat.isDigit_of_mem_toDigits (by decide) (by decide) h
    · cases List.mem_singleton.mp h
  have htitle : ∀ c ∈ '[' :: "moon-pprof profile".toList, ¬c.isDigit := List.any_eq_false.mp rfl
  have hiter : ∀ c ∈ "ter in ".toList, ¬c.isDigit := List.any_eq_false.mp rfl
  have hclose : ∀ c ∈ '(' :: "no profile)\n".toList, ¬c.isDigit := List.any_eq_false.mp rfl
  calc captures (timingLine tieUp iterations d).toList
      = captures ((' ' :: Nat.toDigits 10 iterations ++ [' ']) ++ 'i' :: ("ter in ".toList ++
          (((debugDuration tieUp d).toList ++ [' ']) ++ '(' :: "no profile)\n".toList))) := by
        rw [timingLine_toList, captures_append (by decide), captures_of_no_digit htitle,
          Option.none_or, captures_cons (by decide)]
    _ = captures (((debugDuration tieUp d).toList ++ [' ']) ++ '(' :: "no profile)\n".toList) := by
        rw [captures_append (by decide), captures_of_no_m hdigits, Option.none_or,
          captures_cons (by decide), captures_append_of_no_digit hiter]
    _ = captures ((debugDuration tieUp d).toList ++ [' ']) := by
        rw [captures_append (by decide), captures_of_no_digit hclose, Option.or_none]
    _ = if TimeUnit.of d = .ms then some (twoDecimals (hundredths tieUp d)) else none :=
        captures_debugDuration d

/-- The number of the line is looked at after those of the guest. -/
theorem captures_combinedOutput (stdout : String) (iterations d : Nat) :
    captures (combinedOutput stdout (timingLine tieUp iterations d)).toList =
      (captures stdout.toList).or
        (if TimeUnit.of d = .ms then some (twoDecimals (hundredths tieUp d)) else none) := by
  have hline := @timingLine_toList tieUp iterations d
  rw [List.cons_append] at hline
  rw [combinedOutput, String.toList_append, ← captures_timingLine iterations, hline,
    captures_append (by decide)]

/-- Two decimals are read as what they show. -/
theorem parseF64_twoDecimals (h : Nat) : parseF64 (twoDecimals h) = some (F64.ofRat (h / 100)) := by
  have hwhole : ∀ c ∈ Nat.toDigits 10 (h / 100), c.isDigit = true := fun c hc =>
    Nat.isDigit_of_mem_toDigits (by decide) (by decide) hc
  have hfraction : ∀ c ∈ [Nat.digitChar (h % 100 / 10), Nat.digitChar (h % 10)],
    c.isDigit = true := by
    rw [List.forall_mem_cons, List.forall_mem_singleton]
    exact ⟨isDigit_digitChar (by omega), isDigit_digitChar (by omega)⟩
  have hsign : takeSign (twoDecimals h) = (false, twoDecimals h) := by
    rw [twoDecimals]
    rcases hd : Nat.toDigits 10 (h / 100) with _ | ⟨c, s⟩
    · exact absurd hd Nat.toDigits_ne_nil
    · exact takeSign_of_digit (hwhole c (hd ▸ List.mem_cons_self))
  have hvalue : Nat.ofDigitChars 10 (Nat.toDigits 10 (h / 100) ++
      [Nat.digitChar (h % 100 / 10), Nat.digitChar (h % 10)]) 0 = h := by
    rw [Nat.ofDigitChars_append, Nat.ofDigitChars_ten_toDigits,
      Nat.ofDigitChars_cons_digitChar_of_lt_ten (by omega),
      Nat.ofDigitChars_cons_digitChar_of_lt_ten (by omega), Nat.ofDigitChars_nil]
    omega
  have hnumber : parseNumber (twoDecimals h) = some ((h : ℚ) / 100) := by
    rw [twoDecimals, parseNumber_point Nat.toDigits_ne_nil hwhole hfraction, hvalue]
    norm_num
  rw [parseF64, hsign]
  simp only [hnumber, Bool.false_eq_true, if_false]

theorem of_eq_ms_iff {d : Nat} : TimeUnit.of d = .ms ↔ 1000000 ≤ d ∧ d < 1000000000 := by
  rw [TimeUnit.of]
  split_ifs with hs hms hus
  · exact iff_of_false nofun fun h => Nat.not_lt.mpr hs h.2
  · exact iff_of_true rfl ⟨hms, Nat.not_le.mp hs⟩
  · exact iff_of_false nofun fun h => hms h.1
  · exact iff_of_false nofun fun h => hms h.1

/-- The driver reads the printed time if the first number in milliseconds of the
guest is that time, or the guest prints none and the profiler chooses the unit. -/
theorem parseMs_iff (tieUp : Nat → Bool) (iterations d : Nat) (stdout : String) :
    parseMs (combinedOutput stdout (timingLine tieUp iterations d)) =
        .ok (F64.ofRat (printedMs tieUp d)) ↔
      (∃ tok, FirstMs stdout.toList tok ∧ parseF64 tok = some (F64.ofRat (printedMs tieUp d))) ∨
        (NoMs stdout.toList ∧ 1000000 ≤ d ∧ d < 1000000000) := by
  have hread : parseMs (combinedOutput stdout (timingLine tieUp iterations d)) =
      .ok (F64.ofRat (printedMs tieUp d)) ↔
        ∃ tok, captures (combinedOutput stdout (timingLine tieUp iterations d)).toList = some tok ∧
          parseF64 tok = some (F64.ofRat (printedMs tieUp d)) := by
    rw [parseMs]
    cases captures (combinedOutput stdout (timingLine tieUp iterations d)).toList with
    | none => exact iff_of_false nofun (by rintro ⟨tok, h, -⟩; cases h)
    | some m => cases hm : parseF64 m <;> simp [hm]
  -- a number of the guest hides the one of the line
  rw [hread, captures_combinedOutput]
  cases hout : captures stdout.toList with
  | some tok =>
    have hfirst := captures_eq_some_iff.mp hout
    have hno : ¬NoMs stdout.toList := by
      rw [← captures_eq_none_iff, hout]
      nofun
    simp only [Option.some_or, Option.some.injEq, exists_eq_left', hno, false_and, or_false]
    constructor
    · exact fun h => ⟨tok, hfirst, h⟩
    · rintro ⟨tok', hfirst', h⟩
      rw [← captures_eq_some_iff, hout, Option.some.injEq] at hfirst'
      rwa [hfirst']
  | none =>
    have hno := captures_eq_none_iff.mp hout
    have hfirst : ∀ tok, ¬FirstMs stdout.toList tok := by
      intro tok htok
      rw [← captures_eq_some_iff, hout] at htok
      cases htok
    simp only [Option.none_or, hfirst, false_and, exists_false, false_or, hno, true_and]
    rw [← of_eq_ms_iff]
    by_cases hunit : TimeUnit.of d = .ms
    · refine iff_of_true ⟨_, if_pos hunit, ?_⟩ hunit
      rw [parseF64_twoDecimals, printedMs, hunit, TimeUnit.nanos]
      norm_num
    · rw [if_neg hunit]
      refine iff_of_false ?_ hunit
      rintro ⟨tok, h, -⟩
      cases h

/-- Two seconds are printed as `2.00s`, and nothing is read. -/
theorem parseMs_seconds :
    ¬∃ ms, parseMs (combinedOutput "" (timingLine (fun _ => false) 1 2000000000)) = .ok ms := by
  have hcaptures : captures
      (combinedOutput "" (timingLine (fun _ => false) 1 2000000000)).toList = none := by
    rw [captures_combinedOutput]
    rfl
  rintro ⟨ms, h⟩
  rw [parseMs, hcaptures] at h
  cases h

end CmdBench
