/-
The lines of a folded text.

* `parseFoldedLine_ok_iff` — the lines that are accepted, and what they become;
* `readable_of_parses` — what is read off a line is a `Readable` stack;
* `parses_stackLine` — a readable stack is read off the line written for it;
* `parses_dataLine` — on decimal values the parser reads what `dataLine?` says.
-/
import MoonPprof.Folded

open MachineInt StackFormats Text

namespace Folded

/-! ### What the parser accepts -/

/-- A blank line or a comment. -/
def isSkipped (line : List Char) : Bool := (trim line).isEmpty || (trim line).head? == some '#'

/-- The line has a stack and a value column, which reads as a number that fits. -/
structure Reads (line stack value : List Char) (x : F64) : Prop where
  kept : isSkipped line = false
  split : splitAtLast isWhitespace (trim line) = some (stack, value)
  stack : trim stack ≠ []
  number : parseF64 (trim value) = some x
  finite : x.isFinite = true
  nonneg : x.lt (.fin 0) = false
  fits : (F64.ofInt (2 ^ 63 - 1)).lt x.round = false

def framesOf (stack : List Char) : List (List Char) := ((trim stack).splitOn ';').map trim

/-- What becomes of a line. -/
inductive Outcome (line : List Char) : Option (List String × Int) → Prop
  | skipped : isSkipped line = true → Outcome line none
  | zero {stack value : List Char} {x : F64} :
      Reads line stack value x → x.round.toI64 = 0 → Outcome line none
  | row {stack value : List Char} {x : F64} : Reads line stack value x → x.round.toI64 ≠ 0 →
      (∀ frame ∈ framesOf stack, frame ≠ []) →
      Outcome line (some ((framesOf stack).map String.ofList, x.round.toI64))

theorem parseFoldedLine_ok_iff {line : List Char} {lineNo : Nat}
    {r : Option (List String × Int)} :
    parseFoldedLine line lineNo = .ok r ↔ Outcome line r := by
  constructor
  · intro h
    rw [parseFoldedLine] at h
    simp only at h
    split at h
    · rename_i hskip
      cases h
      exact Outcome.skipped hskip
    · rename_i hskip
      split at h
      · cases h
      · rename_i stack value hsplit
        split at h
        · cases h
        · rename_i hstack
          split at h
          · cases h
          · rename_i x hx
            split_ifs at h with hfin hneg hbig hzero hempty
            · cases h
              exact Outcome.zero ⟨Bool.eq_false_iff.mpr hskip, hsplit, by simpa using hstack, hx,
                by simpa using hfin, by simpa using hneg, by simpa using hbig⟩ hzero
            · cases h
              exact Outcome.row ⟨Bool.eq_false_iff.mpr hskip, hsplit, by simpa using hstack, hx,
                by simpa using hfin, by simpa using hneg, by simpa using hbig⟩ hzero
                (by simpa [framesOf] using hempty)
  · intro h
    -- a line that can be read leaves the value and the frames to test
    have hreads : ∀ {stack value x}, Reads line stack value x →
        parseFoldedLine line lineNo =
          if x.round.toI64 = 0 then .ok none
          else if (framesOf stack).any List.isEmpty then
            .error [foldedError lineNo "empty frame in stack"]
          else .ok (some ((framesOf stack).map String.ofList, x.round.toI64)) := by
      intro stack value x hr
      have hkept := hr.kept
      rw [isSkipped] at hkept
      rw [parseFoldedLine]
      simp only [hkept, hr.split, hr.number, hr.finite, hr.nonneg, hr.fits, framesOf,
        List.isEmpty_eq_false_iff.mpr hr.stack, Bool.false_eq_true, if_false, Bool.not_true]
      rfl
    cases h with
    | skipped hskip =>
      rw [isSkipped] at hskip
      rw [parseFoldedLine]
      exact if_pos hskip
    | zero hr hzero => rw [hreads hr, if_pos hzero]
    | row hr hzero hframes =>
      rw [hreads hr, if_neg hzero, if_neg]
      simpa using fun hnil => hframes [] hnil rfl

/-- The parser accepts the line as `r`. -/
def Parses (line : List Char) (r : Option (List String × Int)) : Prop :=
  ∀ lineNo, parseFoldedLine line lineNo = .ok r

theorem parses_iff {line : List Char} {r : Option (List String × Int)} :
    Parses line r ↔ Outcome line r := by
  refine ⟨fun h => parseFoldedLine_ok_iff.mp (h 0), fun h lineNo => ?_⟩
  exact parseFoldedLine_ok_iff.mpr h

theorem parses_of_ok {line : List Char} {lineNo : Nat} {r : Option (List String × Int)}
    (h : parseFoldedLine line lineNo = .ok r) : Parses line r :=
  parses_iff.mpr (parseFoldedLine_ok_iff.mp h)

/-! ### Readable stacks -/

/-- A stack that a line of text can hold. -/
structure Readable (stack : List String) : Prop where
  ne_nil : stack ≠ []
  ne_empty : ∀ name ∈ stack, name ≠ ""
  trimmed : ∀ name ∈ stack, Trimmed name.toList
  noSemicolon : ∀ name ∈ stack, ';' ∉ name.toList
  noNewline : ∀ name ∈ stack, '\n' ∉ name.toList
  noComment : ∀ root, stack.head? = some root → root.toList.head? ≠ some '#'

instance (stack : List String) : Decidable (Readable stack) :=
  decidable_of_iff (stack ≠ [] ∧ (∀ name ∈ stack, name ≠ "" ∧ Trimmed name.toList ∧
      ';' ∉ name.toList ∧ '\n' ∉ name.toList) ∧ ∀ root ∈ stack.head?, root.toList.head? ≠ some '#')
    ⟨fun ⟨hne, hnames, hroot⟩ => ⟨hne, fun n hn => (hnames n hn).1, fun n hn => (hnames n hn).2.1,
        fun n hn => (hnames n hn).2.2.1, fun n hn => (hnames n hn).2.2.2, hroot⟩,
      fun h => ⟨h.ne_nil, fun n hn => ⟨h.ne_empty n hn, h.trimmed n hn, h.noSemicolon n hn,
        h.noNewline n hn⟩, h.noComment⟩⟩

theorem lt_zero_eq_false {x : F64} (hfin : x.isFinite = true) (h : x.lt (.fin 0) = false)
    (hne : x.round.toI64 ≠ 0) : 0 < x.round.toI64 := by
  rcases x with _ | _ | q
  · cases hfin
  · cases hfin
  · have hq : 0 ≤ q := by simpa [F64.lt] using h
    rw [F64.round, if_neg (not_lt.mpr hq), F64.toI64] at hne ⊢
    have hfloor : 0 ≤ ⌊q + 1 / 2⌋ := Int.floor_nonneg.mpr (by linarith)
    rw [if_neg (by exact_mod_cast not_lt.mpr hfloor), Int.floor_intCast] at hne ⊢
    omega

/-- The first frame starts where the line does. -/
theorem head?_framesOf {line stack rest frame : List Char} (hline : trim line = stack ++ rest)
    (hne : trim stack ≠ []) (h : (framesOf stack).head? = some frame) :
    frame = [] ∨ frame.head? = (trim line).head? := by
  obtain ⟨c, hc⟩ : ∃ c, stack.head? = some c := by
    rcases stack with _ | ⟨c, s⟩
    · exact absurd rfl hne
    · exact ⟨c, rfl⟩
  have hhead : (trim line).head? = some c := by rw [hline, List.head?_append, hc]; rfl
  have hvisible := (trimmed_trim line).head c hhead
  rw [framesOf, List.head?_map, Option.map_eq_some_iff] at h
  obtain ⟨field, hfield, rfl⟩ := h
  rcases head?_splitOn (head?_trim hc hvisible) hfield with rfl | hfield
  · exact Or.inl rfl
  · exact Or.inr ((head?_trim hfield hvisible).trans hhead.symm)

theorem readable_of_parses {line : List Char} {stack : List String} {value : Int}
    (h : Parses line (some (stack, value))) (hline : '\n' ∉ line) :
    Readable stack ∧ 0 < value := by
  cases parses_iff.mp h with
  | @row stackRaw valueRaw x hr hzero hframes =>
    obtain ⟨hsplit, -⟩ := splitAtLast_some hr.split
    have hkept : (trim line).head? ≠ some '#' ∧ trim line ≠ [] := by
      have := hr.kept
      simp only [isSkipped, Bool.or_eq_false_iff, List.isEmpty_eq_false_iff, beq_eq_false_iff_ne]
        at this
      exact this.symm
    have hmem : ∀ field ∈ (trim stackRaw).splitOn ';', ∀ c ∈ trim field, c ∈ line := by
      intro field hfield c hc
      refine mem_of_mem_trim (hsplit ▸ List.mem_append_left _ ?_)
      exact mem_of_mem_trim (mem_of_mem_splitOn hfield (mem_of_mem_trim hc))
    -- a name is a trimmed field between semicolons
    have hall : ∀ name ∈ (framesOf stackRaw).map String.ofList,
        ∃ field ∈ (trim stackRaw).splitOn ';', name.toList = trim field := by
      intro name hname
      rw [framesOf, List.map_map] at hname
      obtain ⟨field, hfield, rfl⟩ := List.mem_map.mp hname
      exact ⟨field, hfield, String.toList_ofList⟩
    refine ⟨⟨?_, ?_, ?_, ?_, ?_, ?_⟩, lt_zero_eq_false hr.finite hr.nonneg hzero⟩
    · simp [framesOf, List.splitOn_ne_nil]
    · intro name hname hempty
      obtain ⟨field, hfield, heq⟩ := hall name hname
      refine hframes (trim field) (List.mem_map_of_mem hfield) ?_
      rw [← heq, hempty]
      rfl
    · intro name hname
      obtain ⟨field, -, heq⟩ := hall name hname
      rw [heq]
      exact trimmed_trim field
    · intro name hname hsemi
      obtain ⟨field, hfield, heq⟩ := hall name hname
      rw [heq] at hsemi
      exact not_mem_of_mem_splitOn hfield (mem_of_mem_trim hsemi)
    · intro name hname hnl
      obtain ⟨field, hfield, heq⟩ := hall name hname
      exact hline (hmem field hfield _ (heq ▸ hnl))
    · intro root hroot hhash
      rw [List.head?_map, Option.map_eq_some_iff] at hroot
      obtain ⟨frame, hframe, rfl⟩ := hroot
      rw [String.toList_ofList] at hhash
      rcases head?_framesOf hsplit hr.stack hframe with hnil | hhead
      · exact hframes frame (List.mem_of_mem_head? hframe) hnil
      · exact hkept.1 (hhead.symm.trans hhash)

/-! ### Lines that are written -/

/-- The line of a stack and its value. -/
def stackLine (x : List String × Int) : List Char :=
  (";".intercalate x.1).toList ++ ' ' :: (toString x.2).toList

theorem toList_joined (stack : List String) :
    (";".intercalate stack).toList = [';'].intercalate (stack.map String.toList) := by
  rw [String.toList_intercalate]
  rfl

/-- Fields without white space at their ends are joined to such a text. -/
theorem trimmed_intercalate {d : Char} {field : List Char} {fields : List (List Char)}
    (h : ∀ f ∈ field :: fields, f ≠ [] ∧ Trimmed f) :
    ([d].intercalate (field :: fields)).head? = field.head? ∧
      Trimmed ([d].intercalate (field :: fields)) := by
  induction fields generalizing field with
  | nil =>
    rw [List.intercalate_singleton]
    exact ⟨rfl, (h field List.mem_cons_self).2⟩
  | cons f fields ih =>
    obtain ⟨hhead, htrim⟩ := ih fun g hg => h g (List.mem_cons_of_mem _ hg)
    obtain ⟨hne, hfield⟩ := h field List.mem_cons_self
    obtain ⟨hf, -⟩ := h f (by simp)
    rw [List.intercalate_cons_cons, List.append_assoc]
    have hfirst : ∀ t : List Char, (field ++ t).head? = field.head? := by
      intro t
      rcases field with _ | ⟨c, s⟩
      · exact absurd rfl hne
      · rfl
    refine ⟨hfirst _, fun c hc => hfield.head c (hfirst _ ▸ hc), fun c hc => htrim.last c ?_⟩
    have hne' : [d].intercalate (f :: fields) ≠ [] := by
      intro hnil
      rw [hnil] at hhead
      exact hf (List.head?_eq_none_iff.mp hhead.symm)
    rw [List.getLast?_append_of_ne_nil _ (by simp), List.getLast?_append_of_ne_nil _ hne'] at hc
    exact hc

theorem Readable.joined {stack : List String} (h : Readable stack) :
    Trimmed (";".intercalate stack).toList ∧ ∃ c, (";".intercalate stack).toList.head? = some c ∧
      c ≠ '#' := by
  obtain ⟨root, frames, rfl⟩ := List.exists_cons_of_ne_nil h.ne_nil
  have hfields : ∀ f ∈ root.toList :: frames.map String.toList, f ≠ [] ∧ Trimmed f := by
    intro f hf
    obtain ⟨name, hname, rfl⟩ := List.mem_map.mp
      (show f ∈ (root :: frames).map String.toList from hf)
    exact ⟨by simpa using h.ne_empty name hname, h.trimmed name hname⟩
  obtain ⟨hhead, htrim⟩ := trimmed_intercalate (d := ';') hfields
  rw [toList_joined, List.map_cons]
  refine ⟨htrim, ?_⟩
  obtain ⟨c, s, hroot⟩ := List.exists_cons_of_ne_nil (hfields _ List.mem_cons_self).1
  refine ⟨c, by rw [hhead, hroot]; rfl, fun hc => h.noComment root rfl ?_⟩
  rw [hroot, hc]
  rfl

theorem digits_value {v : Int} (h : 0 ≤ v) : (toString v).toList ≠ [] ∧
    ∀ c ∈ (toString v).toList, isWhitespace c = false := by
  obtain ⟨k, rfl⟩ := Int.eq_ofNat_of_zero_le h
  rw [toList_toString]
  exact ⟨Nat.toDigits_ne_nil, fun c hc =>
    isWhitespace_of_isDigit (Nat.isDigit_of_mem_toDigits (by decide) (by decide) hc)⟩

/-- The number that an integer of at most 2^53 is read as. -/
theorem ofInt_value {v : Int} (hlo : 0 ≤ v) (hhi : v ≤ 2 ^ 53) :
    (F64.ofInt v).isFinite = true ∧ (F64.ofInt v).lt (.fin 0) = false ∧
      (F64.ofInt (2 ^ 63 - 1)).lt (F64.ofInt v).round = false ∧
      (F64.ofInt v).round.toI64 = v := by
  rw [F64.ofInt_of_abs_le (abs_le.mpr ⟨by omega, hhi⟩), F64.round_intCast,
    F64.toI64_intCast (by omega) (by omega), F64.ofInt_maxI64]
  refine ⟨rfl, ?_, ?_, rfl⟩
  · have : (0 : ℚ) ≤ v := by exact_mod_cast hlo
    simpa [F64.lt] using this
  · have : (v : ℚ) ≤ 2 ^ 63 := by exact_mod_cast hhi.trans (by norm_num)
    simpa [F64.lt] using this

theorem Readable.framesOf_joined {stack : List String} (h : Readable stack) :
    framesOf (";".intercalate stack).toList = stack.map String.toList := by
  rw [framesOf, trim_of_trimmed h.joined.1, toList_joined, List.splitOn_intercalate, List.map_map]
  · exact List.map_congr_left fun name hname => trim_of_trimmed (h.trimmed name hname)
  · intro l hl
    obtain ⟨name, hname, rfl⟩ := List.mem_map.mp hl
    exact h.noSemicolon name hname
  · simpa using h.ne_nil

/-- A readable stack is read off its line. -/
theorem parses_stackLine {stack : List String} {v : Int} (h : Readable stack) (hlo : 0 < v)
    (hhi : v ≤ 2 ^ 53) : Parses (stackLine (stack, v)) (some (stack, v)) := by
  obtain ⟨htrim, c, hc, hhash⟩ := h.joined
  obtain ⟨hne, hdigits⟩ := digits_value hlo.le
  obtain ⟨hfin, hnonneg, hfits, hvalue⟩ := ofInt_value hlo.le hhi
  have hvalueTrim : Trimmed (toString v).toList :=
    ⟨fun d hd => hdigits d (List.mem_of_mem_head? hd),
      fun d hd => hdigits d (List.mem_of_mem_getLast? hd)⟩
  have hline : stackLine (stack, v) =
      (";".intercalate stack).toList ++ ' ' :: (toString v).toList := rfl
  set joined := (";".intercalate stack).toList
  -- both ends of the line are visible, so that trimming keeps it
  have hhead : (stackLine (stack, v)).head? = some c := by
    rw [hline, List.head?_append, hc]
    rfl
  have hlast : (stackLine (stack, v)).getLast? = (toString v).toList.getLast? := by
    rw [hline, List.getLast?_append_of_ne_nil _ (List.cons_ne_nil _ _), List.getLast?_cons,
      List.getLast?_eq_some_getLast hne]
    rfl
  have htrimLine : trim (stackLine (stack, v)) = stackLine (stack, v) := by
    refine trim_of_trimmed ⟨fun d hd => htrim.head d ?_, fun d hd => hvalueTrim.last d ?_⟩
    · rw [hc, ← hhead]
      exact hd
    · exact hlast ▸ hd
  have hvalueRaw : trim (' ' :: (toString v).toList) = (toString v).toList := by
    rw [trim, List.dropWhile_cons_of_pos (by decide)]
    exact trim_of_trimmed hvalueTrim
  have hframes : framesOf joined = stack.map String.toList := h.framesOf_joined
  have hreads : Reads (stackLine (stack, v)) joined (' ' :: (toString v).toList) (F64.ofInt v) := by
    refine ⟨?_, ?_, ?_, ?_, hfin, hnonneg, hfits⟩
    · rw [isSkipped, htrimLine, hhead]
      simpa [hline] using hhash
    · rw [htrimLine, hline]
      exact splitAtLast_append (by decide) hdigits
    · rw [trim_of_trimmed htrim]
      intro hnil
      rw [hnil] at hc
      cases hc
    · rw [hvalueRaw]
      exact parseF64_of_decimal? (decimal?_toString hlo.le)
  have houtcome : Outcome (stackLine (stack, v))
      (some ((framesOf joined).map String.ofList, (F64.ofInt v).round.toI64)) := by
    refine Outcome.row hreads (by omega) fun frame hframe => ?_
    rw [hframes] at hframe
    obtain ⟨name, hname, rfl⟩ := List.mem_map.mp hframe
    simpa using h.ne_empty name hname
  have hnames : (stack.map String.toList).map String.ofList = stack := by
    rw [List.map_map]
    exact (List.map_congr_left fun name _ => String.ofList_toList).trans (List.map_id' stack)
  rw [hframes, hvalue, hnames] at houtcome
  exact parses_iff.mpr houtcome

/-! ### Lines with decimal values -/

/-- The stack and the value of a data line whose value is an integer in decimal,
unless it is zero. -/
def dataLine? (line : List Char) : Option (List String × Int) := do
  guard !isSkipped line
  let (stack, value) ← splitAtLast isWhitespace (trim line)
  let n ← decimal? (trim value)
  if n = 0 then none else some ((framesOf stack).map String.ofList, n)

/-- The value column of a data line is an integer in decimal. -/
def HasDecimalValue (line : List Char) : Prop :=
  isSkipped line = false → ∀ stack value,
    splitAtLast isWhitespace (trim line) = some (stack, value) →
      ∃ n, decimal? (trim value) = some n

theorem hasDecimalValue_iff {line : List Char} : HasDecimalValue line ↔ isSkipped line = true ∨
    ∀ x ∈ splitAtLast isWhitespace (trim line), (decimal? (trim x.2)).isSome = true := by
  constructor
  · intro h
    cases hskip : isSkipped line with
    | true => exact Or.inl rfl
    | false =>
      right
      intro x hx
      obtain ⟨n, hn⟩ := h hskip x.1 x.2 hx
      rw [hn]
      rfl
  · rintro (hskip | hall) hkept stack value hsplit
    · rw [hskip] at hkept
      cases hkept
    · exact Option.isSome_iff_exists.mp (hall (stack, value) hsplit)

instance (line : List Char) : Decidable (HasDecimalValue line) :=
  decidable_of_iff _ hasDecimalValue_iff.symm

/-- An accepted value in decimal is not negative. -/
theorem Reads.decimal {line stack value : List Char} {x : F64} (h : Reads line stack value x)
    {n : Int} (hn : decimal? (trim value) = some n) :
    x = F64.ofInt n ∧ 0 ≤ n ∧
      dataLine? line = if n = 0 then none else some ((framesOf stack).map String.ofList, n) := by
  have hx : x = F64.ofInt n := Option.some.inj (h.number.symm.trans (parseF64_of_decimal? hn))
  refine ⟨hx, ?_, ?_⟩
  · by_contra hneg
    have hfin := h.finite
    have hnonneg := h.nonneg
    rcases F64.ofInt_of_neg (not_le.mp hneg) with hinf | ⟨q, hq, hq'⟩
    · rw [hx, hinf] at hfin
      cases hfin
    · rw [hx, hq'] at hnonneg
      simp [F64.lt, hq] at hnonneg
  · rw [dataLine?, h.kept]
    simp [h.split, hn]

theorem parses_dataLine {line : List Char} {r : Option (List String × Int)}
    (h : Parses line r) (hdecimal : HasDecimalValue line) :
    (∀ x, dataLine? line = some x → 0 < x.2) ∧
      ((∀ x, dataLine? line = some x → x.2 ≤ 2 ^ 53) → r = dataLine? line) := by
  have hpos : ∀ {n : Int} {stack : List Char}, 0 ≤ n → dataLine? line =
      (if n = 0 then none else some ((framesOf stack).map String.ofList, n)) →
      ∀ x, dataLine? line = some x → 0 < x.2 := by
    intro n stack hn hdata x hx
    rw [hdata] at hx
    split at hx
    · cases hx
    · cases hx
      show 0 < n
      omega
  cases parses_iff.mp h with
  | skipped hskip =>
    have hnone : dataLine? line = none := by
      rw [dataLine?, hskip]
      rfl
    refine ⟨fun x hx => ?_, fun _ => hnone.symm⟩
    rw [hnone] at hx
    cases hx
  | @zero stack value x hr hzero =>
    obtain ⟨n, hn⟩ := hdecimal hr.kept stack value hr.split
    obtain ⟨rfl, hnonneg, hdata⟩ := hr.decimal hn
    refine ⟨hpos hnonneg hdata, fun hle => ?_⟩
    by_cases h0 : n = 0
    · rw [hdata, if_pos h0]
    · rw [if_neg h0] at hdata
      have := (ofInt_value hnonneg (hle _ hdata)).2.2.2
      omega
  | @row stack value x hr hne hframes =>
    obtain ⟨n, hn⟩ := hdecimal hr.kept stack value hr.split
    obtain ⟨rfl, hnonneg, hdata⟩ := hr.decimal hn
    refine ⟨hpos hnonneg hdata, fun hle => ?_⟩
    by_cases h0 : n = 0
    · rw [h0] at hne
      exact absurd (ofInt_value (le_refl 0) (by norm_num)).2.2.2 hne
    · rw [if_neg h0] at hdata
      rw [hdata, (ofInt_value hnonneg (hle _ hdata)).2.2.2]

end Folded
