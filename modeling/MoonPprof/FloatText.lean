/-
Numbers in text.

`parseF64` reads what `str::parse::<f64>` reads.  `decimal?` reads an integer in
decimal; `parseF64_of_decimal?` says that the two agree where both apply, and
`decimal?_toString` that a number that was printed is read back.  So different
integers print differently (`toString_inj`).
-/
import MoonPprof.Float64

namespace Text

/-- A leading sign, and what follows it. -/
def takeSign : List Char → Bool × List Char
  | '-' :: s => (true, s)
  | '+' :: s => (false, s)
  | s => (false, s)

/-- An integer in decimal, with or without a sign. -/
def decimal? (s : List Char) : Option Int :=
  let (negative, digits) := takeSign s
  if digits.isEmpty || !digits.all Char.isDigit then none
  else
    let n : Int := Nat.ofDigitChars 10 digits 0
    some (if negative then -n else n)

def parseExponent : List Char → Option Int
  | [] => some 0
  | c :: s => if c = 'e' ∨ c = 'E' then decimal? s else none

/-- Digits, with a point among them or not, and an exponent. -/
def parseNumber (s : List Char) : Option ℚ :=
  let whole := s.takeWhile Char.isDigit
  let (fraction, rest) :=
    match s.dropWhile Char.isDigit with
    | '.' :: s => (s.takeWhile Char.isDigit, s.dropWhile Char.isDigit)
    | s => ([], s)
  if whole.isEmpty && fraction.isEmpty then none
  else (parseExponent rest).map fun e : Int =>
    (Nat.ofDigitChars 10 (whole ++ fraction) 0 : ℚ) * 10 ^ (e - fraction.length)

/-- `s.parse::<f64>()`. -/
def parseF64 (s : List Char) : Option F64 :=
  let (negative, body) := takeSign s
  match parseNumber body with
  | some q => some (F64.ofRat (if negative then -q else q))
  | none =>
    let name := body.map Char.toLower
    if name = "inf".toList ∨ name = "infinity".toList then some (.inf negative)
    else if name = "nan".toList then some .nan
    else none

theorem parseNumber_digits {s : List Char} (hne : s ≠ []) (h : ∀ c ∈ s, c.isDigit = true) :
    parseNumber s = some (Nat.ofDigitChars 10 s 0 : ℚ) := by
  have htake : s.takeWhile Char.isDigit = s := by
    rw [← List.append_nil s, List.takeWhile_append_of_pos h, List.takeWhile_nil]
  have hdrop : s.dropWhile Char.isDigit = [] := by
    rw [← List.append_nil s, List.dropWhile_append_of_pos h, List.dropWhile_nil]
  rw [parseNumber]
  simp only [htake, hdrop]
  rw [if_neg (by simpa using hne), List.append_nil]
  simp [parseExponent]

theorem parseNumber_point {ds fs : List Char} (hne : ds ≠ []) (hds : ∀ c ∈ ds, c.isDigit = true)
    (hfs : ∀ c ∈ fs, c.isDigit = true) :
    parseNumber (ds ++ '.' :: fs) =
      some ((Nat.ofDigitChars 10 (ds ++ fs) 0 : ℚ) / 10 ^ fs.length) := by
  have htake : (ds ++ '.' :: fs).takeWhile Char.isDigit = ds := by
    rw [List.takeWhile_append_of_pos hds, List.takeWhile_cons_of_neg (by decide), List.append_nil]
  have hdrop : (ds ++ '.' :: fs).dropWhile Char.isDigit = '.' :: fs := by
    rw [List.dropWhile_append_of_pos hds, List.dropWhile_cons_of_neg (by decide)]
  have htake' : fs.takeWhile Char.isDigit = fs := by
    rw [← List.append_nil fs, List.takeWhile_append_of_pos hfs, List.takeWhile_nil]
  have hdrop' : fs.dropWhile Char.isDigit = [] := by
    rw [← List.append_nil fs, List.dropWhile_append_of_pos hfs, List.dropWhile_nil]
  rw [parseNumber]
  simp only [htake, hdrop, htake', hdrop']
  rw [if_neg (by simp [hne]), parseExponent, Option.map_some, Int.zero_sub, zpow_neg, zpow_natCast,
    div_eq_mul_inv]

/-- An integer is read as the number that rounds it. -/
theorem parseF64_of_decimal? {s : List Char} {n : Int} (h : decimal? s = some n) :
    parseF64 s = some (F64.ofInt n) := by
  rw [decimal?] at h
  rw [parseF64]
  rcases hs : takeSign s with ⟨negative, digits⟩
  rw [hs] at h
  simp only at h ⊢
  split at h
  · cases h
  · rename_i hdigits
    simp only [Bool.or_eq_true, not_or, Bool.not_eq_true, Bool.not_eq_false',
      List.isEmpty_eq_false_iff, List.all_eq_true] at hdigits
    rw [parseNumber_digits hdigits.1 hdigits.2]
    rw [Option.some.injEq] at h
    subst h
    cases negative <;> simp [F64.ofInt]

theorem takeSign_of_digit {c : Char} {s : List Char} (h : c.isDigit = true) :
    takeSign (c :: s) = (false, c :: s) := by
  rw [takeSign]
  · intro t ht
    cases ht
    cases h
  · intro t ht
    cases ht
    cases h

theorem toList_toString (k : Nat) : (toString (k : Int)).toList = Nat.toDigits 10 k := by
  rw [Int.toString_eq_repr, Int.repr_eq_if, if_pos (by omega), Int.toNat_natCast, Nat.toList_repr]

theorem decimal?_toString {n : Int} (h : 0 ≤ n) : decimal? (toString n).toList = some n := by
  obtain ⟨k, rfl⟩ := Int.eq_ofNat_of_zero_le h
  have hdigit : ∀ c ∈ Nat.toDigits 10 k, c.isDigit = true := fun c hc =>
    Nat.isDigit_of_mem_toDigits (by decide) (by decide) hc
  have hsign : takeSign (Nat.toDigits 10 k) = (false, Nat.toDigits 10 k) := by
    rcases hk : Nat.toDigits 10 k with _ | ⟨c, s⟩
    · rfl
    · exact takeSign_of_digit (hdigit c (by rw [hk]; exact List.mem_cons_self))
  rw [toList_toString, decimal?, hsign]
  simp only
  rw [if_neg, Nat.ofDigitChars_ten_toDigits]
  · rfl
  · rw [List.all_eq_true.mpr hdigit]
    simp [Nat.toDigits_ne_nil]

theorem decimal?_toString_neg (k : Nat) :
    decimal? (toString (-((k + 1 : Nat) : Int))).toList = some (-((k + 1 : Nat) : Int)) := by
  have hprint : (toString (-((k + 1 : Nat) : Int))).toList = '-' :: Nat.toDigits 10 (k + 1) := by
    rw [Int.toString_eq_repr, Int.repr_eq_if, if_neg (by omega), String.toList_append,
      Nat.toList_repr]
    rfl
  rw [hprint, decimal?, takeSign]
  simp only
  rw [if_neg, Nat.ofDigitChars_ten_toDigits]
  · rfl
  · rw [List.all_eq_true.mpr fun c hc => Nat.isDigit_of_mem_toDigits (by decide) (by decide) hc]
    simp [Nat.toDigits_ne_nil]

theorem toString_inj {m n : Int} (h : toString m = toString n) : m = n := by
  have hread : ∀ i : Int, decimal? (toString i).toList = some i := by
    intro i
    rcases lt_or_ge i 0 with hneg | hpos
    · obtain ⟨k, rfl⟩ : ∃ k : Nat, i = -((k + 1 : Nat) : Int) := ⟨(-i - 1).toNat, by omega⟩
      exact decimal?_toString_neg k
    · exact decimal?_toString hpos
  have hm := hread m
  rw [h, hread n] at hm
  exact (Option.some.inj hm).symm

/-- A printed integer consists of digits and a sign. -/
theorem isDigit_or_minus {n : Int} {c : Char} (h : c ∈ (toString n).toList) :
    c.isDigit = true ∨ c = '-' := by
  rcases lt_or_ge n 0 with hneg | hpos
  · rw [Int.toString_eq_repr, Int.repr_eq_if, if_neg (by omega), String.toList_append,
      Nat.toList_repr] at h
    rcases List.mem_append.mp h with h | h
    · exact Or.inr (List.mem_singleton.mp h)
    · exact Or.inl (Nat.isDigit_of_mem_toDigits (by decide) (by decide) h)
  · obtain ⟨k, rfl⟩ := Int.eq_ofNat_of_zero_le hpos
    rw [toList_toString] at h
    exact Or.inl (Nat.isDigit_of_mem_toDigits (by decide) (by decide) h)

end Text
