/-
Decoding what the compiler mangled.

`mangle pkgs fn` writes a symbol the way the compiler does: `M0FP`, the number
of package segments, and every segment as its decimal length and its
characters.  The decoder reads it backwards and takes the longest segment at
each step, so it inverts `mangle` exactly when

* the function name does not itself end in a generic marker `G<letters>E`,
  which `stripGenericSuffix` would drop (`HasGenericMarker`), and
* no segment ends where a longer identifier, preceded by its own length, also
  ends (`Unambiguous`).

`demangle_mangle_iff` is that equivalence.  Both directions go through
`segmentsFrom_encoded_iff`, an induction on the segments from the last one back.
-/
import MoonPprof.Demangle
import MoonPprof.Delimited

namespace Demangle

/-- A number in decimal. -/
def decimal (n : Nat) : Bytes := (Nat.toDigits 10 n).map Char.toUInt8

/-- A segment as the compiler writes it: its length, then its characters. -/
def encodeSegment (s : Bytes) : Bytes := decimal s.length ++ s

/-- What stands before the first segment: the marker and the package count. -/
def mangleHeader (pkgs : List Bytes) : Bytes := ascii "M0FP" ++ decimal pkgs.length

/-- The mangled form of `fn` in the packages `pkgs`, without the leading
underscore. -/
def mangle (pkgs : List Bytes) (fn : Bytes) : Bytes :=
  mangleHeader pkgs ++ (pkgs ++ [fn]).flatMap encodeSegment

/-- An ASCII identifier of 1 to 64 characters. -/
def IsSegment (s : Bytes) : Prop := isIdent s = true ∧ s.length ≤ maxSegmentLen

/-- A letter of a generic marker. -/
def isMarkerLetter (c : UInt8) : Bool := isAsciiAlphabetic c && c != 'G'.toUInt8

/-- The text ends in a generic-instantiation marker `G<letters>E`. -/
def HasGenericMarker (s : Bytes) : Prop :=
  ∃ u letters, s = u ++ 'G'.toUInt8 :: (letters ++ ['E'.toUInt8]) ∧
    ∀ c ∈ letters, isMarkerLetter c = true

/-- Wherever a segment ends in the mangled text, no longer identifier that is
preceded by its own length ends there as well. -/
def Unambiguous (pkgs : List Bytes) (fn : Bytes) : Prop :=
  ∀ l s r, pkgs ++ [fn] = l ++ s :: r → ∀ n, s.length < n → n ≤ maxSegmentLen →
    ¬ Fits (mangleHeader pkgs ++ (l ++ [s]).flatMap encodeSegment) n

theorem itoa_length_le (n : Nat) : (itoa n).length ≤ 2 := by
  unfold itoa
  split <;> simp

theorem isMarkerLetter_not_digit {c : UInt8} (h : isMarkerLetter c = true) :
    ¬ isAsciiDigit c = true := by
  have h0 : '9'.toUInt8.toNat = 57 := rfl
  have hA : 'A'.toUInt8.toNat = 65 := rfl
  have ha : 'a'.toUInt8.toNat = 97 := rfl
  simp only [isMarkerLetter, isAsciiAlphabetic, isAsciiUppercase, isAsciiLowercase,
    isAsciiDigit, Bool.and_eq_true, Bool.or_eq_true, decide_eq_true_eq,
    UInt8.le_iff_toNat_le] at h ⊢
  omega

theorem decimal_eq_itoa : ∀ n ≤ maxSegmentLen, decimal n = itoa n := by
  decide +kernel

theorem IsSegment.encode {s : Bytes} (h : IsSegment s) :
    encodeSegment s = itoa s.length ++ s := by
  rw [encodeSegment, decimal_eq_itoa _ h.2]

/-- `Fits`, read off the end of the text. -/
theorem fits_iff {text : Bytes} {n : Nat} :
    Fits text n ↔ n ≤ text.length ∧ isIdent (text.drop (text.length - n)) = true ∧
      itoa n <:+ text.take (text.length - n) := by
  constructor
  · rintro ⟨pre, w, rfl, rfl, hid⟩
    have hlen : (pre ++ itoa w.length ++ w).length - w.length
        = (pre ++ itoa w.length).length := by
      simp only [List.length_append]
      omega
    rw [hlen, List.drop_left, List.take_left]
    exact ⟨by simp only [List.length_append]; omega, hid, List.suffix_append _ _⟩
  · rintro ⟨hn, hid, pre, hpre⟩
    refine ⟨pre, text.drop (text.length - n), ?_, ?_, hid⟩
    · rw [hpre, List.take_append_drop]
    · rw [List.length_drop]
      omega

instance (text : Bytes) (n : Nat) : Decidable (Fits text n) :=
  decidable_of_iff _ fits_iff.symm

/-! ### The generic marker -/

theorem lettersStart_eq_of_letters {bytes u : Bytes}
    (hu : ∀ c ∈ u.getLast?, isMarkerLetter c = false) :
    ∀ {letters : Bytes}, (∀ c ∈ letters, isMarkerLetter c = true) →
      bytes.take (u.length + letters.length) = u ++ letters →
      lettersStart bytes (u.length + letters.length) = u.length := by
  intro letters
  induction letters using List.reverseRecOn with
  | nil =>
    intro _ htake
    rw [List.length_nil, Nat.add_zero, List.append_nil] at *
    induction u using List.reverseRecOn with
    | nil => rfl
    | append_singleton u c _ =>
      have hc : bytes[u.length]? = some c := getElem?_of_take htake
      have hno : isMarkerLetter c = false := hu c (by simp)
      rw [List.length_append, List.length_singleton, lettersStart, hc, Option.any_some]
      rw [isMarkerLetter] at hno
      rw [hno]
      simp
  | append_singleton letters c ih =>
    intro hl htake
    obtain ⟨hc, hprev⟩ := take_concat htake
    have hcl : isMarkerLetter c = true := hl c (by simp)
    rw [isMarkerLetter] at hcl
    rw [List.length_append, List.length_singleton, ← Nat.add_assoc, lettersStart, hc,
      Option.any_some, if_pos hcl]
    exact ih (fun x hx => hl x (by simp [hx])) hprev

/-- A marker after at least one other byte is dropped. -/
theorem stripGenericSuffix_of_marker {u letters : Bytes} (hu : u ≠ [])
    (hl : ∀ c ∈ letters, isMarkerLetter c = true) :
    stripGenericSuffix (u ++ 'G'.toUInt8 :: (letters ++ ['E'.toUInt8])) = u := by
  set s := u ++ 'G'.toUInt8 :: (letters ++ ['E'.toUInt8]) with hs
  have hulen : 0 < u.length := List.length_pos_iff.mpr hu
  have hlen : s.length = u.length + letters.length + 2 := by
    simp [hs]; omega
  have hsplit : s = (u ++ ['G'.toUInt8]) ++ letters ++ ['E'.toUInt8] := by simp [hs]
  have hfin : s.length - 1 = (u ++ ['G'.toUInt8]).length + letters.length := by
    simp [hlen]; omega
  have hlast : s[s.length - 1]? = some 'E'.toUInt8 := by
    rw [hfin, hsplit, ← List.length_append, List.getElem?_append_right (le_refl _)]
    simp
  have hstart : lettersStart s (s.length - 1) = u.length + 1 := by
    rw [hfin, lettersStart_eq_of_letters (u := u ++ ['G'.toUInt8]) (by simp; decide) hl]
    · simp
    · rw [hsplit, ← List.length_append, List.take_left]
  have hG : s[u.length + 1 - 1]? = some 'G'.toUInt8 := by
    rw [Nat.add_sub_cancel, hs, List.getElem?_append_right (le_refl _)]
    simp
  unfold stripGenericSuffix
  simp only [hlast, hstart, hG, bne_self_eq_false, Bool.or_false, decide_eq_true_eq]
  rw [if_neg (by omega), if_pos (by simp; omega), Nat.add_sub_cancel, hs, List.take_left]

/-- The walk stops after a block of letters. -/
theorem exists_letters_of_lettersStart (bytes : Bytes) :
    ∀ i ≤ bytes.length, lettersStart bytes i ≤ i ∧
      ∃ letters, bytes.take i = bytes.take (lettersStart bytes i) ++ letters ∧
        ∀ c ∈ letters, isMarkerLetter c = true := by
  intro i
  induction i with
  | zero => exact fun _ => ⟨le_refl _, [], by simp [lettersStart], by simp⟩
  | succ i ih =>
    intro hi
    obtain ⟨hle, letters, htake, hl⟩ := ih (by omega)
    rw [lettersStart, List.getElem?_eq_getElem (by omega), Option.any_some]
    split
    · rename_i hc
      refine ⟨by omega, letters ++ [bytes[i]], ?_, ?_⟩
      · rw [List.take_succ_eq_append_getElem (by omega), htake, List.append_assoc]
      · intro c hmem
        rcases List.mem_append.mp hmem with h | h
        · exact hl c h
        · rw [List.mem_singleton.mp h]
          exact hc
    · exact ⟨le_refl _, [], by simp, by simp⟩

/-- What is dropped is a marker. -/
theorem stripGenericSuffix_cases (s : Bytes) :
    stripGenericSuffix s = s ∨
      ∃ letters, s = stripGenericSuffix s ++ 'G'.toUInt8 :: (letters ++ ['E'.toUInt8]) ∧
        ∀ c ∈ letters, isMarkerLetter c = true := by
  unfold stripGenericSuffix
  simp only
  split
  · exact Or.inl rfl
  · rename_i hE
    split
    · rename_i hG
      simp only [Bool.or_eq_true, decide_eq_true_eq, bne_iff_ne, ne_eq, not_or, not_lt,
        not_not] at hE
      simp only [Bool.and_eq_true, decide_eq_true_eq, beq_iff_eq] at hG
      obtain ⟨⟨hpos, hg⟩, -⟩ := hG
      obtain ⟨hle, letters, htake, hl⟩ :=
        exists_letters_of_lettersStart s (s.length - 1) (Nat.sub_le _ _)
      set i := lettersStart s (s.length - 1) with hi
      refine Or.inr ⟨letters, ?_, hl⟩
      obtain ⟨hlt, hget⟩ := List.getElem?_eq_some_iff.mp hE.2
      obtain ⟨hlt', hget'⟩ := List.getElem?_eq_some_iff.mp hg
      have hbefore : s.take i = s.take (i - 1) ++ ['G'.toUInt8] := by
        conv_lhs => rw [show i = (i - 1) + 1 by omega]
        rw [List.take_succ_eq_append_getElem hlt', hget']
      calc s = s.take (s.length - 1 + 1) := by
              rw [Nat.sub_add_cancel (by omega), List.take_length]
        _ = s.take (s.length - 1) ++ ['E'.toUInt8] := by
              rw [List.take_succ_eq_append_getElem hlt, hget]
        _ = s.take (i - 1) ++ 'G'.toUInt8 :: (letters ++ ['E'.toUInt8]) := by
              rw [htake, hbefore]
              simp
    · exact Or.inl rfl

theorem stripGenericSuffix_eq_self {s : Bytes} (h : ¬ HasGenericMarker s) :
    stripGenericSuffix s = s := by
  rcases stripGenericSuffix_cases s with heq | ⟨letters, heq, hl⟩
  · exact heq
  · exact absurd ⟨_, letters, heq, hl⟩ h

/-- No letter follows the last digit of a length, so a marker at the end of a
symbol lies within the function name. -/
theorem hasGenericMarker_append_iff {t fn : Bytes} (hfn : fn ≠ [])
    (ht : ∀ c ∈ t.getLast?, isAsciiDigit c = true) :
    HasGenericMarker (t ++ fn) ↔ HasGenericMarker fn := by
  constructor
  · rintro ⟨u, letters, hs, hl⟩
    by_cases hlen : t.length ≤ u.length
    · obtain ⟨v, rfl⟩ : ∃ v, u = t ++ v := by
        refine ⟨u.drop t.length, ?_⟩
        have := congrArg (List.take t.length) hs
        rw [List.take_left, List.take_append_of_le_length hlen] at this
        conv_lhs => rw [← List.take_append_drop t.length u, ← this]
      rw [List.append_assoc, List.append_cancel_left_eq] at hs
      exact ⟨v, letters, hs, hl⟩
    · -- otherwise the last digit of `t` would be a letter of the marker
      exfalso
      obtain ⟨v, hv, rfl⟩ : ∃ v, v ≠ [] ∧ t = u ++ v := by
        refine ⟨t.drop u.length, ?_, ?_⟩
        · rw [Ne, List.drop_eq_nil_iff]
          omega
        · have := congrArg (List.take u.length) hs
          rw [List.take_left, List.take_append_of_le_length (by omega)] at this
          conv_lhs => rw [← List.take_append_drop u.length t, this]
      rw [List.append_assoc, List.append_cancel_left_eq] at hs
      obtain ⟨v', c, rfl⟩ := (List.eq_nil_or_concat' v).resolve_left hv
      have hc : isAsciiDigit c = true := ht c (by simp)
      have hmem : c ∈ 'G'.toUInt8 :: letters := by
        have hfn' : fn = fn.dropLast ++ [fn.getLast hfn] := (List.dropLast_append_getLast hfn).symm
        rw [hfn', ← List.append_assoc, ← List.cons_append] at hs
        have := (List.append_inj' hs rfl).1
        rw [← this]
        simp
      rcases List.mem_cons.mp hmem with rfl | h
      · exact absurd hc (by decide)
      · exact isMarkerLetter_not_digit (hl c h) hc
  · rintro ⟨u, letters, rfl, hl⟩
    exact ⟨t ++ u, letters, by simp, hl⟩

/-! ### The decoding loop on an encoded list of segments -/

/-- What holds of each element and those before it, one element more. -/
theorem forall_split_concat {α : Type} {P : List α → α → Prop} {xs : List α} {x : α} :
    (∀ l y r, xs ++ [x] = l ++ y :: r → P l y) ↔ (∀ l y r, xs = l ++ y :: r → P l y) ∧ P xs x := by
  constructor
  · intro h
    exact ⟨fun l y r hl => h l y (r ++ [x]) (by simp [hl]), h xs x [] rfl⟩
  · rintro ⟨hinit, hlast⟩ l y r hl
    rcases List.eq_nil_or_concat' r with rfl | ⟨r', z, rfl⟩
    · obtain ⟨rfl, hy⟩ := List.append_inj' hl rfl
      rwa [← List.singleton_inj.mp hy]
    · rw [← List.cons_append, ← List.append_assoc] at hl
      exact hinit l y r' (List.append_inj' hl rfl).1

/-- Reading backwards from the end of `segs` returns `segs` exactly when each
of its segments is the longest one where it ends. -/
theorem segmentsFrom_encoded_iff {inner header : Bytes} {segs : List Bytes}
    (hsegs : ∀ s ∈ segs, IsSegment s)
    (hheader : ∀ n ≤ maxSegmentLen, ¬ Fits header n) :
    ∀ {turns : Nat}, segs.length ≤ turns →
      inner.take (header ++ segs.flatMap encodeSegment).length =
        header ++ segs.flatMap encodeSegment →
      (segmentsFrom inner turns (header ++ segs.flatMap encodeSegment).length [] = segs ↔
        ∀ l s r, segs = l ++ s :: r →
          LongestFit (header ++ (l ++ [s]).flatMap encodeSegment) s.length) := by
  induction segs using List.reverseRecOn with
  | nil =>
    intro turns _ htake
    simp only [List.flatMap_nil, List.append_nil] at htake ⊢
    have hle : header.length ≤ inner.length := by
      have := congrArg List.length htake
      rw [List.length_take] at this
      omega
    refine iff_of_true (segmentsFrom_of_not_fits hle (by rwa [htake])) ?_
    intro l s r h
    exact absurd h (by simp)
  | append_singleton segs s ih =>
    intro turns hturns htake
    obtain ⟨turns, rfl⟩ : ∃ k, turns = k + 1 :=
      ⟨turns - 1, by rw [List.length_append, List.length_singleton] at hturns; omega⟩
    have hs : IsSegment s := hsegs s (by simp)
    set text := header ++ segs.flatMap encodeSegment with htext
    have hfull : header ++ (segs ++ [s]).flatMap encodeSegment = text ++ itoa s.length ++ s := by
      rw [List.flatMap_append, List.flatMap_singleton, hs.encode, htext]
      simp only [List.append_assoc]
    have hprev : inner.take text.length = text := by
      have := congrArg (List.take text.length) htake
      rw [hfull, List.append_assoc, List.take_left, List.take_take,
        Nat.min_eq_left (by simp)] at this
      exact this
    rw [hfull] at htake
    have hle : segs.length ≤ turns := by
      rw [List.length_append, List.length_singleton] at hturns
      omega
    have hih := ih (fun x hx => hsegs x (by simp [hx])) hle hprev
    -- The condition on the last segment splits off.
    have hsplit := @forall_split_concat Bytes
      (fun l s' => LongestFit (header ++ (l ++ [s']).flatMap encodeSegment) s'.length) segs s
    rw [hfull] at hsplit
    rw [hfull, hsplit, ← hih]
    by_cases hlong : LongestFit (text ++ itoa s.length ++ s) s.length
    · rw [segmentsFrom_concat htake hs.2 hlong]
      simp only [hlong, and_true, List.append_cancel_right_eq]
    · simp only [hlong, and_false, iff_false]
      intro hdec
      -- The last segment that is read must be `s`.
      have hle : (text ++ itoa s.length ++ s).length ≤ inner.length := by
        have := congrArg List.length htake
        rw [List.length_take] at this
        omega
      obtain ⟨n, -, hfit, hw⟩ := last_of_segmentsFrom hle hdec
      have hlen := congrArg List.length hw
      rw [slice_length hle] at hlen
      have hnlt := hfit.1.length_lt
      rw [htake] at hfit hnlt
      obtain rfl : n = s.length := by omega
      exact hlong hfit

/-- The header is not the end of a segment. -/
theorem not_fits_mangleHeader {pkgs : List Bytes} (hcount : pkgs.length ≤ 9) {n : Nat} :
    ¬ Fits (mangleHeader pkgs) n := by
  have hlen : ∀ k < 10, (ascii "M0FP" ++ decimal k).length = 5 := by decide
  have hdec : ∀ k < 10, ∀ n < 5, ¬ Fits (ascii "M0FP" ++ decimal k) n := by decide
  intro h
  have hk : pkgs.length < 10 := by omega
  have hn : n < 5 := hlen _ hk ▸ h.length_lt
  exact hdec _ hk n hn h

/-! ### Joining the parts -/

/-- `:` is no identifier character. -/
theorem isIdent_colon {w : Bytes} (h : isIdent w = true) : ':'.toUInt8 ∉ w := by
  rcases w with _ | ⟨c, rest⟩
  · simp
  · simp only [isIdent, Bool.and_eq_true, List.all_eq_true] at h
    intro hmem
    rcases List.mem_cons.mp hmem with rfl | hmem
    · exact absurd h.1 (by decide)
    · exact absurd (h.2 _ hmem) (by decide)

theorem joinPath_cons_cons (a b : Bytes) (l : List Bytes) :
    joinPath (a :: b :: l) = a ++ ':'.toUInt8 :: ':'.toUInt8 :: joinPath (b :: l) := by
  rw [joinPath, List.intercalate_cons_cons, List.append_assoc]
  rfl

theorem joinPath_singleton (a : Bytes) : joinPath [a] = a := by
  simp [joinPath]

/-- The joined path determines the parts, which are identifiers. -/
theorem joinPath_inj : ∀ {l l' : List Bytes}, l ≠ [] → l' ≠ [] →
    (∀ w ∈ l, isIdent w = true) → (∀ w ∈ l', isIdent w = true) →
    joinPath l = joinPath l' → l = l'
  | [a], [b], _, _, _, _, h => by
    rwa [joinPath_singleton, joinPath_singleton, ← List.singleton_inj] at h
  | [a], b :: b' :: l', _, _, ha, _, h => by
    rw [joinPath_singleton, joinPath_cons_cons] at h
    exact absurd (h ▸ by simp) (isIdent_colon (ha a (by simp)))
  | a :: a' :: l, [b], _, _, _, hb, h => by
    rw [joinPath_singleton, joinPath_cons_cons] at h
    exact absurd (h ▸ by simp) (isIdent_colon (hb b (by simp)))
  | a :: a' :: l, b :: b' :: l', _, _, ha, hb, h => by
    rw [joinPath_cons_cons, joinPath_cons_cons] at h
    obtain ⟨rfl, htail⟩ := Delimited.append_cons_inj
      (isIdent_colon (ha a (by simp))) (isIdent_colon (hb b (by simp))) h
    rw [joinPath_inj (by simp) (by simp) (fun w hw => ha w (by simp [hw]))
      (fun w hw => hb w (by simp [hw])) (List.cons.inj htail).2]

/-- Every part that the decoder reads is an identifier. -/
theorem segmentsFrom_isIdent {inner : Bytes} :
    ∀ {turns i : Nat}, i ≤ inner.length →
      ∀ w ∈ segmentsFrom inner turns i [], isIdent w = true := by
  intro turns
  induction turns with
  | zero => exact fun _ w hw => absurd hw (by simp [segmentsFrom])
  | succ turns ih =>
    intro i hi w hw
    rw [segmentsFrom] at hw
    split at hw
    · exact absurd hw (by simp)
    · rcases hfind : findSegmentEnd inner i with _ | r
      · rw [hfind] at hw
        exact absurd hw (by simp)
      · obtain ⟨n, hn, hfit, rfl⟩ := (findSegmentEnd_eq_some_iff hi).mp hfind
        rw [hfind] at hw
        simp only at hw
        rw [segmentsFrom_parts, List.mem_append, List.mem_singleton] at hw
        rcases hw with hw | rfl
        · exact ih (by omega) w hw
        · obtain ⟨pre, v, htake, hv, hid⟩ := hfit.1
          have hlen := congrArg List.length htake
          rw [List.length_take, List.length_append, hv] at hlen
          rwa [slice_eq htake (by omega)]

/-! ### The round trip -/

theorem stripPrefix_mangle (k : Nat) (pkgs : List Bytes) (fn : Bytes) :
    stripPrefix (List.replicate k '_'.toUInt8 ++ mangle pkgs fn) = some (mangle pkgs fn) := by
  obtain ⟨rest, hrest⟩ : ∃ rest, mangle pkgs fn = ascii "M0FP" ++ rest :=
    ⟨_, by rw [mangle, mangleHeader, List.append_assoc]⟩
  have hdrop : (List.replicate k '_'.toUInt8 ++ mangle pkgs fn).dropWhile
      (· == '_'.toUInt8) = mangle pkgs fn := by
    rw [hrest, List.dropWhile_append_of_pos]
    · rfl
    · intro c hc
      rw [List.eq_of_mem_replicate hc]
      rfl
  unfold stripPrefix
  simp only [hdrop]
  rw [hrest]
  have hlen : 3 ≤ (ascii "M0FP").length + rest.length := by
    have : (ascii "M0FP").length = 4 := rfl
    omega
  have htake : (ascii "M0FP" ++ rest).take 2 = mangleInnerPrefix := rfl
  have hupper : (ascii "M0FP" ++ rest)[2]?.any isAsciiUppercase = true := rfl
  simp [hlen, htake, hupper]

/-- The mangled text before the function name's characters. -/
def mangleStem (pkgs : List Bytes) (fn : Bytes) : Bytes :=
  mangleHeader pkgs ++ pkgs.flatMap encodeSegment ++ itoa fn.length

theorem mangle_eq_stem {pkgs : List Bytes} {fn : Bytes} (hfn : IsSegment fn) :
    mangle pkgs fn = mangleStem pkgs fn ++ fn := by
  rw [mangle, mangleStem, List.flatMap_append, List.flatMap_singleton, hfn.encode]
  simp only [List.append_assoc]

theorem mangleStem_getLast {pkgs : List Bytes} {fn : Bytes} (hfn : IsSegment fn) :
    ∀ c ∈ (mangleStem pkgs fn).getLast?, isAsciiDigit c = true := by
  intro c hc
  rw [mangleStem, List.getLast?_append_of_ne_nil _ (itoa_ne_nil _)] at hc
  exact itoa_digits _ hfn.2 c (List.mem_of_getLast? hc)

/-- A symbol whose function name ends in a generic marker loses the marker, and
what is left cannot be read back as the original segments. -/
theorem segmentsFrom_stripped_ne {pkgs : List Bytes} {u letters : Bytes}
    (hl : ∀ c ∈ letters, isMarkerLetter c = true)
    (hfn : IsSegment (u ++ 'G'.toUInt8 :: (letters ++ ['E'.toUInt8]))) {turns : Nat} :
    let fn := u ++ 'G'.toUInt8 :: (letters ++ ['E'.toUInt8])
    let inner := mangleStem pkgs fn ++ u
    segmentsFrom inner turns inner.length [] ≠ pkgs ++ [fn] := by
  intro fn inner hdec
  obtain ⟨n, -, hfit, hw⟩ := last_of_segmentsFrom (le_refl _) hdec
  obtain ⟨pre, w, htake, hwlen, -⟩ := hfit.1
  rw [List.take_length] at htake
  have hlen := congrArg List.length htake
  rw [List.length_append, List.length_append, hwlen] at hlen
  have hw' : w = fn := by
    rw [← hw]
    have htake' : inner.take inner.length = (pre ++ itoa n) ++ w := by
      rw [List.take_length, htake]
    rw [slice_eq htake' (by rw [List.length_append, hlen]; omega)]
  -- The text also ends in the length digits and `u`, so `fn` would contain
  -- these digits besides those of `u`; but the marker has no digit at all.
  obtain ⟨t, ht⟩ : itoa fn.length ++ u <:+ fn := by
    have hleft : itoa fn.length ++ u <:+ inner :=
      ⟨mangleHeader pkgs ++ pkgs.flatMap encodeSegment, by
        simp only [inner, mangleStem, List.append_assoc]⟩
    have hright : fn <:+ inner := ⟨pre ++ itoa n, by rw [htake, hw']⟩
    refine List.suffix_of_suffix_length_le hleft hright ?_
    have := itoa_length_le fn.length
    simp only [fn, List.length_append, List.length_cons, List.length_nil] at this ⊢
    omega
  have hcount := congrArg (List.countP isAsciiDigit) ht
  have hall : List.countP isAsciiDigit (itoa fn.length) = (itoa fn.length).length :=
    List.countP_eq_length.mpr (itoa_digits _ hfn.2)
  have hpos := itoa_length_pos fn.length
  have hnone : List.countP isAsciiDigit ('G'.toUInt8 :: (letters ++ ['E'.toUInt8])) = 0 := by
    rw [List.countP_eq_zero]
    intro c hc
    rw [List.mem_cons, List.mem_append, List.mem_singleton] at hc
    rcases hc with rfl | hc | rfl
    · decide
    · exact isMarkerLetter_not_digit (hl c hc)
    · decide
  rw [List.countP_append, List.countP_append, hall] at hcount
  have hu : List.countP isAsciiDigit fn = List.countP isAsciiDigit u := by
    rw [show fn = u ++ 'G'.toUInt8 :: (letters ++ ['E'.toUInt8]) from rfl, List.countP_append,
      hnone, Nat.add_zero]
  omega

theorem mem_encodeSegment {s : Bytes} (hs : IsSegment s) : ':'.toUInt8 ∉ encodeSegment s := by
  rw [hs.encode, List.mem_append]
  rintro (h | h)
  · exact absurd (itoa_digits _ hs.2 _ h) (by decide)
  · exact isIdent_colon hs.1 h

theorem colon_notMem_mangle {pkgs : List Bytes} {fn : Bytes} (hcount : pkgs.length ≤ 9)
    (hsegs : ∀ s ∈ pkgs ++ [fn], IsSegment s) : ':'.toUInt8 ∉ mangle pkgs fn := by
  have hheader : ∀ k < 10, ':'.toUInt8 ∉ ascii "M0FP" ++ decimal k := by decide
  rw [mangle, List.mem_append, List.mem_flatMap]
  rintro (h | ⟨s, hs, h⟩)
  · exact hheader _ (by omega) h
  · exact mem_encodeSegment (hsegs s hs) h

/-- The undecoded symbol has no `::`, the path has one. -/
theorem mangle_ne_joinPath {pkgs : List Bytes} {fn : Bytes} (hpkgs : pkgs ≠ [])
    (hcount : pkgs.length ≤ 9) (hsegs : ∀ s ∈ pkgs ++ [fn], IsSegment s) (k : Nat) :
    List.replicate k '_'.toUInt8 ++ mangle pkgs fn ≠ joinPath (pkgs ++ [fn]) := by
  obtain ⟨p, pkgs', rfl⟩ := List.exists_cons_of_ne_nil hpkgs
  intro h
  have hmem : ':'.toUInt8 ∈ joinPath (p :: pkgs' ++ [fn]) := by
    rcases pkgs' with _ | ⟨q, pkgs'⟩
    · rw [List.singleton_append, joinPath_cons_cons]
      simp
    · rw [List.cons_append, List.cons_append, joinPath_cons_cons]
      simp
  rw [← h, List.mem_append] at hmem
  rcases hmem with hmem | hmem
  · exact absurd (List.eq_of_mem_replicate hmem) (by decide)
  · exact colon_notMem_mangle hcount hsegs hmem

/-- A symbol is decoded to the path of its segments when these are what is read. -/
theorem demangle_eq_joinPath_iff {pkgs : List Bytes} {fn : Bytes} (hpkgs : pkgs ≠ [])
    (hcount : pkgs.length ≤ 9) (hsegs : ∀ s ∈ pkgs ++ [fn], IsSegment s) (k : Nat)
    {inner : Bytes} (hinner : stripGenericSuffix (mangle pkgs fn) = inner) :
    demangle (List.replicate k '_'.toUInt8 ++ mangle pkgs fn) = joinPath (pkgs ++ [fn]) ↔
      segmentsFrom inner maxSegments inner.length [] = pkgs ++ [fn] := by
  have hident : ∀ w ∈ pkgs ++ [fn], isIdent w = true := fun w hw => (hsegs w hw).1
  unfold demangle
  rw [stripPrefix_mangle]
  simp only [hinner]
  split
  · rename_i hempty
    rw [List.isEmpty_iff] at hempty
    rw [hempty]
    exact iff_of_false (mangle_ne_joinPath hpkgs hcount hsegs k) (by simp)
  · rename_i hempty
    rw [List.isEmpty_iff] at hempty
    exact ⟨joinPath_inj hempty (by simp) (segmentsFrom_isIdent (le_refl _)) hident,
      congrArg joinPath⟩

/-- **Decoding undoes mangling exactly when nothing in the symbol can be read
otherwise**: with any number `k` of leading underscores, the mangled symbol of
`fn` in `pkgs` is decoded to its segments if and only if the function name does
not end in a generic marker and no segment ends where a longer identifier
preceded by its own length ends. -/
theorem demangle_mangle_iff (pkgs : List Bytes) (fn : Bytes) (k : Nat)
    (hpkgs : pkgs ≠ []) (hcount : pkgs.length ≤ 9)
    (hsegs : ∀ s ∈ pkgs ++ [fn], IsSegment s) :
    demangle (List.replicate k '_'.toUInt8 ++ mangle pkgs fn) = joinPath (pkgs ++ [fn]) ↔
      ¬ HasGenericMarker fn ∧ Unambiguous pkgs fn := by
  have hfn : IsSegment fn := hsegs fn (by simp)
  have hstem : mangleStem pkgs fn ≠ [] := by
    rw [mangleStem, Ne, List.append_eq_nil_iff]
    exact fun h => itoa_ne_nil _ h.2
  have hmarker : HasGenericMarker (mangle pkgs fn) ↔ HasGenericMarker fn := by
    rw [mangle_eq_stem hfn]
    exact hasGenericMarker_append_iff (isIdent_ne_nil hfn.1) (mangleStem_getLast hfn)
  -- a marker is taken off before the segments are read
  by_cases hgen : HasGenericMarker fn
  · simp only [hgen, not_true, false_and, iff_false]
    obtain ⟨u, letters, hu, hl⟩ := hgen
    have hstrip : stripGenericSuffix (mangle pkgs fn) = mangleStem pkgs fn ++ u := by
      rw [mangle_eq_stem hfn]
      conv_lhs => rw [show mangleStem pkgs fn ++ fn = (mangleStem pkgs fn ++ u) ++
        'G'.toUInt8 :: (letters ++ ['E'.toUInt8]) by rw [List.append_assoc, ← hu]]
      exact stripGenericSuffix_of_marker (by simp [hstem]) hl
    rw [demangle_eq_joinPath_iff hpkgs hcount hsegs k hstrip]
    subst hu
    exact segmentsFrom_stripped_ne hl hfn
  · have hturns : (pkgs ++ [fn]).length ≤ maxSegments := by
      have : maxSegments = 50 := rfl
      rw [List.length_append, List.length_singleton]
      omega
    have hstrip : stripGenericSuffix (mangle pkgs fn) = mangle pkgs fn :=
      stripGenericSuffix_eq_self fun h => hgen (hmarker.mp h)
    simp only [hgen, not_false_eq_true, true_and]
    rw [demangle_eq_joinPath_iff hpkgs hcount hsegs k hstrip, mangle,
      segmentsFrom_encoded_iff hsegs (fun n _ => not_fits_mangleHeader hcount) hturns
        List.take_length]
    constructor
    · exact fun h l s r hl => (h l s r hl).2
    · intro h l s r hl
      refine ⟨?_, h l s r hl⟩
      have hs : IsSegment s := hsegs s (by simp [hl])
      refine ⟨mangleHeader pkgs ++ l.flatMap encodeSegment, s, ?_, rfl, hs.1⟩
      rw [List.flatMap_append, List.flatMap_singleton, hs.encode]
      simp only [List.append_assoc]

instance (s : Bytes) : Decidable (IsSegment s) :=
  inferInstanceAs (Decidable (_ ∧ _))

/-- `_M0FP26mizchi5bench9ackermann` is read back; no marker and no longer
segment stands in the way. -/
theorem demangle_mangle_ackermann :
    (¬ HasGenericMarker (ascii "ackermann") ∧
      Unambiguous [ascii "mizchi", ascii "bench"] (ascii "ackermann")) ∧
    demangle (ascii "_M0FP26mizchi5bench9ackermann") = ascii "mizchi::bench::ackermann" := by
  have h := demangle_mangle_iff [ascii "mizchi", ascii "bench"] (ascii "ackermann") 1
    (by decide) (by decide) (by decide)
  exact ⟨h.mp (by decide +kernel), by decide +kernel⟩

/-- Mangling is not always undone: in `_M0FP16mizchi9ackermann` the package
count and the first length read together as the length of everything after
them, and `MERGE` ends in a generic marker. -/
theorem demangle_mangle_counterexample :
    ¬ (∀ (pkgs : List Bytes) (fn : Bytes), pkgs ≠ [] → pkgs.length ≤ 9 →
      (∀ s ∈ pkgs ++ [fn], IsSegment s) →
      demangle (ascii "_" ++ mangle pkgs fn) = joinPath (pkgs ++ [fn])) ∧
    demangle (ascii "_" ++ mangle [ascii "mizchi"] (ascii "ackermann")) =
      ascii "mizchi9ackermann" ∧
    demangle (ascii "_" ++ mangle [ascii "bench"] (ascii "MERGE")) =
      ascii "_M0FP15bench5MERGE" := by
  refine ⟨fun h => ?_, by decide +kernel, by decide +kernel⟩
  exact absurd (h [ascii "mizchi"] (ascii "ackermann") (by decide) (by decide) (by decide))
    (by decide +kernel)

end Demangle
