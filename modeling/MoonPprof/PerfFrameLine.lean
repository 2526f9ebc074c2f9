/-
The frame lines of `perf script`: what `parse_frame` reads off the line that is
printed for a symbol and a binary.

* `splitAtLastStr_append`, `splitAtLastStr_some` — the last occurrence of a text;
* `dso_of_parseFrame` — a binary that is read holds no ` (` and does not end in `)`;
* `parseFrame_frameLine_iff` — exactly then, for a symbol that is there and has no
  offset of its own, are the symbol and the binary the ones on the line.
-/
import MoonPprof.PerfScript

open Text

namespace Perf

/-! ### The last occurrence of a text -/

theorem splitAtLastStr_eq_none_iff {pat s : List Char} (hpat : pat ≠ []) :
    splitAtLastStr pat s = none ↔ ¬pat <:+: s := by
  induction s with
  | nil => simp [splitAtLastStr, hpat]
  | cons c s ih =>
    rw [splitAtLastStr, List.infix_cons_iff, not_or]
    rcases hs : splitAtLastStr pat s with _ | ⟨before, after⟩
    · have hrest := ih.mp hs
      simp [hrest]
    · have hrest : ¬¬pat <:+: s := fun hno => by
        rw [ih.mpr hno] at hs
        cases hs
      simp [hrest]

theorem splitAtLastStr_append {pat before after : List Char} (hpat : pat ≠ [])
    (h : ¬pat <:+: pat.tail ++ after) :
    splitAtLastStr pat (before ++ (pat ++ after)) = some (before, after) := by
  induction before with
  | nil =>
    rcases pat with _ | ⟨c, pat⟩
    · exact absurd rfl hpat
    · have hnone := (splitAtLastStr_eq_none_iff hpat).mpr h
      rw [List.tail_cons] at hnone
      rw [List.nil_append, List.cons_append, splitAtLastStr, hnone]
      have hbegins : (c :: pat).isPrefixOf (c :: (pat ++ after)) = true :=
        List.isPrefixOf_iff_prefix.mpr (List.prefix_append (c :: pat) after)
      simp [hbegins]
  | cons c before ih => rw [List.cons_append, splitAtLastStr, ih]

theorem splitAtLastStr_some {pat s before after : List Char} (hpat : pat ≠ [])
    (h : splitAtLastStr pat s = some (before, after)) :
    s = before ++ (pat ++ after) ∧ ¬pat <:+: after := by
  induction s generalizing before with
  | nil => cases h
  | cons c s ih =>
    rw [splitAtLastStr] at h
    rcases hs : splitAtLastStr pat s with _ | ⟨b, a⟩
    · rw [hs] at h
      simp only at h
      split at h
      · rename_i hbegins
        obtain ⟨rest, hrest⟩ := List.isPrefixOf_iff_prefix.mp hbegins
        cases h
        have hnone := (splitAtLastStr_eq_none_iff hpat).mp hs
        rw [← hrest, List.drop_left]
        refine ⟨rfl, fun hinside => hnone ?_⟩
        rcases pat with _ | ⟨d, pat⟩
        · exact absurd rfl hpat
        · rw [List.cons_append, List.cons.injEq] at hrest
          rw [← hrest.2]
          exact hinside.trans (List.suffix_append _ _).isInfix
      · cases h
    · rw [hs] at h
      simp only [Option.some.injEq, Prod.mk.injEq] at h
      obtain ⟨rfl, rfl⟩ := h
      obtain ⟨hsplit, hno⟩ := ih hs
      exact ⟨by rw [hsplit, List.cons_append], hno⟩

/-! ### Offsets -/

/-- The text ends in an offset: `0x` follows its last plus sign. -/
def EndsInOffset (sym : List Char) : Prop :=
  ∃ before after, sym = before ++ '+' :: '0' :: 'x' :: after ∧ '+' ∉ after

theorem stripOffset_append (before : List Char) {after : List Char} (h : '+' ∉ after) :
    stripOffset (before ++ '+' :: '0' :: 'x' :: after) = before := by
  have hsplit : splitAtLast (· = '+') (before ++ '+' :: '0' :: 'x' :: after) =
      some (before, '+' :: '0' :: 'x' :: after) := by
    refine splitAtLast_append (by simp) fun d hd => decide_eq_false ?_
    rintro rfl
    simp [h] at hd
  rw [stripOffset, hsplit]
  rfl

theorem stripOffset_eq_self_iff {sym : List Char} : stripOffset sym = sym ↔ ¬EndsInOffset sym := by
  constructor
  · rintro heq ⟨before, after, rfl, hafter⟩
    have hlen := congrArg List.length heq
    rw [stripOffset_append before hafter, List.length_append, List.length_cons] at hlen
    omega
  · intro hno
    rw [stripOffset]
    rcases hsplit : splitAtLast (· = '+') sym with _ | ⟨before, rest⟩
    · rfl
    · simp only
      split
      · -- what is cut off is an offset
        rename_i hbegins
        obtain ⟨rfl, c, after, rfl, hc, hafter⟩ := splitAtLast_some hsplit
        obtain rfl : c = '+' := of_decide_eq_true hc
        obtain ⟨digits, rfl⟩ := List.isPrefixOf_iff_prefix.mp hbegins
        refine absurd ⟨before, digits, rfl, fun hmem => ?_⟩ hno
        exact absurd (hafter '+' (List.mem_append_right _ hmem)) (by simp)
      · rfl

/-- Of a text that starts with another character than a plus sign something is left. -/
theorem stripOffset_ne_nil {c : Char} {s : List Char} (hc : c ≠ '+') :
    stripOffset (c :: s) ≠ [] := by
  intro hnil
  rcases hsplit : splitAtLast (· = '+') (c :: s) with _ | ⟨before, rest⟩
  · rw [stripOffset, hsplit] at hnil
    cases hnil
  · obtain ⟨heq, d, after, rfl, hd, -⟩ := splitAtLast_some hsplit
    rw [stripOffset, hsplit] at hnil
    simp only at hnil
    split at hnil
    · rw [hnil, List.nil_append, List.cons.injEq] at heq
      exact hc (heq.1.trans (of_decide_eq_true hd))
    · cases hnil

/-! ### The line of a frame -/

/-- An offset as it is printed behind the symbol. -/
def offsetText : Option (List Char) → List Char
  | none => []
  | some digits => '+' :: '0' :: 'x' :: digits

/-- The line for an address, a symbol with or without an offset, and a binary. -/
def frameLine (addr sym : List Char) (offset : Option (List Char)) (dso : List Char) :
    List Char :=
  addr ++ ' ' :: (sym ++ offsetText offset ++ ([' ', '('] ++ (dso ++ [')'])))

theorem splitOnceWhitespace_append {addr rest : List Char} {c : Char}
    (haddr : ∀ d ∈ addr, isWhitespace d = false) (hc : isWhitespace c = true) :
    splitOnceWhitespace (addr ++ c :: rest) = some (addr, rest) := by
  induction addr with
  | nil => rw [List.nil_append, splitOnceWhitespace, if_pos hc]
  | cons d addr ih =>
    obtain ⟨hd, haddr⟩ := List.forall_mem_cons.mp haddr
    rw [List.cons_append, splitOnceWhitespace, if_neg (by simp [hd]), ih haddr]
    rfl

/-- What `parseFrame` makes of the text behind the address. -/
def frameOf (rest : List Char) : Frame :=
  match splitAtLastStr [' ', '('] rest with
  | some (symPart, dsoPart) => ⟨String.ofList (stripOffset symPart),
      String.ofList (dsoPart.rdropWhile (· = ')'))⟩
  | none => ⟨String.ofList (stripOffset rest), String.ofList []⟩

theorem parseFrame_eq (line : List Char) :
    parseFrame line = (splitOnceWhitespace line).map fun (_, rest) =>
      frameOf (rest.dropWhile isWhitespace) := by
  rw [parseFrame]
  rcases splitOnceWhitespace line with _ | ⟨addr, rest⟩
  · rfl
  · simp only [Option.bind_eq_bind, Option.bind_some, Option.map_some, frameOf]
    rcases splitAtLastStr [' ', '('] (rest.dropWhile isWhitespace) with _ | ⟨symPart, dsoPart⟩ <;>
      rfl

/-- Whatever the line: a binary that is read does not end in a parenthesis, and none
opens in it behind a blank. -/
theorem dso_of_frameOf {rest dso : List Char} (h : (frameOf rest).dso = String.ofList dso) :
    ¬[' ', '('] <:+: dso ∧ dso.getLast? ≠ some ')' := by
  rw [frameOf] at h
  rcases hsplit : splitAtLastStr [' ', '('] rest with _ | ⟨symPart, dsoPart⟩
  · rw [hsplit] at h
    obtain rfl := String.ofList_injective h
    exact ⟨by simp, by simp⟩
  · rw [hsplit] at h
    obtain rfl := String.ofList_injective h
    obtain ⟨-, hno⟩ := splitAtLastStr_some (by simp) hsplit
    refine ⟨fun hinside => hno (hinside.trans (List.rdropWhile_prefix _ _).isInfix),
      fun hlast => ?_⟩
    have hne : dsoPart.rdropWhile (· = ')') ≠ [] := by
      intro hnil
      rw [hnil] at hlast
      cases hlast
    rw [List.getLast?_eq_some_getLast hne, Option.some.injEq] at hlast
    exact List.rdropWhile_last_not _ _ hne (by simp [hlast])

theorem frameOf_append {shown dso : List Char} (hdso : ¬[' ', '('] <:+: dso)
    (hlast : dso.getLast? ≠ some ')') :
    frameOf (shown ++ ([' ', '('] ++ (dso ++ [')']))) =
      ⟨String.ofList (stripOffset shown), String.ofList dso⟩ := by
  -- the pattern does not occur again behind its first character
  have hno : ¬[' ', '('] <:+: [' ', '('].tail ++ (dso ++ [')']) := by
    intro hinside
    rcases List.infix_cons_iff.mp hinside with hbegins | hinside
    · simp at hbegins
    · rcases List.infix_concat_iff.mp hinside with hsuffix | hinside
      · obtain ⟨t, ht⟩ := hsuffix
        have := congrArg List.getLast? ht
        simp at this
      · exact hdso hinside
  have hclose : (dso ++ [')']).rdropWhile (· = ')') = dso := by
    rw [List.rdropWhile_concat_pos _ _ _ (by simp), List.rdropWhile_eq_self_iff]
    intro hne heq
    exact hlast (by rw [List.getLast?_eq_some_getLast hne, of_decide_eq_true heq])
  rw [frameOf, splitAtLastStr_append (by simp) hno]
  simp only [hclose]

theorem head?_shown {sym : List Char} (hsym : Trimmed sym) {offset : Option (List Char)} {c : Char}
    (hc : (sym ++ offsetText offset).head? = some c) : isWhitespace c = false := by
  rcases sym with _ | ⟨d, sym⟩
  · rcases offset with _ | digits
    · cases hc
    · cases hc
      decide
  · exact hsym.head c hc

theorem stripOffset_shown_iff {sym : List Char} {offset : Option (List Char)}
    (hoffset : ∀ digits, offset = some digits → '+' ∉ digits) :
    stripOffset (sym ++ offsetText offset) = sym ↔ (offset = none → ¬EndsInOffset sym) := by
  rcases offset with _ | digits
  · simp [offsetText, stripOffset_eq_self_iff]
  · simp [offsetText, stripOffset_append sym (hoffset digits rfl)]

/-- Where nothing is printed for the symbol, the binary is taken for one. -/
theorem symbol_frameOf_ne {c : Char} (hc : isWhitespace c = false) (hplus : c ≠ '+')
    (rest : List Char) : (frameOf (c :: rest)).symbol ≠ String.ofList [] := by
  intro h
  rw [frameOf] at h
  rcases hsplit : splitAtLastStr [' ', '('] (c :: rest) with _ | ⟨symPart, dsoPart⟩
  · rw [hsplit] at h
    exact stripOffset_ne_nil hplus (String.ofList_injective h)
  · rw [hsplit] at h
    obtain ⟨heq, -⟩ := splitAtLastStr_some (by simp) hsplit
    rcases symPart with _ | ⟨d, symPart⟩
    · cases heq
      cases hc
    · cases heq
      exact stripOffset_ne_nil hplus (String.ofList_injective h)

/-- A frame is read off its line as printed exactly when its binary has no ` (` and no
parenthesis at its end and, where no offset follows the symbol, there is a symbol and
it does not itself end in one. -/
theorem parseFrame_frameLine_iff {addr sym dso : List Char} {offset : Option (List Char)}
    (haddr : ∀ c ∈ addr, isWhitespace c = false) (hsym : Trimmed sym)
    (hoffset : ∀ digits, offset = some digits → '+' ∉ digits) :
    parseFrame (frameLine addr sym offset dso) = some ⟨String.ofList sym, String.ofList dso⟩ ↔
      ¬[' ', '('] <:+: dso ∧ dso.getLast? ≠ some ')' ∧
        (offset = none → sym ≠ [] ∧ ¬EndsInOffset sym) := by
  rw [parseFrame_eq, frameLine, splitOnceWhitespace_append haddr (by decide), Option.map_some,
    Option.some.injEq]
  dsimp only
  rcases hshown : sym ++ offsetText offset with _ | ⟨c, shown⟩
  · -- only the binary is printed
    obtain ⟨rfl, hnone⟩ := List.append_eq_nil_iff.mp hshown
    obtain rfl : offset = none := by
      rcases offset with _ | digits
      · rfl
      · cases hnone
    constructor
    · intro h
      exact absurd (congrArg Frame.symbol h)
        (symbol_frameOf_ne (by decide) (by decide) (dso ++ [')']))
    · rintro ⟨-, -, hnone⟩
      exact absurd rfl (hnone rfl).1
  · have hdrop : (c :: shown ++ ([' ', '('] ++ (dso ++ [')']))).dropWhile isWhitespace =
        c :: shown ++ ([' ', '('] ++ (dso ++ [')'])) := by
      have hc := head?_shown hsym (c := c) (by rw [hshown, List.head?_cons])
      rw [List.cons_append, List.dropWhile_cons_of_neg (by simp [hc])]
    have hne : offset = none → sym ≠ [] := by
      rintro rfl rfl
      cases hshown
    rw [hdrop, ← hshown]
    constructor
    · intro h
      obtain ⟨hdso, hlast⟩ := dso_of_frameOf (congrArg Frame.dso h)
      rw [frameOf_append hdso hlast] at h
      have hsymbol := String.ofList_injective (congrArg Frame.symbol h)
      exact ⟨hdso, hlast, fun hnone =>
        ⟨hne hnone, (stripOffset_shown_iff hoffset).mp hsymbol hnone⟩⟩
    · rintro ⟨hdso, hlast, hoffsetless⟩
      rw [frameOf_append hdso hlast,
        (stripOffset_shown_iff hoffset).mpr fun hnone => (hoffsetless hnone).2]

/-- A symbol with an offset. -/
theorem parseFrame_lib :
    parseFrame (frameLine "7f00".toList "hot_function".toList (some "1a".toList)
        "/path/to/lib.so".toList) =
      some ⟨String.ofList "hot_function".toList, String.ofList "/path/to/lib.so".toList⟩ :=
  (parseFrame_frameLine_iff (by simp [isWhitespace]) (by decide) (by simp)).mpr
    ⟨by decide, by decide, fun h => by cases h⟩

/-- Of a binary that has been deleted the path goes to the symbol. -/
theorem parseFrame_deleted :
    let sym := "hot_function".toList
    let dso := "/usr/lib/x.so (deleted)".toList
    Trimmed sym ∧ ¬[' ', '('] <:+: sym ∧ ¬EndsInOffset sym ∧
      parseFrame (frameLine "7f00".toList sym none dso) =
        some ⟨"hot_function (/usr/lib/x.so", "deleted"⟩ ∧
      parseFrame (frameLine "7f00".toList sym none dso) ≠
        some ⟨String.ofList sym, String.ofList dso⟩ := by
  intro sym dso
  have hread : parseFrame (frameLine "7f00".toList sym none dso) =
      some ⟨"hot_function (/usr/lib/x.so", "deleted"⟩ := rfl
  refine ⟨by decide, by decide, stripOffset_eq_self_iff.mp (by decide), hread, ?_⟩
  rw [hread]
  intro h
  have hdso := congrArg Frame.dso (Option.some.inj h)
  exact absurd hdso (by decide)

end Perf
