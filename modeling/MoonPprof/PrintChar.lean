/-
The two ways in which a guest prints (`spectest.print_char` and `fd_write` of
`crates/moonbit-wasm-host`).

One sends the UTF-16 code units of a text, the other its UTF-8 bytes, and the
host assembles lines from either.

* `fromUtf16Lossy_encodeUtf16`, `fromUtf8Lossy_utf8` — a text that is sent whole
  is read as itself;
* `printChars_eq` — the lines of any code units;
* `flavours_agree` — the same text prints the same lines in both ways, however
  its bytes are cut into calls.
-/
import MoonPprof.FdWriteLines
import MoonPprof.HostStrings

open LineAssembly HostStrings

namespace WasmHost

/-! ### Code units -/

/-- A unit by itself. -/
def loneUnit (u : UInt16) : Char := if IsSurrogate u then '\uFFFD' else Char.ofNat u.toNat

/-- `String::from_utf16_lossy`: a surrogate that is not one of a pair reads as a replacement
character. -/
def fromUtf16Lossy : List UInt16 → List Char
  | [] => []
  | [u] => [loneUnit u]
  | u :: u2 :: rest =>
    if u.toNat < 0xD800 ∨ 0xDC00 ≤ u.toNat then loneUnit u :: fromUtf16Lossy (u2 :: rest)
    -- the unit after a lone high surrogate is read again
    else if u2.toNat < 0xDC00 ∨ 0xDFFF < u2.toNat then loneUnit u :: fromUtf16Lossy (u2 :: rest)
    else Char.ofNat (u.toNat % 0x400 * 0x400 + u2.toNat % 0x400 + 0x10000) :: fromUtf16Lossy rest

theorem fromUtf16Lossy_cons {u : UInt16} (hu : u.toNat < 0xD800 ∨ 0xDC00 ≤ u.toNat)
    (rest : List UInt16) : fromUtf16Lossy (u :: rest) = loneUnit u :: fromUtf16Lossy rest := by
  cases rest with
  | nil => rfl
  | cons u2 rest => rw [fromUtf16Lossy, if_pos hu]

theorem toNat_ofNat16 {n : Nat} (h : n < 0x10000) : (UInt16.ofNat n).toNat = n :=
  UInt16.toNat_ofNat_of_lt' h

theorem fromUtf16Lossy_encodeChar (c : Char) (rest : List UInt16) :
    fromUtf16Lossy (encodeChar c ++ rest) = c :: fromUtf16Lossy rest := by
  have hvalid : c.toNat.isValidChar := c.valid
  rw [encodeChar]
  by_cases hc : c.toNat < 0x10000
  · have hu := toNat_ofNat16 hc
    have hnot : c.toNat < 0xD800 ∨ 0xE000 ≤ c.toNat := by
      rcases hvalid with h | ⟨h, -⟩
      · exact .inl h
      · exact .inr h
    have hsurr : ¬IsSurrogate (UInt16.ofNat c.toNat) := by
      rw [IsSurrogate, hu]
      omega
    rw [if_pos hc, List.singleton_append, fromUtf16Lossy_cons (by rw [hu]; omega), loneUnit,
      if_neg hsurr, hu, Char.ofNat_toNat]
  · have hlt : c.toNat < 0x110000 := by
      rcases hvalid with h | ⟨-, h⟩
      · omega
      · exact h
    obtain ⟨v, hv⟩ : ∃ v, c.toNat = v + 0x10000 :=
      ⟨c.toNat - 0x10000, (Nat.sub_add_cancel (Nat.not_lt.mp hc)).symm⟩
    have hdiv : v / 0x400 < 0x400 := by omega
    have hmod : v % 0x400 < 0x400 := Nat.mod_lt _ (by decide)
    have hhigh : (UInt16.ofNat (0xD800 + v / 0x400)).toNat = 0xD800 + v / 0x400 :=
      toNat_ofNat16 (by omega)
    have hlow : (UInt16.ofNat (0xDC00 + v % 0x400)).toNat = 0xDC00 + v % 0x400 :=
      toNat_ofNat16 (by omega)
    have hcode : (0xD800 + v / 0x400) % 0x400 * 0x400 + (0xDC00 + v % 0x400) % 0x400 + 0x10000 =
        c.toNat := by omega
    have hsub : c.toNat - 0x10000 = v := by omega
    rw [if_neg hc, hsub, List.cons_append, List.singleton_append, fromUtf16Lossy, hhigh, hlow,
      if_neg (by omega), if_neg (by omega), hcode, Char.ofNat_toNat]

theorem fromUtf16Lossy_encodeUtf16 (text : List Char) :
    fromUtf16Lossy (text.flatMap encodeChar) = text := by
  induction text with
  | nil => rfl
  | cons c text ih => rw [List.flatMap_cons, fromUtf16Lossy_encodeChar, ih]

/-! ### Bytes -/

/-- A text in UTF-8. -/
def utf8 (text : List Char) : Bytes := text.flatMap String.utf8EncodeChar

theorem isContinuation_ofNat (n : Nat) :
    isContinuation (UInt8.ofNat (n % 0x40 + 0x80)) = true := by
  have hmod : n % 0x40 < 0x40 := Nat.mod_lt _ (by decide)
  have h : (UInt8.ofNat (n % 0x40 + 0x80)).toNat = n % 0x40 + 0x80 :=
    UInt8.toNat_ofNat_of_lt' (Nat.lt_trans (Nat.add_lt_add_right hmod _) (by decide))
  rw [isContinuation, Bool.and_eq_true, decide_eq_true_eq, decide_eq_true_eq,
    UInt8.le_iff_toNat_le, UInt8.le_iff_toNat_le, h]
  exact ⟨Nat.le_add_left _ _, by show _ ≤ 0xBF; omega⟩

/-- The character that `b0` starts is whole. -/
theorem lossyFrom_char {b0 : UInt8} (tail : Bytes) {rest : Bytes}
    (h : charTail b0 (tail ++ rest) = (true, tail.length)) :
    lossyFrom 0 (b0 :: tail ++ rest) = b0 :: tail ++ lossyFrom 0 rest := by
  have hskip : ∀ tail : Bytes, lossyFrom tail.length (tail ++ rest) = lossyFrom 0 rest := by
    intro tail
    induction tail with
    | nil => rfl
    | cons b tail ih => rw [List.length_cons, List.cons_append, lossyFrom, ih]
  rw [List.cons_append, lossyFrom, h]
  dsimp only
  rw [if_pos rfl, hskip, List.take_left]

section

variable {b0 b1 : UInt8} (rest : Bytes)

theorem charTail_one (h : b0.toNat < 0x80) : charTail b0 rest = (true, 0) := by
  rw [charTail, if_pos (UInt8.lt_iff_toNat_lt.mpr h)]

theorem charTail_two (h : 0xC2 ≤ b0.toNat) (h' : b0.toNat < 0xE0) :
    charTail b0 rest = continues [isContinuation] rest := by
  simp only [charTail, UInt8.lt_iff_toNat_lt, UInt8.reduceToNat]
  rw [if_neg (by omega), if_neg (by omega), if_pos h']

theorem charTail_three (h : 0xE0 ≤ b0.toNat) (h' : b0.toNat < 0xF0) :
    charTail b0 rest = continues [secondOfThree b0, isContinuation] rest := by
  simp only [charTail, UInt8.lt_iff_toNat_lt, UInt8.reduceToNat]
  rw [if_neg (by omega), if_neg (by omega), if_neg (by omega), if_pos h']

theorem charTail_four (h : 0xF0 ≤ b0.toNat) (h' : b0.toNat < 0xF5) :
    charTail b0 rest = continues [secondOfFour b0, isContinuation, isContinuation] rest := by
  simp only [charTail, UInt8.lt_iff_toNat_lt, UInt8.reduceToNat]
  rw [if_neg (by omega), if_neg (by omega), if_neg (by omega), if_neg (by omega), if_pos h']

theorem secondOfThree_eq (h : 0x80 ≤ b1.toNat) (h' : b1.toNat ≤ 0xBF)
    (hlow : b0.toNat = 0xE0 → 0xA0 ≤ b1.toNat) (hhigh : b0.toNat = 0xED → b1.toNat ≤ 0x9F) :
    secondOfThree b0 b1 = true := by
  simp only [secondOfThree, isContinuation, beq_iff_eq, ← UInt8.toNat_inj, UInt8.le_iff_toNat_le,
    UInt8.reduceToNat]
  split
  · simp [hlow (by assumption), h']
  · split
    · simp [hhigh (by assumption), h]
    · simp [h, h']

theorem secondOfFour_eq (h : 0x80 ≤ b1.toNat) (h' : b1.toNat ≤ 0xBF)
    (hlow : b0.toNat = 0xF0 → 0x90 ≤ b1.toNat) (hhigh : b0.toNat = 0xF4 → b1.toNat ≤ 0x8F) :
    secondOfFour b0 b1 = true := by
  simp only [secondOfFour, isContinuation, beq_iff_eq, ← UInt8.toNat_inj, UInt8.le_iff_toNat_le,
    UInt8.reduceToNat]
  split
  · simp [hlow (by assumption), h']
  · split
    · simp [hhigh (by assumption), h]
    · simp [h, h']

end

theorem toNat_ofNat8 {n : Nat} (h : n < 0x100) : (UInt8.ofNat n).toNat = n :=
  UInt8.toNat_ofNat_of_lt' h

theorem lossyFrom_encodeChar (c : Char) (rest : Bytes) :
    lossyFrom 0 (String.utf8EncodeChar c ++ rest) =
      String.utf8EncodeChar c ++ lossyFrom 0 rest := by
  have hvalid : c.val.toNat.isValidChar := c.valid
  rw [String.utf8EncodeChar]
  set v := c.val.toNat
  by_cases h1 : v ≤ 0x7f
  · simp only [if_pos h1]
    have hb := toNat_ofNat8 (n := v) (by omega)
    exact lossyFrom_char [] (charTail_one _ (by omega))
  by_cases h2 : v ≤ 0x7ff
  · simp only [if_neg h1, if_pos h2]
    have hb := toNat_ofNat8 (n := v / 64 % 0x20 + 0xc0) (by omega)
    refine lossyFrom_char [_] ?_
    rw [charTail_two _ (by omega) (by omega), List.cons_append, continues,
      if_pos (isContinuation_ofNat _)]
    rfl
  by_cases h3 : v ≤ 0xffff
  · simp only [if_neg h1, if_neg h2, if_pos h3]
    have hb := toNat_ofNat8 (n := v / 4096 % 0x10 + 0xe0) (by omega)
    have hb1 := toNat_ofNat8 (n := v / 64 % 0x40 + 0x80) (by omega)
    refine lossyFrom_char [_, _] ?_
    -- no overlong form, and no surrogate
    have hsecond : secondOfThree (UInt8.ofNat (v / 4096 % 0x10 + 0xe0))
        (UInt8.ofNat (v / 64 % 0x40 + 0x80)) = true := by
      refine secondOfThree_eq (by omega) (by omega) (fun h => ?_) (fun h => ?_)
      · omega
      · rcases hvalid with hv | ⟨hv, -⟩
        · omega
        · omega
    rw [charTail_three _ (by omega) (by omega), List.cons_append, continues, if_pos hsecond,
      List.cons_append, continues, if_pos (isContinuation_ofNat _)]
    rfl
  · simp only [if_neg h1, if_neg h2, if_neg h3]
    have hlt : v < 0x110000 := by
      rcases hvalid with hv | ⟨-, hv⟩
      · omega
      · omega
    have hb := toNat_ofNat8 (n := v / 262144 % 0x08 + 0xf0) (by omega)
    have hb1 := toNat_ofNat8 (n := v / 4096 % 0x40 + 0x80) (by omega)
    refine lossyFrom_char [_, _, _] ?_
    have hsecond : secondOfFour (UInt8.ofNat (v / 262144 % 0x08 + 0xf0))
        (UInt8.ofNat (v / 4096 % 0x40 + 0x80)) = true := by
      refine secondOfFour_eq (by omega) (by omega) (fun h => ?_) (fun h => ?_)
      · omega
      · omega
    rw [charTail_four _ (by omega) (by omega), List.cons_append, continues, if_pos hsecond,
      List.cons_append, continues, if_pos (isContinuation_ofNat _), List.cons_append, continues,
      if_pos (isContinuation_ofNat _)]
    rfl

theorem fromUtf8Lossy_utf8 (text : List Char) : fromUtf8Lossy (utf8 text) = utf8 text := by
  induction text with
  | nil => rfl
  | cons c text ih =>
    rw [utf8, List.flatMap_cons, fromUtf8Lossy, lossyFrom_encodeChar]
    exact congrArg _ ih

/-! ### The host -/

/-- The host with both line buffers. -/
structure Stdio where
  host : Host
  lineUtf16 : List UInt16

def Stdio.new : Stdio := ⟨Host.new, []⟩

/-- `code as u16`. -/
def asU16 (code : Int) : UInt16 := UInt16.ofNat (code % 2 ^ 16).toNat

def printChar (state : Stdio) (code : Int) : Stdio :=
  if code = 10 then
    { host := { state.host with
        stdout := state.host.stdout ++ [utf8 (fromUtf16Lossy state.lineUtf16)] }
      lineUtf16 := [] }
  else { state with lineUtf16 := state.lineUtf16 ++ [asU16 code] }

def printChars (state : Stdio) (codes : List Int) : Stdio := codes.foldl printChar state

/-- A code that ends a line.  One that only reads as a line feed when it is cut to 16 bits does
not. -/
def isLineFeed (code : Int) : Bool := code = 10

/-- The lines of the codes that are printed, and the units of the last one. -/
theorem printChars_eq (codes : List Int) :
    let state := printChars Stdio.new codes
    state.host.stdout =
        (linesOf isLineFeed codes).map (fun line => utf8 (fromUtf16Lossy (line.map asU16))) ∧
      state.lineUtf16 = (unfinished isLineFeed codes).map asU16 := by
  induction codes using List.reverseRecOn with
  | nil => exact ⟨rfl, rfl⟩
  | append_singleton codes code ih =>
    obtain ⟨hlines, hrest⟩ := ih
    intro state
    have hstate : state = printChar (printChars Stdio.new codes) code := List.foldl_concat ..
    rw [hstate, linesOf, finished_concat, unfinished_concat, printChar]
    by_cases hcode : code = 10
    · have hend : isLineFeed code = true := decide_eq_true hcode
      rw [if_pos hcode, if_pos hend, if_pos hend, List.map_append, List.map_append, ← linesOf]
      dsimp only
      rw [hlines, hrest]
      exact ⟨rfl, rfl⟩
    · have hend : ¬isLineFeed code = true := fun h => hcode (of_decide_eq_true h)
      rw [if_neg hcode, if_neg hend, if_neg hend, List.map_append, ← linesOf]
      dsimp only
      rw [hlines, hrest]
      exact ⟨rfl, rfl⟩

/-! ### Both ways -/

def isLf (c : Char) : Bool := c = '\n'

/-- The codes of a text. -/
def codesOf (text : List Char) : List Int := asI32 (text.flatMap encodeChar)

theorem not_isLf {c : Char} (h : ¬isLf c) : c.toNat ≠ 10 := by
  intro hc
  refine h (decide_eq_true ?_)
  rw [← Char.ofNat_toNat c, hc]

theorem asU16_toNat (u : UInt16) : asU16 u.toNat = u := by
  have hlt := u.toNat_lt
  have hcut : ((u.toNat : Int) % 2 ^ 16).toNat = u.toNat := by omega
  rw [asU16, hcut, UInt16.ofNat_toNat]

theorem map_asU16_codesOf (text : List Char) :
    (codesOf text).map asU16 = text.flatMap encodeChar := by
  rw [codesOf, asI32, List.map_map]
  refine (List.map_congr_left fun u _ => asU16_toNat u).trans (List.map_id' _)

theorem codesOf_eq (text : List Char) :
    codesOf text = text.flatMap fun c => asI32 (encodeChar c) := by
  rw [codesOf, asI32, List.map_flatMap]
  rfl

/-- Only a line feed has the code of one. -/
theorem ne_of_mem_encodeChar {c : Char} (hc : c.toNat ≠ 10) {u : UInt16} (hu : u ∈ encodeChar c) :
    u.toNat ≠ 10 := by
  rw [encodeChar] at hu
  split at hu
  · rename_i hlt
    rwa [List.mem_singleton.mp hu, toNat_ofNat16 hlt]
  · have hlt : c.toNat < 0x110000 := by
      rcases c.valid with h | ⟨-, h⟩
      · exact Nat.lt_trans h (by decide)
      · exact h
    rcases List.mem_cons.mp hu with rfl | hu
    · rw [toNat_ofNat16 (by omega)]
      omega
    · rw [List.mem_singleton.mp hu, toNat_ofNat16 (by omega)]
      omega

theorem linesOf_codesOf (text : List Char) :
    linesOf isLineFeed (codesOf text) = (linesOf isLf text).map codesOf ∧
      unfinished isLineFeed (codesOf text) = codesOf (unfinished isLf text) := by
  have hend : ∀ c, isLf c → ∃ e, asI32 (encodeChar c) = [e] ∧ isLineFeed e := by
    intro c hc
    rw [of_decide_eq_true hc]
    exact ⟨10, rfl, rfl⟩
  have hnot : ∀ c, ¬isLf c → ∀ e ∈ asI32 (encodeChar c), ¬isLineFeed e := by
    intro c hc code hcode hlf
    obtain ⟨u, hu, rfl⟩ := List.mem_map.mp hcode
    exact ne_of_mem_encodeChar (not_isLf hc) hu (Int.ofNat_inj.mp (of_decide_eq_true hlf))
  obtain ⟨hlines, hrest⟩ := linesOf_flatMap isLineFeed hend hnot text
  rw [codesOf_eq, hlines, hrest, codesOf_eq]
  exact ⟨List.map_congr_left fun _ _ => (codesOf_eq _).symm, rfl⟩

theorem ne_of_mem_utf8EncodeChar {c : Char} (hc : c.toNat ≠ 10) {b : UInt8}
    (hb : b ∈ String.utf8EncodeChar c) : b.toNat ≠ 10 := by
  have hlt : c.val.toNat < 0x110000 := by
    rcases c.valid with h | ⟨-, h⟩
    · exact Nat.lt_trans h (by decide)
    · exact h
  have hv : c.val.toNat ≠ 10 := hc
  rw [String.utf8EncodeChar] at hb
  set v := c.val.toNat
  -- all bytes of a character that has several are 0x80 or more
  have hhigh : ∀ n < 0x80, (UInt8.ofNat (n + 0x80)).toNat ≠ 10 := by
    intro n hn
    rw [toNat_ofNat8 (by omega)]
    omega
  by_cases h1 : v ≤ 0x7f
  · simp only [if_pos h1] at hb
    rwa [List.mem_singleton.mp hb, toNat_ofNat8 (by omega)]
  by_cases h2 : v ≤ 0x7ff
  · simp only [if_neg h1, if_pos h2, List.mem_cons, List.not_mem_nil, or_false] at hb
    rcases hb with rfl | rfl
    · exact hhigh (v / 64 % 0x20 + 0x40) (by omega)
    · exact hhigh _ (by omega)
  by_cases h3 : v ≤ 0xffff
  · simp only [if_neg h1, if_neg h2, if_pos h3, List.mem_cons, List.not_mem_nil, or_false] at hb
    rcases hb with rfl | rfl | rfl
    · exact hhigh (v / 4096 % 0x10 + 0x60) (by omega)
    · exact hhigh _ (by omega)
    · exact hhigh _ (by omega)
  · simp only [if_neg h1, if_neg h2, if_neg h3, List.mem_cons, List.not_mem_nil, or_false] at hb
    rcases hb with rfl | rfl | rfl | rfl
    · exact hhigh (v / 262144 % 0x08 + 0x70) (by omega)
    · exact hhigh _ (by omega)
    · exact hhigh _ (by omega)
    · exact hhigh _ (by omega)

theorem linesOf_utf8 (text : List Char) :
    linesOf isNewline (utf8 text) = (linesOf isLf text).map utf8 ∧
      unfinished isNewline (utf8 text) = utf8 (unfinished isLf text) := by
  refine linesOf_flatMap isNewline (fun c hc => ?_) (fun c hc b hb hnl => ?_) text
  · rw [of_decide_eq_true hc]
    exact ⟨newline, rfl, rfl⟩
  · refine ne_of_mem_utf8EncodeChar (not_isLf hc) hb ?_
    rw [of_decide_eq_true hnl]
    rfl

/-- Calls on the standard output alone. -/
theorem runCalls_stdout {calls : List Call} (hfd : ∀ c ∈ calls, c.fd = 1) {host : Host}
    (h : runCalls Host.new calls = some host) :
    host.stdout = (linesOf isNewline (written calls 1)).map fromUtf8Lossy ∧
      host.stdoutBytes = unfinished isNewline (written calls 1) ∧ host.stderr = [] := by
  have hnew : Shows [] Host.new := ⟨rfl, rfl, rfl⟩
  have hshows : Shows (traffic calls) host := hnew.runCalls (fun c hc => .inl (hfd c hc)) h
  have htags : ∀ x ∈ traffic calls, x.1 = 1 := by
    intro x hx
    obtain ⟨c, hc, hx⟩ := List.mem_flatMap.mp hx
    obtain ⟨b, -, rfl⟩ := List.mem_map.mp hx
    exact hfd c hc
  have hbuffered : ∀ as bs, traffic calls = as ++ bs → ∀ y ∈ buffered isNewline as, y.1 = 1 := by
    intro as bs heq y hy
    refine htags y (heq ▸ List.mem_append_left _ ?_)
    rw [eq_flatMap_append (fun x : Int × UInt8 => isNewline x.2) as]
    exact List.mem_append_right _ hy
  have hclean : Clean isNewline (traffic calls) := by
    intro as x bs heq _ y hy
    rw [hbuffered as _ heq y hy, htags x (heq ▸ List.mem_append_right _ List.mem_cons_self)]
  have hlines := (linesFor_eq_iff _).mpr hclean
  refine ⟨?_, ?_, ?_⟩
  · rw [hshows.stdout, hlines, own_traffic]
  · rw [← own_traffic, hclean.unfinished_eq, hshows.stdoutBytes, own,
      List.filter_eq_self.mpr fun y hy => decide_eq_true
        (hbuffered _ [] (List.append_nil _).symm y hy)]
  · have hnone : own (2 : Int) (traffic calls) = [] := by
      rw [own, List.filter_eq_nil_iff.mpr, List.map_nil]
      intro x hx h2
      exact absurd ((htags x hx).symm.trans (of_decide_eq_true h2)) (by decide)
    rw [hshows.stderr, hlines, hnone]
    rfl

/-! ### Main result -/

/-- A guest prints a text through the host, as UTF-16 code units or as UTF-8 bytes, which may be
cut into calls and iovecs at any byte.  Either way the host has printed exactly the lines of the
text, each character of them, and holds what is behind the last line feed. -/
theorem flavours_agree (text : List Char) {calls : List Call} (hfd : ∀ c ∈ calls, c.fd = 1)
    (htext : written calls 1 = utf8 text) {host : Host}
    (h : runCalls Host.new calls = some host) :
    let state := printChars Stdio.new (codesOf text)
    let lines := linesOf isLf text
    let rest := unfinished isLf text
    (state.host.stdout = lines.map utf8 ∧ state.lineUtf16 = rest.flatMap encodeChar) ∧
      host.stdout = lines.map utf8 ∧ host.stdoutBytes = utf8 rest ∧ host.stderr = [] := by
  intro state lines rest
  obtain ⟨hchars, hunits⟩ := printChars_eq (codesOf text)
  obtain ⟨hcodes, hcodesRest⟩ := linesOf_codesOf text
  obtain ⟨hbytes, hbytesRest⟩ := linesOf_utf8 text
  obtain ⟨hstdout, hbuf, hstderr⟩ := runCalls_stdout hfd h
  refine ⟨⟨?_, ?_⟩, ?_, ?_, hstderr⟩
  · rw [hchars, hcodes, List.map_map]
    refine List.map_congr_left fun line _ => ?_
    rw [Function.comp_apply, map_asU16_codesOf, fromUtf16Lossy_encodeUtf16]
  · rw [hunits, hcodesRest, map_asU16_codesOf]
  · rw [hstdout, htext, hbytes, List.map_map]
    exact List.map_congr_left fun line _ => fromUtf8Lossy_utf8 line
  · rw [hbuf, htext, hbytesRest]

/-- A character that is cut into two calls, and is a pair of surrogates. -/
theorem flavours_agree_emoji :
    let state := printChars Stdio.new (codesOf ['a', '😀', '\n', 'b'])
    ∃ host, runCalls Host.new [writeCall 1 [0x61, 0xF0, 0x9F], writeCall 1 [0x98, 0x80, 0x0A, 0x62]] =
        some host ∧
      state.host.stdout = host.stdout ∧ host.stdout = [[0x61, 0xF0, 0x9F, 0x98, 0x80]] := by
  intro state
  have hfd : ∀ c ∈ [writeCall 1 [0x61, 0xF0, 0x9F], writeCall 1 [0x98, 0x80, 0x0A, 0x62]],
      c.fd = 1 := by
    simp [writeCall]
  obtain ⟨host, h⟩ : ∃ host, runCalls Host.new
      [writeCall 1 [0x61, 0xF0, 0x9F], writeCall 1 [0x98, 0x80, 0x0A, 0x62]] = some host := ⟨_, rfl⟩
  obtain ⟨⟨hstate, -⟩, hhost, -⟩ := flavours_agree ['a', '😀', '\n', 'b'] hfd (by decide) h
  exact ⟨host, h, hstate.trans hhost.symm, hhost⟩

end WasmHost
