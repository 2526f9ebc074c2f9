/-
Strings between guest and host (the `__moonbit_fs_unstable` string imports of
`crates/moonbit-wasm-host`).

The guest holds references to host values.  It writes a string one UTF-16 code
unit at a time, and reads one back the same way.

* `copyBack_eq` — what comes back of any code units that are written;
* `copyBack_iff` — a string comes back as it was written exactly when all its
  characters are single code units.
-/
import Mathlib.Data.List.Basic
import Mathlib.Tactic.Common

namespace HostStrings

inductive MoonbitHostValue where
  | instant
  | string (s : String)
  | stringWriter (s : String)
  | stringReader (chars : List UInt16) (pos : Nat)
  | stringArray (values : List String)
  | stringArrayReader (values : List String) (pos : Nat)

/-- What a reference of the guest leads to: a `String` of the embedder, a value of this host, or
something else. -/
inductive ExternData where
  | plain (s : String)
  | host (v : MoonbitHostValue)
  | other

abbrev Store := List ExternData

/-- A reference; `none` is null. -/
abbrev Handle := Option Nat

/-- `ExternRef::new`. -/
def Store.new (st : Store) (v : MoonbitHostValue) : Handle × Store :=
  (some st.length, st ++ [.host v])

/-- A host value changes under its lock. -/
def Store.update (st : Store) (h : Handle) (v : MoonbitHostValue) : Store :=
  match h with
  | none => st
  | some id => st.set id (.host v)

/-! ### UTF-16 -/

def encodeChar (c : Char) : List UInt16 :=
  if c.toNat < 0x10000 then [UInt16.ofNat c.toNat]
  else
    let v := c.toNat - 0x10000
    [UInt16.ofNat (0xD800 + v / 0x400), UInt16.ofNat (0xDC00 + v % 0x400)]

/-- `str::encode_utf16`. -/
def encodeUtf16 (s : String) : List UInt16 := s.toList.flatMap encodeChar

/-- `char::from_u32`. -/
def fromU32 (n : Nat) : Option Char := if n.isValidChar then some (Char.ofNat n) else none

/-! ### The imports -/

/-- The data of a reference that is not null. -/
def Store.data (st : Store) (h : Handle) : Except String ExternData :=
  match h with
  | none => .error "null externref"
  | some id =>
    match st[id]? with
    | none => .error "externref data missing"
    | some any => .ok any

/-- `with_host_value`, up to the match on the value. -/
def Store.hostValue (st : Store) (h : Handle) : Except String MoonbitHostValue := do
  match ← st.data h with
  | .host v => .ok v
  | _ => .error "externref not MoonbitHostValue"

def readString (st : Store) (h : Handle) : Except String String := do
  match ← st.data h with
  | .plain s => .ok s
  | .host (.string s) => .ok s
  | .host (.stringWriter writer) => .ok writer
  | .host _ => .error "expected MoonBit string handle"
  | .other => .error "externref not MoonbitHostValue"

def beginCreateString (st : Store) : Handle × Store := st.new (.stringWriter "")

/-- The character that one code unit is written as. -/
def unitChar (cu : Nat) : Char := (fromU32 cu).getD '\uFFFD'

def stringAppendChar (st : Store) (h : Handle) (ch : Int) : Except String Store := do
  match ← st.hostValue h with
  | .stringWriter writer =>
    -- the unit is decoded by itself, whatever came before it
    let cu := (ch % 0x10000).toNat
    .ok (st.update h (.stringWriter (writer.push (unitChar cu))))
  | _ => .error "string_append_char: wrong handle type"

def finishCreateString (st : Store) (h : Handle) : Except String (Handle × Store) := do
  let s ← readString st h
  .ok (st.new (.string s))

def beginReadString (st : Store) (h : Handle) : Except String (Handle × Store) := do
  let chars := encodeUtf16 (← readString st h)
  .ok (st.new (.stringReader chars 0))

def stringReadChar (st : Store) (h : Handle) : Except String (Int × Store) := do
  match ← st.hostValue h with
  | .stringReader chars pos =>
    match chars[pos]? with
    -- the reader stays at the end
    | none => .ok (-1, st)
    | some ch => .ok (ch.toNat, st.update h (.stringReader chars (pos + 1)))
  | _ => .error "string_read_char: wrong handle type"

/-! ### A guest that writes and reads back -/

def appendChars (st : Store) (h : Handle) : List Int → Except String Store
  | [] => .ok st
  | ch :: chs => do appendChars (← stringAppendChar st h ch) h chs

/-- The results of `n` reads. -/
def readChars (st : Store) (h : Handle) : Nat → Except String (List Int × Store)
  | 0 => .ok ([], st)
  | n + 1 => do
    let (ch, st) ← stringReadChar st h
    let (chs, st) ← readChars st h n
    .ok (ch :: chs, st)

/-- The code units as the guest passes them. -/
def asI32 (units : List UInt16) : List Int := units.map fun u => (u.toNat : Int)

/-- Write the code units, finish the string, and read it `n` times. -/
def copyBack (st : Store) (units : List UInt16) (n : Nat) : Except String (List Int) := do
  let (writer, st) := beginCreateString st
  let st ← appendChars st writer (asI32 units)
  let (s, st) ← finishCreateString st writer
  let (reader, st) ← beginReadString st s
  let (chs, _) ← readChars st reader n
  .ok chs

/-! ### What comes back -/

section

variable (st : Store) (v v' : MoonbitHostValue)

theorem data_last : Store.data (st ++ [.host v]) (some st.length) = .ok (.host v) := by
  rw [Store.data, List.getElem?_append_right (Nat.le_refl _), Nat.sub_self]
  rfl

theorem hostValue_last : Store.hostValue (st ++ [.host v]) (some st.length) = .ok v := by
  rw [Store.hostValue, data_last]
  rfl

theorem update_last : Store.update (st ++ [.host v]) (some st.length) v' = st ++ [.host v'] := by
  rw [Store.update, List.set_append_right _ _ (Nat.le_refl _), Nat.sub_self]
  rfl

end

/-- The text that code units are written as. -/
def writtenText (w : String) (units : List UInt16) : String :=
  units.foldl (fun w u => w.push (unitChar u.toNat)) w

theorem appendChars_eq (st : Store) (w : String) (units : List UInt16) :
    appendChars (st ++ [.host (.stringWriter w)]) (some st.length) (asI32 units) =
      .ok (st ++ [.host (.stringWriter (writtenText w units))]) := by
  induction units generalizing w with
  | nil => rfl
  | cons u units ih =>
    -- the mask with 0xFFFF does nothing to a code unit
    have hunit : ((u.toNat : Int) % 0x10000).toNat = u.toNat := by
      have := u.toNat_lt
      omega
    have hstep : stringAppendChar (st ++ [.host (.stringWriter w)]) (some st.length) u.toNat =
        .ok (st ++ [.host (.stringWriter (w.push (unitChar u.toNat)))]) := by
      rw [stringAppendChar, hostValue_last]
      show Except.ok (Store.update _ _ _) = _
      rw [update_last, hunit]
    rw [asI32, List.map_cons, appendChars, hstep, ← asI32]
    exact ih _

/-- One more -1 is not seen by `n` reads. -/
theorem take_append_replicate (xs : List Int) (n : Nat) :
    (xs ++ List.replicate (n + 1) (-1)).take n = (xs ++ List.replicate n (-1)).take n := by
  rw [List.replicate_succ', ← List.append_assoc, List.take_append_of_le_length]
  rw [List.length_append, List.length_replicate]
  exact Nat.le_add_left _ _

theorem readChars_eq (st : Store) (chars : List UInt16) (pos n : Nat) :
    ∃ st', readChars (st ++ [.host (.stringReader chars pos)]) (some st.length) n =
      .ok ((asI32 (chars.drop pos) ++ List.replicate n (-1)).take n, st') := by
  induction n generalizing pos with
  | zero => exact ⟨_, rfl⟩
  | succ n ih =>
    set store := st ++ [ExternData.host (.stringReader chars pos)] with hstore
    cases hget : chars[pos]? with
    | none =>
      obtain ⟨st', hrest⟩ := ih pos
      -- behind the end the reader stays where it is
      have hstep : stringReadChar store (some st.length) = .ok (-1, store) := by
        rw [stringReadChar, hostValue_last]
        show (match chars[pos]? with | none => _ | some ch => _) = _
        rw [hget]
      have hdrop : chars.drop pos = [] :=
        List.drop_eq_nil_of_le (List.getElem?_eq_none_iff.mp hget)
      refine ⟨st', ?_⟩
      rw [readChars, hstep]
      show (readChars store (some st.length) n).bind _ = _
      rw [hrest, hdrop]
      rfl
    | some ch =>
      obtain ⟨st', hrest⟩ := ih (pos + 1)
      have hstep : stringReadChar store (some st.length) =
          .ok (ch.toNat, st ++ [.host (.stringReader chars (pos + 1))]) := by
        rw [stringReadChar, hostValue_last]
        show (match chars[pos]? with | none => _ | some ch => _) = _
        rw [hget]
        dsimp only
        rw [hstore, update_last]
      have hdrop : chars.drop pos = ch :: chars.drop (pos + 1) := by
        obtain ⟨hlt, rfl⟩ := List.getElem?_eq_some_iff.mp hget
        exact List.drop_eq_getElem_cons hlt
      refine ⟨st', ?_⟩
      rw [readChars, hstep]
      show (readChars _ (some st.length) n).bind _ = _
      rw [hrest, hdrop]
      show Except.ok (_, _) = _
      rw [asI32, asI32, List.map_cons, List.cons_append, List.take_succ_cons, take_append_replicate]

/-- What is read back are the code units of the text that was written, and then -1. -/
theorem copyBack_eq (st : Store) (units : List UInt16) (n : Nat) :
    copyBack st units n =
      .ok ((asI32 (encodeUtf16 (writtenText "" units)) ++ List.replicate n (-1)).take n) := by
  -- the store grows by the writer, the finished string and the reader
  set w := writtenText "" units with hw
  set st₁ := st ++ [ExternData.host (.stringWriter w)] with hst₁
  set st₂ := st₁ ++ [ExternData.host (.string w)] with hst₂
  obtain ⟨st', hread⟩ := readChars_eq st₂ (encodeUtf16 w) 0 n
  have hwriter : readString st₁ (some st.length) = .ok w := by
    rw [readString, hst₁, data_last]
    rfl
  have hstring : readString st₂ (some st₁.length) = .ok w := by
    rw [readString, hst₂, data_last]
    rfl
  have happend : appendChars (beginCreateString st).2 (beginCreateString st).1 (asI32 units) =
      .ok st₁ :=
    appendChars_eq st "" units
  have hfinish : finishCreateString st₁ (beginCreateString st).1 = .ok (some st₁.length, st₂) := by
    rw [finishCreateString, show (beginCreateString st).1 = some st.length from rfl, hwriter]
    rfl
  have hbegin : beginReadString st₂ (some st₁.length) =
      .ok (some st₂.length, st₂ ++ [.host (.stringReader (encodeUtf16 w) 0)]) := by
    rw [beginReadString, hstring]
    rfl
  rw [copyBack]
  dsimp only
  rw [happend]
  show (finishCreateString st₁ (beginCreateString st).1).bind _ = _
  rw [hfinish]
  show (beginReadString st₂ (some st₁.length)).bind _ = _
  rw [hbegin]
  show (readChars _ (some st₂.length) n).bind _ = _
  rw [hread]
  rfl

/-! ### Code units that survive -/

/-- A high or a low surrogate. -/
def IsSurrogate (u : UInt16) : Prop := 0xD800 ≤ u.toNat ∧ u.toNat < 0xE000

instance (u : UInt16) : Decidable (IsSurrogate u) := inferInstanceAs (Decidable (_ ∧ _))

theorem encodeChar_unitChar (u : UInt16) :
    encodeChar (unitChar u.toNat) = [if IsSurrogate u then 0xFFFD else u] := by
  have hlt := u.toNat_lt
  by_cases hu : IsSurrogate u
  · have hnone : fromU32 u.toNat = none := by
      rw [fromU32, if_neg]
      rintro (h | ⟨h, -⟩)
      · exact absurd hu.1 (by omega)
      · exact absurd hu.2 (by omega)
    rw [unitChar, hnone, if_pos hu]
    rfl
  · have hvalid : u.toNat.isValidChar := by
      rw [IsSurrogate] at hu
      by_cases hlow : u.toNat < 0xD800
      · exact Or.inl hlow
      · exact Or.inr ⟨by omega, by omega⟩
    have htoNat : (Char.ofNat u.toNat).toNat = u.toNat := by
      rw [Char.ofNat, dif_pos hvalid]
      rfl
    rw [unitChar, fromU32, if_pos hvalid, Option.getD_some, encodeChar, htoNat,
      if_pos hlt, if_neg hu,
      UInt16.ofNat_toNat]

theorem toList_writtenText (w : String) (units : List UInt16) :
    (writtenText w units).toList = w.toList ++ units.map fun u => unitChar u.toNat := by
  induction units generalizing w with
  | nil => exact (List.append_nil _).symm
  | cons u units ih =>
    rw [writtenText, List.foldl_cons, ← writtenText, ih, String.toList_push, List.append_assoc]
    rfl

/-- Every code unit is written by itself, and no surrogate survives. -/
theorem encodeUtf16_writtenText (units : List UInt16) :
    encodeUtf16 (writtenText "" units) =
      units.map fun u => if IsSurrogate u then 0xFFFD else u := by
  rw [encodeUtf16, toList_writtenText, String.toList_empty, List.nil_append, List.flatMap_map]
  simp only [encodeChar_unitChar]
  exact List.map_eq_flatMap.symm

theorem isSurrogate_iff {c : Char} :
    (∀ u ∈ encodeChar c, ¬IsSurrogate u) ↔ c.toNat < 0x10000 := by
  have hvalid : c.toNat.isValidChar := c.valid
  rw [encodeChar]
  by_cases hc : c.toNat < 0x10000
  · rw [if_pos hc]
    refine iff_of_true (fun u hu => ?_) hc
    rw [List.mem_singleton] at hu
    rw [hu, IsSurrogate, UInt16.toNat_ofNat']
    rcases hvalid with h | ⟨h, -⟩
    · omega
    · omega
  · rw [if_neg hc]
    refine iff_of_false (fun h => h _ List.mem_cons_self ?_) hc
    have hlt : c.toNat < 0x110000 := by
      rcases hvalid with h | ⟨-, h⟩
      · omega
      · omega
    rw [IsSurrogate, UInt16.toNat_ofNat']
    omega

/-- A text is written back as itself exactly when no surrogate is needed. -/
theorem encodeUtf16_writtenText_eq_iff (s : String) :
    encodeUtf16 (writtenText "" (encodeUtf16 s)) = encodeUtf16 s ↔
      ∀ c ∈ s.toList, c.toNat < 0x10000 := by
  have hself : encodeUtf16 (writtenText "" (encodeUtf16 s)) = encodeUtf16 s ↔
      ∀ u ∈ encodeUtf16 s, ¬IsSurrogate u := by
    rw [encodeUtf16_writtenText]
    nth_rewrite 2 [← List.map_id (encodeUtf16 s)]
    rw [List.map_inj_left]
    refine forall₂_congr fun u _ => ?_
    by_cases hu : IsSurrogate u
    · rw [if_pos hu]
      refine iff_of_false (fun h => ?_) (not_not.mpr hu)
      rw [← show (0xFFFD : UInt16) = u from h] at hu
      exact absurd hu (by decide)
    · rw [if_neg hu]
      exact iff_of_true rfl hu
  rw [hself, encodeUtf16]
  simp only [List.mem_flatMap, forall_exists_index, and_imp, ← isSurrogate_iff]
  exact ⟨fun h c hc u hu => h u c hc hu, fun h u c hc hu => h c hc u hu⟩

/-- Two texts that read alike for ever are the same. -/
theorem forall_take_eq_iff (a b : List UInt16) :
    (∀ n, (asI32 a ++ List.replicate n (-1)).take n = (asI32 b ++ List.replicate n (-1)).take n) ↔
      a = b := by
  constructor
  · intro h
    -- the code units are what is not negative in a long enough reading
    have hunits : ∀ xs : List UInt16, xs.length ≤ a.length + b.length →
        ((asI32 xs ++ List.replicate (a.length + b.length) (-1)).take (a.length + b.length)).filter
          (0 ≤ ·) = asI32 xs := by
      intro xs hxs
      have hlength : (asI32 xs).length ≤ a.length + b.length := by rwa [asI32, List.length_map]
      rw [List.take_append, List.take_of_length_le hlength, List.take_replicate, List.filter_append,
        List.filter_replicate_of_neg (by decide), List.append_nil, List.filter_eq_self]
      intro x hx
      obtain ⟨u, -, rfl⟩ := List.mem_map.mp hx
      exact decide_eq_true (Int.natCast_nonneg _)
    have heq : asI32 a = asI32 b := by
      rw [← hunits a (Nat.le_add_right _ _), h, hunits b (Nat.le_add_left _ _)]
    exact List.map_injective_iff.mpr (fun u v huv => UInt16.toNat_inj.mp (Int.ofNat_inj.mp huv)) heq
  · rintro rfl n
    rfl

/-- From any store: writing the code units of a string and reading them back gives these code
units, and then -1 for ever, if and only if all characters of the string are below U+10000. -/
theorem copyBack_iff (st : Store) (s : String) :
    (∀ n, copyBack st (encodeUtf16 s) n =
      .ok ((asI32 (encodeUtf16 s) ++ List.replicate n (-1)).take n)) ↔
      ∀ c ∈ s.toList, c.toNat < 0x10000 := by
  rw [← encodeUtf16_writtenText_eq_iff, ← forall_take_eq_iff]
  refine forall_congr' fun n => ?_
  rw [copyBack_eq, Except.ok.injEq]

theorem copyBack_emoji : ¬∀ n, copyBack [] (encodeUtf16 "😀") n =
    .ok ((asI32 (encodeUtf16 "😀") ++ List.replicate n (-1)).take n) := by
  intro h
  have hread := h 2
  rw [copyBack_eq, Except.ok.injEq] at hread
  exact absurd hread (by decide)

end HostStrings
