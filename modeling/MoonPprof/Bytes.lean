/-
Text as bytes.

A Rust `&str` and a C string are both their bytes here: `validUtf8` is the
check of `std::str::from_utf8`, `CString` a text that a terminating NUL ends,
and `lowerHex` what `%lx` and `{:x}` print.
-/
import Mathlib.Data.List.Basic
import Mathlib.Tactic.Common

/-- A byte string; a Rust `&str` is its UTF-8 bytes. -/
abbrev Bytes := List UInt8

/-- ASCII text as bytes. -/
def ascii (s : String) : Bytes := s.toList.map Char.toUInt8

def isContinuation (c : UInt8) : Bool := 0x80 ≤ c && c ≤ 0xBF

/-- The well-formed UTF-8 byte sequences: one to four bytes per scalar value,
no overlong form, no surrogate, nothing above U+10FFFF. -/
def validUtf8 : Bytes → Bool
  | [] => true
  | b0 :: rest =>
    if b0 < 0x80 then validUtf8 rest
    else if b0 < 0xC2 then false
    else if b0 < 0xE0 then
      match rest with
      | b1 :: rest => isContinuation b1 && validUtf8 rest
      | _ => false
    else if b0 < 0xF0 then
      match rest with
      | b1 :: b2 :: rest =>
        (if b0 == 0xE0 then 0xA0 ≤ b1 && b1 ≤ 0xBF
          else if b0 == 0xED then 0x80 ≤ b1 && b1 ≤ 0x9F
          else isContinuation b1) &&
        isContinuation b2 && validUtf8 rest
      | _ => false
    else if b0 < 0xF5 then
      match rest with
      | b1 :: b2 :: b3 :: rest =>
        (if b0 == 0xF0 then 0x90 ≤ b1 && b1 ≤ 0xBF
          else if b0 == 0xF4 then 0x80 ≤ b1 && b1 ≤ 0x8F
          else isContinuation b1) &&
        isContinuation b2 && isContinuation b3 && validUtf8 rest
      | _ => false
    else false

def IsAscii (s : Bytes) : Prop := ∀ c ∈ s, c < 0x80

instance (s : Bytes) : Decidable (IsAscii s) := inferInstanceAs (Decidable (∀ c ∈ s, c < 0x80))

theorem validUtf8_of_isAscii {s : Bytes} (h : IsAscii s) : validUtf8 s = true := by
  induction s with
  | nil => rfl
  | cons c s ih =>
    rw [validUtf8.eq_def]
    simp only
    rw [if_pos (h c List.mem_cons_self)]
    exact ih fun x hx => h x (List.mem_cons_of_mem _ hx)

theorem IsAscii.take {s : Bytes} (h : IsAscii s) (n : Nat) : IsAscii (s.take n) :=
  fun c hc => h c (List.mem_of_mem_take hc)

/-- A NUL-terminated string, without its NUL. -/
structure CString where
  bytes : Bytes
  noNul : 0 ∉ bytes

/-- `strnlen(s, n)`. -/
def CString.strnlen (s : CString) (n : Nat) : Nat := min s.bytes.length n

/-- Lower-case hexadecimal digits. -/
def lowerHex (n : Nat) : Bytes := (Nat.toDigits 16 n).map Char.toUInt8

theorem mem_lowerHex {n : Nat} {c : UInt8} (hc : c ∈ lowerHex n) :
    ∃ d < 16, c = (Nat.digitChar d).toUInt8 := by
  induction n using Nat.strongRecOn with
  | ind n ih =>
    rw [lowerHex, Nat.toDigits_eq_if (by omega)] at hc
    split at hc
    · rename_i hn
      exact ⟨n, hn, by simpa using hc⟩
    · rw [List.map_append, List.mem_append] at hc
      rcases hc with hc | hc
      · exact ih (n / 16) (by omega) hc
      · exact ⟨n % 16, Nat.mod_lt _ (by omega), by simpa using hc⟩

theorem lowerHex_isAscii (n : Nat) : IsAscii (lowerHex n) := by
  intro c hc
  obtain ⟨d, hd, rfl⟩ := mem_lowerHex hc
  have : ∀ d < 16, (Nat.digitChar d).toUInt8 < 0x80 := by decide
  exact this d hd

theorem lowerHex_noNul (n : Nat) : 0 ∉ lowerHex n := by
  intro hc
  obtain ⟨d, hd, h0⟩ := mem_lowerHex hc
  have : ∀ d < 16, 0 ≠ (Nat.digitChar d).toUInt8 := by decide
  exact this d hd h0
