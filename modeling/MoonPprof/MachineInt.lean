/-
Machine integers.

`wrap w x` is the two's-complement value that a `w`-bit register holds after a
computation whose exact result is `x`.  Wrapping each step of a computation
gives the same register as wrapping its exact result once:

* `wrap_add_left`, `wrap_add_right`, `wrap_mul_left`;
* `foldl_wrap_add` — a running total;
* `wrap_of_inRange` — and nothing happens to a value that fits.

`leBytes k n` are the low `k` bytes of `n`, least significant first; `leNat`
reads them back (`leNat_leBytes`).
-/
import Mathlib.Algebra.BigOperators.Group.List.Basic
import Mathlib.Algebra.Order.Ring.Int
import Mathlib.Tactic.Linarith
import Mathlib.Tactic.NormNum

namespace MachineInt

/-! ### Two's complement -/

/-- The signed value of the low `w` bits of `x`. -/
def wrap (w : Nat) (x : Int) : Int := Int.bmod x (2 ^ w)

/-- The values of a signed `w`-bit register. -/
def InRange (w : Nat) (x : Int) : Prop := -2 ^ (w - 1) ≤ x ∧ x < 2 ^ (w - 1)

/-- The nearest value that fits a signed `w`-bit register. -/
def saturate (w : Nat) (x : Int) : Int := max (-2 ^ (w - 1)) (min (2 ^ (w - 1) - 1) x)

instance (w : Nat) (x : Int) : Decidable (InRange w x) := inferInstanceAs (Decidable (_ ∧ _))

theorem wrap_of_inRange {w : Nat} {x : Int} (hw : 0 < w) (h : InRange w x) : wrap w x = x := by
  obtain ⟨v, rfl⟩ : ∃ v, w = v + 1 := ⟨w - 1, by omega⟩
  obtain ⟨hlo, hhi⟩ := h
  rw [Nat.add_sub_cancel] at hlo hhi
  have hpow : ((2 ^ (v + 1) : Nat) : Int) = 2 * 2 ^ v := by
    rw [Nat.pow_succ']
    norm_cast
  refine Int.bmod_eq_of_le ?_ ?_
  · rw [hpow]
    omega
  · rw [hpow]
    omega

theorem inRange_zero (w : Nat) : InRange w 0 := by
  have : (0 : Int) < 2 ^ (w - 1) := pow_pos (by omega) _
  exact ⟨by omega, this⟩

@[simp] theorem wrap_zero (w : Nat) : wrap w 0 = 0 := Int.zero_bmod

theorem wrap_inRange {w : Nat} (hw : 0 < w) (x : Int) : InRange w (wrap w x) := by
  obtain ⟨v, rfl⟩ : ∃ v, w = v + 1 := ⟨w - 1, by omega⟩
  have hpos : 0 < 2 ^ (v + 1) := Nat.two_pow_pos _
  have hpow : ((2 ^ (v + 1) : Nat) : Int) = 2 * 2 ^ v := by
    rw [Nat.pow_succ']
    norm_cast
  have hlo := Int.le_bmod (x := x) hpos
  have hhi := Int.bmod_lt (x := x) hpos
  rw [hpow] at hlo hhi
  rw [InRange, Nat.add_sub_cancel, wrap]
  constructor <;> omega

theorem saturate_inRange (w : Nat) (x : Int) : InRange w (saturate w x) := by
  have hpos : (0 : Int) < 2 ^ (w - 1) := pow_pos (by omega) _
  rw [InRange, saturate]
  constructor <;> omega

theorem saturate_of_inRange {w : Nat} {x : Int} (h : InRange w x) : saturate w x = x := by
  obtain ⟨hlo, hhi⟩ := h
  rw [saturate]
  omega

theorem tdiv_inRange {w : Nat} {x d : Int} (h : InRange w x) (hd : 0 < d) :
    InRange w (x.tdiv d) := by
  obtain ⟨hlo, hhi⟩ := h
  rcases Int.le_total 0 x with hx | hx
  · have hle : x.tdiv d ≤ x := by
      rw [Int.tdiv_eq_ediv_of_nonneg hx]
      exact Int.ediv_le_self d hx
    have hnonneg := Int.tdiv_nonneg hx hd.le
    exact ⟨by omega, by omega⟩
  · have hle : (-x).tdiv d ≤ -x := by
      rw [Int.tdiv_eq_ediv_of_nonneg (by omega)]
      exact Int.ediv_le_self d (by omega)
    have hnonneg := Int.tdiv_nonneg (show 0 ≤ -x by omega) hd.le
    rw [Int.neg_tdiv] at hle hnonneg
    have hpos : (0 : Int) < 2 ^ (w - 1) := pow_pos (by omega) _
    exact ⟨by omega, by omega⟩

theorem wrap_add_left (w : Nat) (x y : Int) : wrap w (wrap w x + y) = wrap w (x + y) :=
  Int.bmod_add_bmod

theorem wrap_add_right (w : Nat) (x y : Int) : wrap w (x + wrap w y) = wrap w (x + y) :=
  Int.add_bmod_bmod

theorem wrap_mul_left (w : Nat) (x y : Int) : wrap w (wrap w x * y) = wrap w (x * y) :=
  Int.bmod_mul_bmod

/-- A sum wraps to one of its terms when the other is a multiple of the word. -/
theorem wrap_add_eq_iff {w : Nat} {x : Int} (hw : 0 < w) (hx : InRange w x) (y : Int) :
    wrap w (x + y) = x ↔ (2 : Int) ^ w ∣ y := by
  have hself : wrap w (x + y) = x ↔ wrap w (x + y) = wrap w x := by rw [wrap_of_inRange hw hx]
  rw [hself, wrap, wrap, Int.bmod_eq_bmod_iff_bmod_sub_eq_zero, add_sub_cancel_left,
    ← Int.dvd_iff_bmod_eq_zero, Nat.cast_pow, Nat.cast_ofNat]

/-- A running total wrapped at each addition is the wrapped total. -/
theorem foldl_wrap_add (w : Nat) {α : Type*} (f : α → Int) (xs : List α) (acc : Int) :
    xs.foldl (fun acc x => wrap w (acc + f x)) (wrap w acc) = wrap w (acc + (xs.map f).sum) := by
  induction xs generalizing acc with
  | nil => simp
  | cons x xs ih =>
    rw [List.foldl_cons, wrap_add_left, ih, List.map_cons, List.sum_cons, add_assoc]

/-! ### Little-endian bytes -/

/-- The low `k` bytes of `n`, least significant first. -/
def leBytes : Nat → Nat → List UInt8
  | 0, _ => []
  | k + 1, n => UInt8.ofNat n :: leBytes k (n / 256)

/-- The number whose bytes, least significant first, are given. -/
def leNat : List UInt8 → Nat
  | [] => 0
  | b :: bs => b.toNat + 256 * leNat bs

@[simp] theorem leBytes_length (k n : Nat) : (leBytes k n).length = k := by
  induction k generalizing n with
  | zero => rfl
  | succ k ih => rw [leBytes, List.length_cons, ih]

theorem leNat_leBytes (k n : Nat) : leNat (leBytes k n) = n % 256 ^ k := by
  induction k generalizing n with
  | zero => simp [leBytes, leNat, Nat.mod_one]
  | succ k ih =>
    have hb : (UInt8.ofNat n).toNat = n % 256 := by simp
    rw [leBytes, leNat, ih, hb, Nat.pow_succ', Nat.mod_mul]

theorem leNat_leBytes_of_lt {k n : Nat} (h : n < 256 ^ k) : leNat (leBytes k n) = n := by
  rw [leNat_leBytes, Nat.mod_eq_of_lt h]

end MachineInt
