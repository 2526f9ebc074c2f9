/-
Double-precision numbers, by value.

A finite double is the rational it stands for; the two zeros are one value.
`ofRat` rounds to the nearest double, ties to even, and overflows to infinity.

* `ofRat_eq_self` — a rational whose last place is an integer is not rounded;
* `ofInt_of_abs_le` — neither is an integer of at most 2^53;
* `ofInt_of_neg` — rounding keeps the sign of an integer;
* `round_intCast`, `toI64_intCast` — and it is read back as it was.
-/
import Mathlib.Algebra.Order.Floor.Ring
import Mathlib.Data.Int.Log
import Mathlib.Data.Rat.Floor
import Mathlib.Tactic.Linarith
import Mathlib.Tactic.NormNum
import Mathlib.Tactic.Positivity

inductive F64 where
  | nan
  | inf (negative : Bool)
  | fin (q : ℚ)
deriving DecidableEq

namespace F64

/-- The nearest integer, ties to even. -/
def roundEven (q : ℚ) : Int :=
  let f := ⌊q⌋
  if q - f < 1 / 2 then f
  else if 1 / 2 < q - f then f + 1
  else if f % 2 = 0 then f
  else f + 1

/-- The exponent of the last place of a double of this magnitude. -/
def ulpExp (q : ℚ) : Int := max (Int.log 2 |q| - 52) (-1074)

/-- The nearest double. -/
def ofRat (q : ℚ) : F64 :=
  let ulp : ℚ := 2 ^ ulpExp q
  let r := roundEven (q / ulp) * ulp
  if |r| < 2 ^ 1024 then fin r else inf (decide (q < 0))

/-- `n as f64`. -/
def ofInt (n : Int) : F64 := ofRat n

/-- `f64::round`: to the nearest integer, ties away from zero. -/
def round : F64 → F64
  | fin q => fin (if q < 0 then -⌊-q + 1 / 2⌋ else ⌊q + 1 / 2⌋)
  | x => x

/-- `x as i64`: truncated, and saturated where it does not fit. -/
def toI64 : F64 → Int
  | nan => 0
  | inf negative => if negative then -2 ^ 63 else 2 ^ 63 - 1
  | fin q => max (-2 ^ 63) (min (2 ^ 63 - 1) (if q < 0 then -⌊-q⌋ else ⌊q⌋))

def isFinite : F64 → Bool
  | fin _ => true
  | _ => false

/-- `x < y`. -/
def lt : F64 → F64 → Bool
  | fin p, fin q => p < q
  | inf true, fin _ | fin _, inf false | inf true, inf false => true
  | _, _ => false

/-- `f64::max`, which ignores a NaN. -/
def max (x y : F64) : F64 :=
  match x, y with
  | nan, y => y
  | x, nan => x
  | x, y => if x.lt y then y else x

/-- `x - y`. -/
def sub : F64 → F64 → F64
  | fin p, fin q => ofRat (p - q)
  | nan, _ | _, nan => nan
  | inf s, inf t => if s = t then nan else inf s
  | inf s, fin _ => inf s
  | fin _, inf s => inf !s

/-- `x * y`. -/
def mul : F64 → F64 → F64
  | fin p, fin q => ofRat (p * q)
  | nan, _ | _, nan => nan
  | inf s, inf t => inf (s != t)
  | inf s, fin q | fin q, inf s => if q = 0 then nan else inf (s != decide (q < 0))

/-- `x / y`. -/
def div : F64 → F64 → F64
  | nan, _ | _, nan => nan
  | inf _, inf _ => nan
  | inf s, fin q => inf (s != decide (q < 0))
  | fin _, inf _ => fin 0
  | fin p, fin q => if q ≠ 0 then ofRat (p / q) else if p = 0 then nan else inf (decide (p < 0))

theorem roundEven_intCast (n : Int) : roundEven n = n := by
  rw [roundEven]
  simp only [Int.floor_intCast, sub_self]
  rw [if_pos (by norm_num)]

/-- A value with an integral last place is a double. -/
theorem ofRat_eq_self {q : ℚ} {m : Int} (hm : q = m * 2 ^ ulpExp q) (hlt : |q| < 2 ^ 1024) :
    ofRat q = fin q := by
  have hulp : (2 : ℚ) ^ ulpExp q ≠ 0 := zpow_ne_zero _ (by norm_num)
  have hdiv : q / 2 ^ ulpExp q = m := by
    rw [div_eq_iff hulp]
    exact hm
  rw [ofRat]
  simp only [hdiv, roundEven_intCast, ← hm]
  rw [if_pos hlt]

/-- Integers of at most 2^53 are doubles. -/
theorem ofInt_of_abs_le {n : Int} (h : |n| ≤ 2 ^ 53) : ofInt n = fin n := by
  have habs : |(n : ℚ)| = ((n.natAbs : ℕ) : ℚ) := by
    rw [Nat.cast_natAbs, Int.cast_abs]
  have hnat : n.natAbs ≤ 2 ^ 53 := by
    have := Int.natCast_natAbs n
    omega
  have hlog : Nat.log 2 n.natAbs ≤ 53 := by
    have := Nat.log_mono_right (b := 2) hnat
    rwa [Nat.log_pow (by norm_num)] at this
  have hexp : ulpExp n = (Nat.log 2 n.natAbs : Int) - 52 := by
    rw [ulpExp, habs, Int.log_natCast]
    exact max_eq_left (by omega)
  -- 2^53 itself has its last place at 2; everything below has it at 1 or less.
  obtain ⟨m, hm⟩ : ∃ m : Int, (n : ℚ) = m * 2 ^ ulpExp (n : ℚ) := by
    rw [hexp]
    by_cases hk : Nat.log 2 n.natAbs ≤ 52
    · refine ⟨n * 2 ^ (52 - Nat.log 2 n.natAbs), ?_⟩
      have hz : ((Nat.log 2 n.natAbs : Int) - 52) = -((52 - Nat.log 2 n.natAbs : ℕ) : Int) := by
        omega
      rw [hz, zpow_neg, zpow_natCast]
      push_cast
      rw [mul_assoc, mul_inv_cancel₀ (by positivity), mul_one]
    · have hn : n.natAbs = 2 ^ 53 := by
        refine le_antisymm hnat ?_
        rw [show 53 = Nat.log 2 n.natAbs by omega]
        exact Nat.pow_log_le_self 2 (by
          rintro h0
          rw [h0, Nat.log_zero_right] at hk
          omega)
      rw [hn, Nat.log_pow (by norm_num)]
      rcases Int.natAbs_eq n with hp | hp
      · refine ⟨2 ^ 52, ?_⟩
        rw [hp, hn]
        norm_num
      · refine ⟨-2 ^ 52, ?_⟩
        rw [hp, hn]
        norm_num
  refine ofRat_eq_self hm ?_
  rw [habs]
  have h53 : ((n.natAbs : ℕ) : ℚ) ≤ 2 ^ 53 := by exact_mod_cast hnat
  exact lt_of_le_of_lt h53 (pow_lt_pow_right₀ (by norm_num) (by norm_num))

theorem roundEven_le {q : ℚ} {m : Int} (h : q ≤ m) : roundEven q ≤ m := by
  have hfloor : ⌊q⌋ ≤ m := Int.floor_le_iff.mpr (by linarith)
  rcases hfloor.lt_or_eq with hlt | heq
  · rw [roundEven]
    split_ifs <;> omega
  · have hq : q = m := le_antisymm h (heq ▸ Int.floor_le q)
    rw [hq, roundEven_intCast]

/-- A negative integer reads as a negative number. -/
theorem ofInt_of_neg {n : Int} (h : n < 0) :
    ofInt n = inf true ∨ ∃ q : ℚ, q < 0 ∧ ofInt n = fin q := by
  have hn : (n : ℚ) ≤ -1 := by exact_mod_cast Int.le_sub_one_of_lt h
  have habs : |(n : ℚ)| = -n := abs_of_nonpos (by linarith)
  have hlog : 0 ≤ Int.log 2 |(n : ℚ)| := by
    rw [habs]
    exact Int.log_one_right (R := ℚ) 2 ▸ Int.log_mono_right (by norm_num) (by linarith)
  have hpos : (0 : ℚ) < 2 ^ ulpExp n := zpow_pos (by norm_num) _
  have hulp : (2 : ℚ) ^ ulpExp n ≤ -n := by
    refine (zpow_le_zpow_right₀ (by norm_num) (show ulpExp n ≤ Int.log 2 |(n : ℚ)| from
      max_le (by omega) (by omega))).trans ?_
    rw [← habs]
    exact Int.zpow_log_le_self (by norm_num) (by rw [habs]; linarith)
  have hround : roundEven (n / 2 ^ ulpExp n) ≤ -1 := by
    refine roundEven_le ?_
    rw [div_le_iff₀ hpos]
    push_cast
    linarith
  have hr : (roundEven (n / 2 ^ ulpExp n) : ℚ) * 2 ^ ulpExp n < 0 := by
    refine mul_neg_of_neg_of_pos ?_ hpos
    exact_mod_cast (show roundEven ((n : ℚ) / 2 ^ ulpExp n) < 0 by omega)
  rw [ofInt, ofRat]
  split
  · exact Or.inr ⟨_, hr, rfl⟩
  · left
    rw [decide_eq_true (by exact_mod_cast h)]

/-- The greatest `i64` rounds up to a power of two. -/
theorem ofInt_maxI64 : ofInt (2 ^ 63 - 1) = fin (2 ^ 63) := by
  have hcast : (((2 ^ 63 - 1 : Int)) : ℚ) = ((2 ^ 63 - 1 : ℕ) : ℚ) := by norm_num
  have hlog : Nat.log 2 (2 ^ 63 - 1) = 62 :=
    Nat.log_eq_of_pow_le_of_lt_pow (by norm_num) (by norm_num)
  have hexp : ulpExp ((2 ^ 63 - 1 : Int) : ℚ) = 10 := by
    rw [ulpExp, hcast, Nat.abs_cast, Int.log_natCast, hlog]
    norm_num
  have hfloor : ⌊((2 ^ 63 - 1 : Int) : ℚ) / 2 ^ (10 : Int)⌋ = 2 ^ 53 - 1 := by
    rw [Int.floor_eq_iff]
    norm_num
  have hround : roundEven (((2 ^ 63 - 1 : Int) : ℚ) / 2 ^ (10 : Int)) = 2 ^ 53 := by
    rw [roundEven]
    simp only [hfloor]
    norm_num
  have hr : (((2 ^ 53 : Int) : ℚ) * 2 ^ (10 : Int)) = 2 ^ 63 := by norm_num
  have hlt : |(2 : ℚ) ^ 63| < 2 ^ 1024 := by
    rw [abs_of_pos (by positivity)]
    exact pow_lt_pow_right₀ (by norm_num) (by norm_num)
  rw [ofInt, ofRat]
  simp only [hexp, hround, hr]
  exact if_pos hlt

/-- The greater of two finite numbers. -/
theorem max_fin (p q : ℚ) : (fin p).max (fin q) = fin (p ⊔ q) := by
  show (if (fin p).lt (fin q) then fin q else fin p) = _
  rw [lt]
  by_cases hlt : p < q
  · rw [if_pos (decide_eq_true hlt), sup_of_le_right hlt.le]
  · rw [if_neg (by simpa using hlt), sup_of_le_left (not_lt.mp hlt)]

theorem floor_add_half (n : Int) : ⌊(n : ℚ) + 1 / 2⌋ = n := by
  rw [Int.floor_eq_iff]
  constructor <;> linarith

theorem round_intCast (n : Int) : round (fin n) = fin n := by
  rw [round]
  split
  · rw [← Int.cast_neg n, floor_add_half, Int.cast_neg, neg_neg]
  · rw [floor_add_half]

theorem toI64_intCast {n : Int} (hlo : -2 ^ 63 ≤ n) (hhi : n < 2 ^ 63) : toI64 (fin n) = n := by
  rw [toI64]
  have hfloor : (if (n : ℚ) < 0 then -⌊-(n : ℚ)⌋ else ⌊(n : ℚ)⌋) = n := by
    split
    · rw [← Int.cast_neg, Int.floor_intCast, neg_neg]
    · rw [Int.floor_intCast]
  rw [hfloor]
  omega

end F64
