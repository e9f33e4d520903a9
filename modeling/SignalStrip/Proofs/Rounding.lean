import Mathlib.Algebra.Order.Floor.Ring
import Mathlib.Data.Int.Log
import Mathlib.Data.Rat.Floor
import Mathlib.Tactic.Linarith
import Mathlib.Tactic.Positivity
import Mathlib.Tactic.Ring
import SignalStrip.Sample

/-! Samples with 53 significant bits. Every operation gives the exact result rounded to the nearest such number, as
floating point does as long as nothing overflows. A number with 53 significant bits is never rounded, and what is
nearest keeps the order of what is rounded. -/

namespace SignalStrip

def nearestEven (number : ℚ) : ℤ :=
  if number - ⌊number⌋ < 1 / 2 then ⌊number⌋
  else if 1 / 2 < number - ⌊number⌋ then ⌊number⌋ + 1
  else if Even ⌊number⌋ then ⌊number⌋
  else ⌊number⌋ + 1

theorem abs_nearestEven_sub_le (number : ℚ) : |nearestEven number - number| ≤ 1 / 2 := by
  have below := Int.floor_le number
  have above := Int.lt_floor_add_one number
  unfold nearestEven
  split_ifs <;> push_cast <;> rw [abs_le] <;> constructor <;> linarith

private theorem one_le_abs_sub {first second : ℤ} (apart : first ≠ second) : (1 : ℚ) ≤ |(first : ℚ) - second| := by
  exact_mod_cast Int.one_le_abs (sub_ne_zero.mpr apart)

private theorem abs_nearestEven_sub_le_abs_sub (number : ℚ) (whole : ℤ) :
    |nearestEven number - number| ≤ |whole - number| := by
  by_cases same : nearestEven number = whole
  · rw [same]
  · have error := abs_nearestEven_sub_le number
    have apart := one_le_abs_sub same
    have through := abs_sub_le (nearestEven number : ℚ) number whole
    rw [abs_sub_comm number] at through
    linarith

private theorem even_nearestEven {number : ℚ} {whole : ℤ} (other : whole ≠ nearestEven number)
    (tie : |whole - number| = |nearestEven number - number|) : Even (nearestEven number) := by
  have error := abs_nearestEven_sub_le number
  have apart := one_le_abs_sub other
  have through := abs_sub_le (whole : ℚ) number (nearestEven number)
  rw [abs_sub_comm number, tie] at through
  have half : |nearestEven number - number| = 1 / 2 := by linarith
  have below := Int.floor_le number
  have above := Int.lt_floor_add_one number
  revert half
  unfold nearestEven
  split_ifs with low high even <;> intro half
  · rw [abs_sub_comm, abs_of_nonneg (by linarith)] at half
    linarith
  · push_cast at half
    rw [abs_of_nonneg (by linarith)] at half
    linarith
  · exact even
  · exact (Int.not_even_iff_odd.mp even).add_one

/-- A number that takes no more than 53 bits, wherever its point is. -/
def Significant (number : ℚ) : Prop :=
  ∃ digits exponent : ℤ, |digits| ≤ 2 ^ 53 ∧ number = digits * 2 ^ exponent

/-- How far numbers with 53 significant bits are apart around `number`. -/
def spacing (number : ℚ) : ℚ :=
  2 ^ (Int.log 2 |number| - 52)

theorem spacing_pos (number : ℚ) : 0 < spacing number :=
  zpow_pos (by norm_num) _

/-- The nearest number with 53 significant bits, and of two that are equally near the one whose last bit is zero. -/
def rounded (number : ℚ) : ℚ :=
  nearestEven (number / spacing number) * spacing number

private theorem two_pow_mul_spacing (number : ℚ) (count : ℕ) :
    2 ^ count * spacing number = (2 : ℚ) ^ (Int.log 2 |number| + (count - 52)) := by
  rw [spacing, ← zpow_natCast, ← zpow_add₀ (by norm_num)]
  congr 1
  ring

private theorem abs_lt_spacing (number : ℚ) : |number| < 2 ^ 53 * spacing number := by
  rw [two_pow_mul_spacing]
  exact_mod_cast Int.lt_zpow_succ_log_self (by norm_num) |number|

private theorem spacing_le_abs {number : ℚ} (nonzero : number ≠ 0) : 2 ^ 52 * spacing number ≤ |number| := by
  rw [two_pow_mul_spacing]
  have least := Int.zpow_log_le_self (b := 2) (by norm_num) (abs_pos.mpr nonzero)
  simpa using least

private theorem abs_nearestEven_le (number : ℚ) : |nearestEven (number / spacing number)| ≤ 2 ^ 53 := by
  have error := abs_nearestEven_sub_le (number / spacing number)
  have size : |number / spacing number| < 2 ^ 53 := by
    rw [abs_div, abs_of_pos (spacing_pos number), div_lt_iff₀ (spacing_pos number)]
    exact abs_lt_spacing number
  have near := abs_sub_abs_le_abs_sub (nearestEven (number / spacing number) : ℚ) (number / spacing number)
  have bound : |(nearestEven (number / spacing number) : ℚ)| < 2 ^ 53 + 1 := by linarith
  have whole : |nearestEven (number / spacing number)| < 2 ^ 53 + 1 := by exact_mod_cast bound
  omega

theorem significant_rounded (number : ℚ) : Significant (rounded number) :=
  ⟨_, _, abs_nearestEven_le number, rfl⟩

/-- A number with 53 significant bits is on the grid around any other number, or it is smaller than what that grid is
for. -/
private theorem Significant.exists_multiple_or_lt {candidate : ℚ} (significant : Significant candidate) (number : ℚ) :
    (∃ whole : ℤ, candidate = whole * spacing number) ∨
      candidate ≠ 0 ∧ |candidate| < 2 ^ 52 * spacing number := by
  by_cases zero : candidate = 0
  · exact .inl ⟨0, by rw [zero, Int.cast_zero, zero_mul]⟩
  obtain ⟨digits, exponent, size, rfl⟩ := significant
  obtain coarse | fine := le_or_gt (Int.log 2 |number| - 52) exponent
  · obtain ⟨shift, rfl⟩ := Int.le.dest coarse
    refine .inl ⟨digits * 2 ^ shift, ?_⟩
    rw [spacing, zpow_add₀ (by norm_num), zpow_natCast]
    push_cast
    ring
  · have positive := zpow_pos (zero_lt_two' ℚ) exponent
    have bound : |(digits : ℚ)| * 2 ^ exponent ≤ 2 ^ 52 * spacing number := by
      calc |(digits : ℚ)| * 2 ^ exponent
        _ ≤ 2 ^ 53 * 2 ^ (Int.log 2 |number| - 52 - 1) := by
          refine mul_le_mul (by exact_mod_cast size) ?_ positive.le (by norm_num)
          exact zpow_le_zpow_right₀ (by norm_num) (by omega)
        _ = 2 ^ 52 * spacing number := by
          rw [spacing, zpow_sub_one₀ (by norm_num)]
          ring
    obtain less | same := bound.lt_or_eq
    · refine .inr ⟨zero, ?_⟩
      rwa [abs_mul, abs_of_pos positive]
    · left
      obtain plus | minus := abs_choice (digits : ℚ)
      · exact ⟨2 ^ 52, by rw [plus] at same; exact_mod_cast same⟩
      · refine ⟨-2 ^ 52, ?_⟩
        rw [minus] at same
        push_cast
        linarith

private theorem abs_mul_spacing_sub (number : ℚ) (whole : ℤ) :
    |whole * spacing number - number| = |whole - number / spacing number| * spacing number := by
  have positive := spacing_pos number
  rw [← abs_of_pos positive, ← abs_mul, abs_of_pos positive, sub_mul, div_mul_cancel₀ _ positive.ne']

theorem abs_rounded_sub_le (number : ℚ) (whole : ℤ) :
    |rounded number - number| ≤ |whole * spacing number - number| := by
  rw [rounded, abs_mul_spacing_sub, abs_mul_spacing_sub]
  exact mul_le_mul_of_nonneg_right (abs_nearestEven_sub_le_abs_sub _ whole) (spacing_pos number).le

private theorem abs_rounded_sub_le_of_nonzero {number : ℚ} (nonzero : number ≠ 0) :
    |rounded number - number| ≤ |number| - 2 ^ 52 * spacing number := by
  have least := spacing_le_abs nonzero
  obtain negative | positive := nonzero.lt_or_gt
  · rw [abs_of_neg negative] at least ⊢
    calc |rounded number - number|
      _ ≤ |((-2 ^ 52 : ℤ) : ℚ) * spacing number - number| := abs_rounded_sub_le number (-2 ^ 52)
      _ = -number - 2 ^ 52 * spacing number := by
        push_cast
        rw [abs_of_nonneg (by linarith)]
        ring
  · rw [abs_of_pos positive] at least ⊢
    calc |rounded number - number|
      _ ≤ |((2 ^ 52 : ℤ) : ℚ) * spacing number - number| := abs_rounded_sub_le number (2 ^ 52)
      _ = number - 2 ^ 52 * spacing number := by
        push_cast
        rw [abs_of_nonpos (by linarith)]
        ring

private theorem abs_rounded_sub_lt {number candidate : ℚ} (nonzero : candidate ≠ 0)
    (small : |candidate| < 2 ^ 52 * spacing number) : |rounded number - number| < |candidate - number| := by
  by_cases zero : number = 0
  · have least := abs_rounded_sub_le number 0
    rw [zero, Int.cast_zero, zero_mul, sub_self, abs_zero] at least
    rw [zero]
    exact least.trans_lt (abs_pos.mpr (by rwa [sub_zero]))
  · have near := abs_rounded_sub_le_of_nonzero zero
    have through := abs_sub_abs_le_abs_sub number candidate
    rw [abs_sub_comm number] at through
    linarith

/-- What rounding to 53 significant bits asks for: of two results that are equally near, the last bit of the one that is
taken is zero. -/
structure Nearest (number result : ℚ) : Prop where
  significant : Significant result
  nearest {candidate : ℚ} (other : Significant candidate) : |result - number| ≤ |candidate - number|
  even {candidate : ℚ} (other : Significant candidate) (apart : candidate ≠ result)
    (tie : |candidate - number| = |result - number|) :
    ∃ digits exponent : ℤ, |digits| ≤ 2 ^ 53 ∧ Even digits ∧ result = digits * 2 ^ exponent

theorem nearest_rounded (number : ℚ) : Nearest number (rounded number) := by
  refine ⟨significant_rounded number, fun {candidate} other => ?_, fun {candidate} other apart tie => ?_⟩
  · obtain ⟨whole, rfl⟩ | ⟨nonzero, small⟩ := other.exists_multiple_or_lt number
    · exact abs_rounded_sub_le number whole
    · exact (abs_rounded_sub_lt nonzero small).le
  · obtain ⟨whole, rfl⟩ | ⟨nonzero, small⟩ := other.exists_multiple_or_lt number
    · have different : whole ≠ nearestEven (number / spacing number) := fun same => apart (by rw [same, rounded])
      rw [rounded, abs_mul_spacing_sub, abs_mul_spacing_sub] at tie
      have even := even_nearestEven different (mul_right_cancel₀ (spacing_pos number).ne' tie)
      exact ⟨_, _, abs_nearestEven_le number, even, rfl⟩
    · exact absurd tie (abs_rounded_sub_lt nonzero small).ne'

theorem Significant.rounded_eq {number : ℚ} (significant : Significant number) : rounded number = number := by
  have error := (nearest_rounded number).nearest significant
  rw [sub_self, abs_zero] at error
  exact sub_eq_zero.mp (abs_nonpos_iff.mp error)

theorem rounded_intCast {whole : ℤ} (small : |whole| ≤ 2 ^ 53) : rounded whole = whole :=
  Significant.rounded_eq ⟨whole, 0, small, by rw [zpow_zero, mul_one]⟩

/-- Results that have changed places would each be nearer to the other number. -/
theorem rounded_le_rounded {lower upper : ℚ} (ordered : lower ≤ upper) : rounded lower ≤ rounded upper := by
  obtain rfl | less := ordered.eq_or_lt
  · exact le_rfl
  · by_contra crossed
    have below := sq_le_sq.mpr ((nearest_rounded lower).nearest (significant_rounded upper))
    have above := sq_le_sq.mpr ((nearest_rounded upper).nearest (significant_rounded lower))
    have apart := mul_pos (sub_pos.mpr (not_le.mp crossed)) (sub_pos.mpr less)
    linarith

theorem le_rounded {whole : ℤ} (small : |whole| ≤ 2 ^ 53) {number : ℚ} (below : whole ≤ number) :
    whole ≤ rounded number := by
  rw [← rounded_intCast small]
  exact rounded_le_rounded below

theorem rounded_le {whole : ℤ} (small : |whole| ≤ 2 ^ 53) {number : ℚ} (above : number ≤ whole) :
    rounded number ≤ whole := by
  rw [← rounded_intCast small]
  exact rounded_le_rounded above

structure Rounded where
  value : ℚ
  significant : Significant value

namespace Rounded

def round (number : ℚ) : Rounded :=
  ⟨rounded number, significant_rounded number⟩

/-- Exponents have no bounds, so nothing overflows, and a division by zero gives zero. -/
instance : Sample Rounded where
  zero := round 0
  one := round 1
  add left right := round (left.value + right.value)
  sub left right := round (left.value - right.value)
  mul left right := round (left.value * right.value)
  div left right := round (left.value / right.value)
  neg sample := round (-sample.value)
  dyadic numerator exponent := round (numerator / 2 ^ exponent)
  magnitude sample := round |sample.value|
  lesser left right := if right.value < left.value then right else left
  greater left right := if left.value < right.value then right else left
  below left right := left.value < right.value
  atMost left right := left.value ≤ right.value

theorem value_add (left right : Rounded) : (left + right).value = rounded (left.value + right.value) := rfl

theorem value_mul (left right : Rounded) : (left * right).value = rounded (left.value * right.value) := rfl

theorem value_one : (1 : Rounded).value = 1 :=
  mod_cast rounded_intCast (by norm_num : |(1 : ℤ)| ≤ 2 ^ 53)

theorem value_neg_one : (-1 : Rounded).value = -1 := by
  show rounded (-(1 : Rounded).value) = -1
  rw [value_one]
  exact_mod_cast rounded_intCast (by norm_num : |(-1 : ℤ)| ≤ 2 ^ 53)

theorem value_dyadic {numerator : ℕ} (small : numerator ≤ 2 ^ 53) (exponent : ℕ) :
    (Sample.dyadic numerator exponent : Rounded).value = numerator / 2 ^ exponent := by
  apply Significant.rounded_eq
  refine ⟨numerator, -exponent, ?_, ?_⟩
  · rw [Nat.abs_cast]
    exact_mod_cast small
  · rw [zpow_neg, zpow_natCast, Int.cast_natCast, div_eq_mul_inv]

end Rounded

end SignalStrip
