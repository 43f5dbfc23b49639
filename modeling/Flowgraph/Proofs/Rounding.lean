import Mathlib.Algebra.Order.Field.Power
import Mathlib.Data.Rat.Cast.Order
import Mathlib.Tactic.Linarith
import Mathlib.Tactic.Positivity
import Mathlib.Tactic.Ring
import Flowgraph.Number.Binary
/-! Whole numbers among floating-point numbers. A whole number with more bits than a mantissa holds is rounded to the
nearest number of the format, so it is kept exactly if the bits that are left out are all nought. -/
namespace Flowgraph

section Multiples
variable {s q : ℚ} {m j : ℤ}

/-- Next to a multiple of `s` that is off by half of `s` at most, any other is off by half of `s` at least. -/
theorem half_le_of_ne (hs : 0 ≤ s) (hm : 2 * |m * s - q| ≤ s) (hj : j ≠ m) : s ≤ 2 * |j * s - q| := by
  have hone : (1 : ℚ) ≤ |(j : ℚ) - m| := by exact_mod_cast Int.one_le_abs (sub_ne_zero.mpr hj)
  have hstep : s ≤ |j * s - m * s| := by
    rw [← sub_mul, abs_mul, abs_of_nonneg hs]
    exact le_mul_of_one_le_left hs hone
  have htriangle := abs_sub_le (j * s) q (m * s)
  rw [abs_sub_comm q] at htriangle
  linarith

theorem closest_multiple (hs : 0 ≤ s) (hm : 2 * |m * s - q| ≤ s) (j : ℤ) : |m * s - q| ≤ |j * s - q| := by
  by_cases hj : j = m
  · rw [hj]
  · have hfar := half_le_of_ne hs hm hj
    linarith

end Multiples

namespace Binary

variable {x y : Binary} {n k : Nat} {q : ℚ}

/-- The number that is meant. -/
def value (x : Binary) : ℚ := (if x.negative then -1 else 1) * (x.mant * 2 ^ x.exp)

/-- The numbers of the format, each in its one form. -/
structure InFormat (x : Binary) : Prop where
  mant_lt : x.mant < 2 ^ 53
  exp_le : x.exp ≤ greatestExp
  form : 2 ^ 52 ≤ x.mant ∧ leastExp ≤ x.exp ∨ x.exp = leastExp

/-- No number of the format is nearer to `q`, and where another is equally near the mantissa is even. -/
structure Nearest (x : Binary) (q : ℚ) : Prop where
  inFormat : x.InFormat
  closest : ∀ y : Binary, y.InFormat → |x.value - q| ≤ |y.value - q|
  even : ∀ y : Binary, y.InFormat → |y.value - q| = |x.value - q| → y.value ≠ x.value → x.mant % 2 = 0

/-! ## Two kinds of numbers -/

/-- With an exponent of at least `k` a number is a multiple of `2 ^ k`. -/
theorem value_multiple (h : (k : ℤ) ≤ y.exp) : ∃ j : ℤ, y.value = j * 2 ^ k := by
  obtain ⟨d, hd⟩ := Int.eq_ofNat_of_zero_le (sub_nonneg.mpr h)
  have hexp : (2 : ℚ) ^ y.exp = 2 ^ d * 2 ^ k := by
    rw [show y.exp = ((d + k : ℕ) : ℤ) by push_cast; omega, zpow_natCast, pow_add]
  refine ⟨(if y.negative then -1 else 1) * (y.mant * 2 ^ d), ?_⟩
  rw [value, hexp]
  split <;> push_cast <;> ring

/-- With a smaller one it is too small to have as many bits as a mantissa holds in front of `2 ^ k`. -/
theorem abs_value_lt (hm : y.mant < 2 ^ 53) (h : y.exp < k) : |y.value| < 2 ^ 52 * 2 ^ k := by
  have hsign : |(if y.negative then -1 else 1 : ℚ)| = 1 := by split <;> simp
  have hpos : (0 : ℚ) < 2 ^ y.exp := by positivity
  have hexp : (2 : ℚ) * 2 ^ y.exp ≤ 2 ^ k := by
    rw [← zpow_natCast, ← zpow_one_add₀ two_ne_zero]
    exact zpow_le_zpow_right₀ one_le_two (by omega)
  have hmant : (y.mant : ℚ) < 2 ^ 53 := by exact_mod_cast hm
  calc |y.value| = y.mant * 2 ^ y.exp := by rw [value, abs_mul, hsign, one_mul, abs_of_nonneg (by positivity)]
    _ < 2 ^ 53 * 2 ^ y.exp := mul_lt_mul_of_pos_right hmant hpos
    _ = 2 ^ 52 * (2 * 2 ^ y.exp) := by ring
    _ ≤ 2 ^ 52 * 2 ^ k := mul_le_mul_of_nonneg_left hexp (by positivity)

/-- A multiple of `2 ^ k` that is off by half of it at most is nearest to a number that needs all bits in front of
`2 ^ k`. -/
theorem nearest_of_multiple {m : ℤ} (hx : x.InFormat) (hv : x.value = m * 2 ^ k) (hq : 2 ^ 52 * 2 ^ k ≤ q)
    (hm : 2 * |m * 2 ^ k - q| ≤ 2 ^ k) (heven : 2 * |m * 2 ^ k - q| = 2 ^ k → x.mant % 2 = 0) : x.Nearest q := by
  have hpos : (0 : ℚ) ≤ 2 ^ k := by positivity
  have hsmall {y : Binary} (hy : y.InFormat) (h : y.exp < k) : |x.value - q| < |y.value - q| := by
    -- The least number with all bits in front of `2 ^ k` lies between the two.
    have hleast := closest_multiple hpos hm (2 ^ 52)
    rw [Int.cast_pow, Int.cast_ofNat] at hleast
    rw [abs_of_nonpos (sub_nonpos.mpr hq)] at hleast
    have hlt := lt_of_le_of_lt (le_abs_self y.value) (abs_value_lt hy.mant_lt h)
    rw [hv, abs_of_nonpos (by linarith : y.value - q ≤ 0)]
    linarith
  refine ⟨hx, fun y hy => ?_, fun y hy heq hne => ?_⟩
  · rcases le_or_gt (k : ℤ) y.exp with h | h
    · obtain ⟨j, hj⟩ := value_multiple h
      rw [hv, hj]
      exact closest_multiple hpos hm j
    · exact le_of_lt (hsmall hy h)
  · rcases le_or_gt (k : ℤ) y.exp with h | h
    · obtain ⟨j, hj⟩ := value_multiple h
      rw [hv, hj] at heq hne
      have hfar := half_le_of_ne hpos hm fun (h : j = m) => hne (by rw [h])
      exact heven (by linarith)
    · exact absurd heq (ne_of_gt (hsmall hy h))

/-! ## Rounding -/

/-- A quotient is rounded to a whole number by a half at most, and by a half to an even number only. -/
theorem divEven_near (num : Nat) {den : Nat} (hd : 0 < den) :
    2 * |(divEven num den : ℚ) * den - num| ≤ den ∧
      (2 * |(divEven num den : ℚ) * den - num| = den → divEven num den % 2 = 0) := by
  have hsplit : (num : ℚ) = (num / den : ℕ) * den + (num % den : ℕ) := by exact_mod_cast (Nat.div_add_mod' num den).symm
  have hr : ((num % den : ℕ) : ℚ) < den := by exact_mod_cast Nat.mod_lt num hd
  have hr₀ : (0 : ℚ) ≤ (num % den : ℕ) := by positivity
  -- The distances from the quotient and from its successor, which the branches compare.
  have hdown : |((num / den : ℕ) : ℚ) * den - num| = (num % den : ℕ) := by
    rw [hsplit, sub_add_cancel_left, abs_neg, abs_of_nonneg hr₀]
  have hup : |((num / den + 1 : ℕ) : ℚ) * den - num| = den - (num % den : ℕ) := by
    rw [hsplit, Nat.cast_add, Nat.cast_one, abs_of_nonneg] <;> linarith
  unfold divEven
  dsimp only
  split
  · rename_i h
    have h' : 2 * ((num % den : ℕ) : ℚ) < den := by exact_mod_cast h
    rw [hdown]
    exact ⟨le_of_lt h', fun heq => absurd heq (ne_of_lt h')⟩
  · split
    · rename_i h
      have h' : (den : ℚ) < 2 * (num % den : ℕ) := by exact_mod_cast h
      rw [hup]
      exact ⟨by linarith, fun heq => absurd heq (ne_of_lt (by linarith))⟩
    · rename_i h₁ h₂
      have h : 2 * ((num % den : ℕ) : ℚ) = den := by exact_mod_cast Nat.le_antisymm (not_lt.mp h₂) (not_lt.mp h₁)
      split
      · rename_i heven
        rw [hdown]
        exact ⟨le_of_eq h, fun _ => heven⟩
      · rw [hup]
        exact ⟨by linarith, fun _ => by omega⟩

theorem scaled_whole (n k : Nat) : scaled n 1 k = (n, 2 ^ k) := by
  unfold scaled
  rw [if_pos (Int.natCast_nonneg k), Int.toNat_natCast, one_mul]
  rfl

section Whole
variable (hl : 2 ^ 52 * 2 ^ k ≤ n) (hh : n < 2 ^ 53 * 2 ^ k)
include hl hh

/-- So many bits of a whole number do not fit behind the 53 of a mantissa. -/
theorem fittingExp_whole : fittingExp n 1 = k := by
  have hne : n ≠ 0 := Nat.ne_of_gt (Nat.lt_of_lt_of_le (by positivity) hl)
  have hlog : n.log2 = 52 + k := by
    rw [Nat.log2_eq_iff hne, show 52 + k + 1 = 53 + k by omega, pow_add, pow_add]
    exact ⟨hl, hh⟩
  have hguess : (n.log2 : ℤ) - ((1 : ℕ).log2 : ℤ) - 52 = k := by
    rw [hlog, show (1 : ℕ).log2 = 0 from rfl]
    push_cast
    omega
  unfold fittingExp
  dsimp only
  rw [hguess, scaled_whole]
  dsimp only
  rw [if_neg (show ¬n < 2 ^ k * Nat.pow 2 52 from Nat.not_lt.mpr ((Nat.mul_comm _ _).trans_le hl))]
  exact max_eq_right (le_trans (by decide : leastExp ≤ 0) (Int.natCast_nonneg k))

/-- The mantissa of a whole number holds its leading bits, unless it is rounded up to the next power of two. -/
theorem divEven_bounds : 2 ^ 52 ≤ divEven n (2 ^ k) ∧ divEven n (2 ^ k) ≤ 2 ^ 53 := by
  have hpos : 0 < 2 ^ k := Nat.two_pow_pos k
  have hlow : 2 ^ 52 ≤ n / 2 ^ k := (Nat.le_div_iff_mul_le hpos).mpr hl
  have hhigh : n / 2 ^ k < 2 ^ 53 := (Nat.div_lt_iff_lt_mul hpos).mpr hh
  unfold divEven
  dsimp only
  split
  · exact ⟨hlow, le_of_lt hhigh⟩
  · split
    · omega
    · split <;> omega

theorem ofRatio?_eq (hk : k ≤ 970) : ofRatio? false n 1 =
    some (if divEven n (2 ^ k) = 2 ^ 53 then ⟨false, 2 ^ 52, k + 1⟩ else ⟨false, divEven n (2 ^ k), k⟩) := by
  have hne : n ≠ 0 := Nat.ne_of_gt (Nat.lt_of_lt_of_le (by positivity) hl)
  have hexp : (if divEven n (2 ^ k) = 2 ^ 53 then ⟨false, 2 ^ 52, k + 1⟩
      else ⟨false, divEven n (2 ^ k), k⟩ : Binary).exp ≤ greatestExp := by
    unfold greatestExp
    split <;> dsimp only <;> omega
  unfold ofRatio?
  rw [if_neg hne, fittingExp_whole hl hh]
  dsimp only
  rw [scaled_whole]
  exact if_pos hexp

/-- The result is a number of the format, with the rounded mantissa in front of `2 ^ k`. -/
theorem exists_ofRatio? (hk : k ≤ 970) : ∃ x, ofRatio? false n 1 = some x ∧ x.InFormat ∧
    x.value = divEven n (2 ^ k) * 2 ^ k ∧ (divEven n (2 ^ k) % 2 = 0 → x.mant % 2 = 0) := by
  obtain ⟨hlow, hhigh⟩ := divEven_bounds hl hh
  have hleast : leastExp ≤ k := le_trans (by decide) (Int.natCast_nonneg k)
  have hgreatest : (k : ℤ) + 1 ≤ greatestExp := by
    unfold greatestExp
    omega
  refine ⟨_, ofRatio?_eq hl hh hk, ?_⟩
  by_cases hm : divEven n (2 ^ k) = 2 ^ 53
  · rw [if_pos hm]
    refine ⟨⟨Nat.pow_lt_pow_right one_lt_two (by decide), hgreatest,
      .inl ⟨le_refl _, le_trans hleast (Int.le_add_one (le_refl _))⟩⟩, ?_, fun _ => (by decide : 2 ^ 52 % 2 = 0)⟩
    rw [value, hm, zpow_add₀ two_ne_zero, zpow_natCast]
    push_cast
    ring
  · rw [if_neg hm]
    refine ⟨⟨lt_of_le_of_ne hhigh hm, le_trans (Int.le_add_one (le_refl _)) hgreatest, .inl ⟨hlow, hleast⟩⟩, ?_, id⟩
    rw [value, zpow_natCast]
    simp

/-- A whole number within range is rounded to the nearest number of the format. It is kept if and only if the bits that
do not fit are nought. -/
theorem ofRatio?_whole (hk : k ≤ 970) :
    ∃ x, ofRatio? false n 1 = some x ∧ x.Nearest n ∧ (x.value = n ↔ 2 ^ k ∣ n) := by
  obtain ⟨x, hx, hformat, hvalue, hmant⟩ := exists_ofRatio? hl hh hk
  obtain ⟨hnear, heven⟩ := divEven_near n (Nat.two_pow_pos k)
  rw [Nat.cast_pow, Nat.cast_ofNat] at hnear heven
  have hleast : (2 : ℚ) ^ 52 * 2 ^ k ≤ n := by exact_mod_cast hl
  refine ⟨x, hx, nearest_of_multiple (m := divEven n (2 ^ k)) hformat hvalue hleast hnear fun h => hmant (heven h),
    fun h => ?_, fun ⟨j, hj⟩ => ?_⟩
  · rw [hvalue] at h
    exact Dvd.intro_left _ (by exact_mod_cast h)
  · have hn : (n : ℚ) = (j : ℤ) * 2 ^ k := by
      rw [hj, Nat.mul_comm]
      push_cast
      rfl
    have hzero := closest_multiple (m := divEven n (2 ^ k)) (by positivity) hnear j
    rw [← hn, sub_self, abs_zero, abs_nonpos_iff, sub_eq_zero] at hzero
    exact hvalue.trans hzero

end Whole

end Binary
end Flowgraph
