import Mathlib
import LoxLang.Number.Rounding

/-!
# Integers nearest to rationals

`IsNearest q n` says what rounding to nearest means, without a word on how it is done: no integer is
nearer to `q` than `n`, and if another one is as near, then `n` is the even one. That is the same as
being within **half a unit** (`isNearest_iff`), and it is what `roundDiv` finds
(`isNearest_roundDiv`).

Rounding keeps signs (`IsNearest.neg`) and the **order** (`IsNearest.mono`).
-/

namespace LoxLang

/-- The integer is **nearest** to the rational, and the even one of two that are equally near. -/
structure IsNearest (q : ℚ) (n : ℤ) : Prop where
  dist_le : ∀ m : ℤ, |(n : ℚ) - q| ≤ |(m : ℚ) - q|
  even_of_tie : ∀ m : ℤ, m ≠ n → |(m : ℚ) - q| = |(n : ℚ) - q| → Even n

section

variable {q r : ℚ} {n m : ℤ}

/-- No integer is nearer than one within **half a unit**, and none is as near unless that one is
off by just half a unit. -/
theorem dist_le_of_ne (hhalf : |(n : ℚ) - q| ≤ 1 / 2) (hne : m ≠ n) :
    |(n : ℚ) - q| ≤ |(m : ℚ) - q| ∧ (|(m : ℚ) - q| = |(n : ℚ) - q| → |(n : ℚ) - q| = 1 / 2) := by
  obtain ⟨hlow, hhigh⟩ := abs_le.mp hhalf
  have hother : 1 / 2 ≤ |(m : ℚ) - q| := by
    rcases lt_or_gt_of_ne hne with hlt | hgt
    · have hstep : (m : ℚ) + 1 ≤ n := by exact_mod_cast hlt
      exact le_abs.mpr (.inr (by linarith))
    · have hstep : (n : ℚ) + 1 ≤ m := by exact_mod_cast hgt
      exact le_abs.mpr (.inl (by linarith))
  exact ⟨hhalf.trans hother, fun heq => le_antisymm hhalf (heq ▸ hother)⟩

/-- Nearest is what is within **half a unit**, and even if it is off by just that. -/
theorem isNearest_iff :
    IsNearest q n ↔ |(n : ℚ) - q| ≤ 1 / 2 ∧ (|(n : ℚ) - q| = 1 / 2 → Even n) := by
  constructor
  · intro h
    have hbefore := sq_le_sq.mpr (h.dist_le (n - 1))
    have hbehind := sq_le_sq.mpr (h.dist_le (n + 1))
    push_cast at hbefore hbehind
    refine ⟨abs_le.mpr ⟨by linarith, by linarith⟩, fun heq => ?_⟩
    -- The other integer is the one beyond `q`.
    rcases (abs_eq (by norm_num)).mp heq with hdist | hdist
    · refine h.even_of_tie (n - 1) (by omega) ?_
      have hother : ((n - 1 : ℤ) : ℚ) - q = -((n : ℚ) - q) := by
        push_cast
        linarith
      rw [hother, abs_neg]
    · refine h.even_of_tie (n + 1) (by omega) ?_
      have hother : ((n + 1 : ℤ) : ℚ) - q = -((n : ℚ) - q) := by
        push_cast
        linarith
      rw [hother, abs_neg]
  · rintro ⟨hhalf, htie⟩
    refine ⟨fun m => ?_, fun m hne heq => htie ((dist_le_of_ne hhalf hne).2 heq)⟩
    rcases eq_or_ne m n with rfl | hne
    · exact le_rfl
    · exact (dist_le_of_ne hhalf hne).1

namespace IsNearest

/-- Rounding keeps **signs**. -/
theorem neg (h : IsNearest q n) : IsNearest (-q) (-n) := by
  have hdist : |((-n : ℤ) : ℚ) - -q| = |(n : ℚ) - q| := by
    rw [Int.cast_neg, neg_sub_neg, abs_sub_comm]
  rw [isNearest_iff, hdist, even_neg]
  exact isNearest_iff.mp h

/-- Rounding keeps the **order**. -/
theorem mono (hq : IsNearest q n) (hr : IsNearest r m) (hle : q ≤ r) : n ≤ m := by
  obtain ⟨hhalf, heven⟩ := isNearest_iff.mp hq
  obtain ⟨hhalf', heven'⟩ := isNearest_iff.mp hr
  by_contra hlt
  have hstep : (m : ℚ) + 1 ≤ n := by exact_mod_cast not_le.mp hlt
  obtain ⟨-, hfirst⟩ := abs_le.mp hhalf
  obtain ⟨hsecond, -⟩ := abs_le.mp hhalf'
  -- There is room for one number between the two integers, the midpoint.
  have hn : (n : ℚ) - q = 1 / 2 := by linarith
  have hm : (m : ℚ) - r = -(1 / 2) := by linarith
  have hnext : n = m + 1 := by
    have hcast : (n : ℚ) = m + 1 := by linarith
    exact_mod_cast hcast
  have hboth := heven (by rw [hn, abs_of_pos (by norm_num)])
  rw [hnext, Int.even_add_one] at hboth
  exact hboth (heven' (by rw [hm, abs_neg, abs_of_pos (by norm_num)]))

end IsNearest

end

/-! ### Rounding a quotient -/

section

variable {d : ℕ} (hd : 0 < d)

include hd

/-- A quotient that is rounded by **half a unit** is rounded to an even one. -/
theorem even_roundDiv {n : ℕ}
    (h : 2 * n = 2 * (roundDiv n d * d) + d ∨ 2 * n + d = 2 * (roundDiv n d * d)) :
    roundDiv n d % 2 = 0 := by
  refine roundDiv_even_of_tie ?_
  have hsplit := Nat.div_add_mod n d
  have hmod := Nat.mod_lt n hd
  rcases roundDiv_eq_or n d with hround | hround
  · rw [hround, Nat.mul_comm (n / d)] at h
    omega
  · rw [hround, Nat.add_mul, Nat.one_mul, Nat.mul_comm (n / d)] at h
    omega

/-- The rounded quotient is **nearest** to the exact one. -/
theorem isNearest_roundDiv (n : ℕ) : IsNearest ((n : ℚ) / d) (roundDiv n d) := by
  have hpos : (0 : ℚ) < d := by exact_mod_cast hd
  have hdist : |((roundDiv n d : ℤ) : ℚ) - n / d| = |(roundDiv n d : ℚ) * d - n| / d := by
    rw [Int.cast_natCast, sub_div' hpos.ne', abs_div, abs_of_pos hpos]
  have habove : 2 * ((roundDiv n d : ℚ) * d) ≤ 2 * n + d := by exact_mod_cast roundDiv_le n d
  have hbelow : 2 * (n : ℚ) ≤ 2 * ((roundDiv n d : ℚ) * d) + d := by
    exact_mod_cast le_roundDiv n hd
  rw [isNearest_iff, hdist, div_le_iff₀ hpos, div_eq_iff hpos.ne', Int.even_coe_nat, Nat.even_iff]
  refine ⟨abs_le.mpr ⟨by linarith, by linarith⟩, fun htie => even_roundDiv hd ?_⟩
  rcases abs_cases ((roundDiv n d : ℚ) * d - n) with ⟨habs, -⟩ | ⟨habs, -⟩
  · have hup : 2 * (n : ℚ) + d = 2 * ((roundDiv n d : ℚ) * d) := by linarith
    exact .inr (by exact_mod_cast hup)
  · have hdown : 2 * (n : ℚ) = 2 * ((roundDiv n d : ℚ) * d) + d := by linarith
    exact .inl (by exact_mod_cast hdown)

end

end LoxLang
