import LoxLang.Proofs.Number.Exact
import LoxLang.Proofs.Number.Fewest

/-!
# Numerals are read back

A double that has a fraction, and is not too small, has a text with digits on both sides of a point.
Its decimal is less than `10 ^ 16`, since doubles from `2 ^ 52` on are whole
(`Decimal.fewestDigits_lt`), and not less than `10 ^ -4`, since then that power of ten would read
back too, on a coarser grid (`Decimal.le_fewestDigits`). Reading these digits gives the double
(`Decimal.exists_numeral`), and so does reading all digits of a double that is whole
(`Decimal.ofDigits_whole`).
-/

namespace LoxLang

namespace Binary64

/-! ### Doubles with a fraction -/

/-- The first magnitude of this binade stands for `2 ^ 52`. -/
theorem exists_one_eq : ∃ s, s + 1 = 1075 ∧ one = Nat.pow 2 s := ⟨1074, rfl, by delta one; rfl⟩

/-- From `2 ^ 52` on, magnitudes stand for **whole** numbers. -/
theorem one_dvd_quanta {b : ℕ} (h : 1075 * binade ≤ b) : one ∣ quanta b := by
  obtain ⟨s, hs, hone⟩ := exists_one_eq
  have hscale : s ≤ scale b := by
    have hdiv := (Nat.le_div_iff_mul_le (by decide)).mpr h
    rw [scale]
    omega
  rw [hone]
  exact Dvd.dvd.mul_left (Nat.pow_dvd_pow 2 hscale) _

/-- A magnitude with a **fraction**, and the next one, stand for no more than `2 ^ 52`. -/
theorem quanta_succ_le {b : ℕ} (h : ¬ one ∣ quanta b) : quanta (b + 1) ≤ binade * one := by
  have hlt : b < 1075 * binade := lt_of_not_ge fun hle => h (one_dvd_quanta hle)
  obtain ⟨s, hs, hone⟩ := exists_one_eq
  calc quanta (b + 1) ≤ quanta (1075 * binade) := quanta_strictMono.monotone hlt
    _ = quanta ((s + 1) * binade + 0) := by rw [hs, Nat.add_zero]
    _ = (binade + 0) * 2 ^ s := quanta_eq s 0 (by decide)
    _ = binade * one := by rw [hone]; rfl

end Binary64

namespace Decimal

open Binary64

/-! ### The leading digit -/

/-- The power of ten of the **leading** digit. -/
def leading (x : Decimal) : ℤ := x.exponent + ((digits x.coefficient).length - 1 : ℕ)

section

variable {x : Decimal}

/-- A decimal is as large as its **leading** digit says. -/
theorem value_lt_leading : x.value < 10 ^ (x.leading + 1) := by
  have hlength := List.length_pos_iff.mpr (digits_ne_nil x.coefficient)
  have hlt : (x.coefficient : ℚ) < 10 ^ (digits x.coefficient).length := by
    exact_mod_cast (length_digits_le_iff hlength).mp le_rfl
  have hexponent : x.leading + 1 = (digits x.coefficient).length + x.exponent := by
    rw [leading]
    omega
  rw [hexponent, zpow_add₀ (by norm_num), zpow_natCast]
  exact mul_lt_mul_of_pos_right hlt (zpow_pos (by norm_num) _)

theorem leading_le_value (h : 0 < x.coefficient) : 10 ^ x.leading ≤ x.value := by
  have hle : (10 : ℚ) ^ ((digits x.coefficient).length - 1) ≤ x.coefficient := by
    have hnat : 10 ^ ((digits x.coefficient).length - 1) ≤ x.coefficient := by
      by_contra hlt
      rcases Nat.eq_zero_or_pos ((digits x.coefficient).length - 1) with hzero | hpos
      · rw [hzero] at hlt
        omega
      · have hshort := (length_digits_le_iff hpos).mpr (not_le.mp hlt)
        omega
    exact_mod_cast hnat
  rw [leading, add_comm, zpow_add₀ (by norm_num), zpow_natCast]
  exact mul_le_mul_of_nonneg_right hle (zpow_nonneg (by norm_num) _)

/-- From `10 ^ -4` up to `10 ^ 16`, a decimal is written **positionally**. -/
theorem text_numeral (hpos : 0 < x.coefficient) (hlow : 10 ^ (-4 : ℤ) ≤ x.value)
    (hhigh : x.value < 10 ^ (16 : ℤ)) :
    x.text numeral = positional (digits x.coefficient) x.leading := by
  have hfirst : (-4 : ℤ) < x.leading + 1 :=
    (zpow_lt_zpow_iff_right₀ (by norm_num)).mp (hlow.trans_lt value_lt_leading)
  have hsecond : x.leading < 16 :=
    (zpow_lt_zpow_iff_right₀ (by norm_num)).mp ((leading_le_value hpos).trans_lt hhigh)
  exact if_pos ⟨Int.lt_add_one_iff.mp hfirst, hsecond⟩

end

/-- What is written positionally has digits on **both sides** of the point. -/
theorem exists_positional {cs : List Char} (hne : cs ≠ []) (hcs : ∀ c ∈ cs, c.isDigit) (e : ℤ) :
    ∃ whole fraction : List Char, positional cs e = whole ++ '.' :: fraction ∧
      (whole ≠ [] ∧ ∀ c ∈ whole, c.isDigit) ∧ fraction ≠ [] ∧ ∀ c ∈ fraction, c.isDigit := by
  have hzeros : ∀ k, ∀ c ∈ List.replicate k '0', c.isDigit := fun _ _ => isDigit_of_mem_replicate
  rw [positional]
  split
  · exact ⟨['0'], _, rfl, ⟨List.cons_ne_nil _ _, isDigit_zero⟩,
      List.append_ne_nil_of_right_ne_nil _ hne, List.forall_mem_append.mpr ⟨hzeros _, hcs⟩⟩
  · refine ⟨_, _, rfl, ⟨List.append_ne_nil_of_left_ne_nil ?_ _, List.forall_mem_append.mpr
      ⟨fun c hc => hcs c (List.mem_of_mem_take hc), hzeros _⟩⟩, ?_⟩
    · simpa using hne
    · split
      · exact ⟨List.cons_ne_nil _ _, isDigit_zero⟩
      · next hdrop => exact ⟨fun h => hdrop (List.isEmpty_iff.mpr h),
          fun c hc => hcs c (List.mem_of_mem_drop hc)⟩

/-! ### The range of the fewest digits -/

section

variable {b : ℕ} (hb : 0 < b)

include hb

theorem roundsTo_fewestDigits : RoundsTo (fewestDigits b).value b :=
  readsBack_iff.mp (readsBack_fewestDigits hb)

theorem coefficient_fewestDigits_pos : 0 < (fewestDigits b).coefficient := by
  refine Nat.pos_of_ne_zero fun hzero => ?_
  have hlow := (roundsTo_fewestDigits hb).le_low
  rw [value, hzero, Nat.cast_zero, zero_mul, mul_zero, zero_mul] at hlow
  have hquanta : 0 < quanta b := (Nat.zero_le _).trans_lt (quanta_strictMono hb)
  have hnat : quanta (b - 1) + quanta b ≤ 0 := by exact_mod_cast hlow
  omega

/-- A double with a fraction has a decimal of **no more** than sixteen digits in front of the
point. -/
theorem fewestDigits_lt (hfraction : ¬ one ∣ quanta b) :
    (fewestDigits b).value < 10 ^ (16 : ℤ) := by
  have hone : (0 : ℚ) < one := Nat.cast_pos.mpr pos_one
  have hnext := quanta_succ_le hfraction
  have hquanta := quanta_lt_succ b
  have hnat : quanta b + quanta (b + 1) ≤ 2 * binade * one := by
    rw [Nat.mul_assoc]
    omega
  have hle : 2 * (fewestDigits b).value * one ≤ 2 * binade * one :=
    (roundsTo_fewestDigits hb).le_high.trans (by exact_mod_cast hnat)
  have hbound : (fewestDigits b).value ≤ binade :=
    le_of_mul_le_mul_left (le_of_mul_le_mul_right hle hone) two_pos
  refine hbound.trans_lt ?_
  rw [binade]
  norm_num

/-- A double that is not less than `10 ^ -4` has a decimal that is **not less** either. -/
theorem le_fewestDigits (hlow : 1 / 10000 ≤ (quanta b : ℚ) / one) :
    10 ^ (-4 : ℤ) ≤ (fewestDigits b).value := by
  have hpower : (⟨1, -4⟩ : Decimal).value = 10 ^ (-4 : ℤ) := by rw [value, Nat.cast_one, one_mul]
  by_contra hlt
  -- The power of ten would read back.
  have hround : RoundsTo ((⟨1, -4⟩ : Decimal).value) b := by
    rw [hpower]
    have hquotient : (10 : ℚ) ^ (-4 : ℤ) = 1 / 10000 := by norm_num
    exact (roundsTo_fewestDigits hb).between (roundsTo_quanta b) (not_le.mp hlt).le
      (hquotient ▸ hlow)
  have hexponent := le_exponent_fewestDigits hb (by omega) (readsBack_iff.mpr hround)
  refine hlt ?_
  rw [value, ← one_mul ((10 : ℚ) ^ (-4 : ℤ))]
  exact mul_le_mul (by exact_mod_cast coefficient_fewestDigits_pos hb)
    (zpow_le_zpow_right₀ (by norm_num) hexponent) (zpow_nonneg (by norm_num) _)
    (Nat.cast_nonneg _)

end

/-! ### Reading numerals -/

section

variable {x : Float} (hsigned : signed x = false) (hfinite : finite x)

include hsigned hfinite

/-- Digits with a point that say a value which rounds to a double are **read** as the double. -/
theorem ofDigits_eq {whole fraction : List Char} (hwhole : ∀ c ∈ whole, c.isDigit)
    (hfraction : ∀ c ∈ fraction, c.isDigit)
    (h : RoundsTo (readText (whole ++ '.' :: fraction)) (magnitude x)) :
    ofDigits whole fraction = x := by
  have hpower : ((Nat.pow 10 fraction.length : ℕ) : ℚ) = 10 ^ fraction.length := by
    exact_mod_cast rfl
  rw [readText_decimal hwhole hfraction, zpow_neg, zpow_natCast, ← div_eq_mul_inv, ← hpower] at h
  exact ofRatio_eq (Nat.pow_pos (by decide)) hsigned hfinite h

/-- All digits of a double that is **whole** are read as the double. -/
theorem ofDigits_whole (hwhole : integral x) :
    ofDigits (digits (quanta (magnitude x) / one)) [] = x := by
  have hdvd : one ∣ quanta (magnitude x) := Nat.dvd_of_mod_eq_zero
    (eq_of_beq (Bool.and_eq_true_iff.mp hwhole).2)
  have hread : ofDigits (digits (quanta (magnitude x) / one)) [] =
      ofRatio (quanta (magnitude x) / one) 1 := by
    rw [ofDigits, List.append_nil, digitsValue_digits]
    rfl
  rw [hread]
  refine ofRatio_eq Nat.one_pos hsigned hfinite ?_
  rw [Nat.cast_div hdvd (Nat.cast_ne_zero.mpr pos_one.ne'), Nat.cast_one, div_one]
  exact roundsTo_quanta _

/-- The shortest text of a double with a fraction that is not too small has digits on both sides of
a point, and they are **read** as the double. -/
theorem exists_numeral (hwhole : ¬ integral x) (hlow : 1 / 10000 ≤ Binary64.value x) :
    ∃ whole fraction : List Char,
      (fewestDigits (magnitude x)).text numeral = whole ++ '.' :: fraction ∧
        (whole ≠ [] ∧ ∀ c ∈ whole, c.isDigit) ∧ (fraction ≠ [] ∧ ∀ c ∈ fraction, c.isDigit) ∧
        ofDigits whole fraction = x := by
  have hfraction : ¬ one ∣ quanta (magnitude x) := by
    intro hdvd
    refine hwhole ?_
    rw [integral, hfinite, Nat.mod_eq_zero_of_dvd hdvd]
    rfl
  have hpos : 0 < magnitude x := by
    refine Nat.pos_of_ne_zero fun hzero => hfraction ?_
    rw [hzero, quanta_zero]
    exact Nat.dvd_zero one
  rw [value_of_not_signed hsigned hfinite] at hlow
  have htext := text_numeral (coefficient_fewestDigits_pos hpos) (le_fewestDigits hpos hlow)
    (fewestDigits_lt hpos hfraction)
  obtain ⟨whole, fraction, hsplit, hdigits, hdigits'⟩ := exists_positional
    (digits_ne_nil (fewestDigits (magnitude x)).coefficient) (fun _ => isDigit_of_mem_digits)
    (fewestDigits (magnitude x)).leading
  have hround := roundsTo_fewestDigits hpos
  rw [← readText_text numeral, htext, hsplit] at hround
  exact ⟨whole, fraction, htext.trans hsplit, hdigits, hdigits',
    ofDigits_eq hsigned hfinite hdigits.2 hdigits'.2 hround⟩

end

end Decimal

end LoxLang
