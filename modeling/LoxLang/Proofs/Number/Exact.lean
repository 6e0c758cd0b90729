import LoxLang.Proofs.Number.Doubles

/-!
# The exact values of doubles

`value` is the rational that a finite double stands for, by its sign, its mantissa and its exponent.
It is the quanta of the magnitude with the sign in front (`value_eq`), and doubles are ordered as
their values are (`value_le_of_le`).
-/

namespace LoxLang

namespace Binary64

open Float.Model Float.Model.UnpackedFloat

/-- The **exact value** of a double. What is not finite has none, and counts as zero here. -/
def value (x : Float) : ℚ :=
  match x.toModel.unpack with
  | .finite sign mantissa exponent _ => sign.apply mantissa * 2 ^ exponent
  | .zero _ | .infinity _ | .notANumber => 0

/-- The sign of a double. -/
def signOf (x : Float) : Sign := if signed x then .negative else .positive

/-! ### Fields -/

section

variable (x : Float)

theorem toNat_unpackExponent :
    (@unpackExponent Format.binary64 x.toBits.toBitVec).toNat = magnitude x / binade := by
  rw [unpackExponent_def, BitVec.extractLsb'_toNat, Nat.shiftRight_eq_div_pow,
    UInt64.toNat_toBitVec, magnitude, signBit, binade]
  norm_num
  omega

theorem toNat_unpackMantissa :
    (@unpackMantissa Format.binary64 x.toBits.toBitVec).toNat = magnitude x % binade := by
  rw [unpackMantissa_def, BitVec.extractLsb'_toNat, Nat.shiftRight_zero, UInt64.toNat_toBitVec,
    magnitude, signBit, binade]
  norm_num

theorem ofBitVec_unpackSign :
    Sign.ofBitVec (@unpackSign Format.binary64 x.toBits.toBitVec) = signOf x := by
  have hbits := x.toBits.toNat_lt
  have hsign : (@unpackSign Format.binary64 x.toBits.toBitVec).toNat =
      x.toBits.toNat / signBit := by
    rw [unpackSign_def, BitVec.extractLsb'_toNat, Nat.shiftRight_eq_div_pow,
      UInt64.toNat_toBitVec]
    exact Nat.mod_eq_of_lt (Nat.div_lt_of_lt_mul hbits)
  have hzero : @unpackSign Format.binary64 x.toBits.toBitVec = 0#1 ↔
      ¬ signBit ≤ x.toBits.toNat := by
    rw [← BitVec.toNat_inj, hsign, BitVec.toNat_ofNat, Nat.zero_mod,
      Nat.div_eq_zero_iff_lt (by decide), not_le]
  rw [Sign.ofBitVec, signOf, signed]
  by_cases hle : signBit ≤ x.toBits.toNat <;> simp [hzero, hle]

end

section

variable {x : Float}

theorem exponent_eq_zero_iff :
    @unpackExponent Format.binary64 x.toBits.toBitVec = 0#11 ↔ magnitude x < binade := by
  rw [← BitVec.toNat_inj, toNat_unpackExponent, BitVec.toNat_ofNat, Nat.zero_mod,
    Nat.div_eq_zero_iff_lt (by decide)]

theorem exponent_ne_of_finite (h : finite x) :
    @unpackExponent Format.binary64 x.toBits.toBitVec ≠ -1#11 := by
  have hlt : magnitude x / binade < 2047 :=
    Nat.div_lt_of_lt_mul (Nat.mul_comm binade 2047 ▸ of_decide_eq_true h)
  intro heq
  have hall := congrArg BitVec.toNat heq
  rw [toNat_unpackExponent] at hall
  exact absurd hall hlt.ne

/-- The significand of a magnitude in the binades is its mantissa behind a leading bit. -/
theorem significand_eq {b : ℕ} (h : binade ≤ b) : significand b = binade + b % binade := by
  have hsplit := Nat.div_add_mod b binade
  have hone : 1 ≤ b / binade := (Nat.le_div_iff_mul_le (by decide)).mpr (by rwa [Nat.one_mul])
  obtain ⟨k, hk⟩ : ∃ k, b / binade = k + 1 := ⟨b / binade - 1, by omega⟩
  rw [significand, scale, hk, Nat.add_sub_cancel]
  rw [hk, Nat.mul_add_one, Nat.mul_comm] at hsplit
  omega

/-- What a finite double of a sign and a magnitude is unpacked to: its mantissa is the
**significand** of the magnitude, and its exponent is the scale. -/
inductive Unpacks (s : Sign) (b : ℕ) : UnpackedFloat → Prop
  | zero : b = 0 → Unpacks s b (.zero s)
  | finite {m : ℕ} {e : ℤ} (h : 0 < m) : m = significand b → e = scale b - 1074 →
    Unpacks s b (.finite s m e h)

theorem unpacks (h : finite x) : Unpacks (signOf x) (magnitude x) x.toModel.unpack := by
  have hexponent := toNat_unpackExponent x
  have hmantissa := toNat_unpackMantissa x
  have hbias : ((Format.binary64.exponentBias : ℕ) : ℤ) +
      (Format.binary64.mantissaBitsWithoutImplicit : ℕ) = 1075 := rfl
  have hunpack : x.toModel.unpack = UnpackedFloat.unpack Format.binary64 x.toBits.toBitVec := rfl
  rw [hunpack, UnpackedFloat.unpack, if_neg (exponent_ne_of_finite h), ofBitVec_unpackSign]
  split
  · next hsubnormal =>
    have hlt := exponent_eq_zero_iff.mp hsubnormal
    have hscale : scale (magnitude x) = 0 := by rw [scale, Nat.div_eq_of_lt hlt]
    rw [Nat.mod_eq_of_lt hlt] at hmantissa
    split
    · next hzero => exact .zero (by rw [← hmantissa, hzero, BitVec.toNat_ofNat, Nat.zero_mod])
    · refine .finite _ ?_ ?_
      · rw [hmantissa, significand, hscale, Nat.zero_mul, Nat.sub_zero]
      · rw [hexponent, Nat.div_eq_of_lt hlt, hscale, hbias]
        rfl
  · next hnormal =>
    have hle := Nat.le_of_not_lt (exponent_eq_zero_iff.not.mp hnormal)
    have hone : 1 ≤ magnitude x / binade :=
      (Nat.le_div_iff_mul_le (by decide)).mpr (by rwa [Nat.one_mul])
    refine .finite _ ?_ ?_
    · rw [BitVec.toNat_append, ← Nat.shiftLeft_add_eq_or_of_lt (BitVec.isLt _), hmantissa,
        significand_eq hle]
      rfl
    · rw [hexponent, hbias, scale]
      omega

end

/-! ### Values -/

theorem quanta_zero : quanta 0 = 0 := by
  rw [quanta, significand, Nat.zero_sub, Nat.zero_mul]

theorem cast_pow_two (k : ℕ) : ((Nat.pow 2 k : ℕ) : ℚ) = 2 ^ k := Nat.cast_pow 2 k

theorem cast_one : ((one : ℕ) : ℚ) = 2 ^ 1074 := by
  delta one
  generalize 1074 = k
  exact cast_pow_two k

theorem apply_zero (s : Sign) : s.apply 0 = 0 := by cases s <;> rfl

/-- A sign in front of a product. -/
theorem cast_apply (s : Sign) (n : ℤ) : ((s.apply n : ℤ) : ℚ) = (s.apply 1 : ℤ) * n := by
  cases s <;> simp [Sign.apply]

/-- The value of a finite double is the **quanta** of its magnitude, with its sign. -/
theorem value_eq {x : Float} (h : finite x) :
    value x = ((signOf x).apply (quanta (magnitude x)) : ℤ) / one := by
  have hunpacks := unpacks h
  rw [value]
  generalize x.toModel.unpack = u at hunpacks ⊢
  cases hunpacks with
  | zero hzero => rw [hzero, quanta_zero, Nat.cast_zero, apply_zero, Int.cast_zero, zero_div]
  | finite _ hsignificand hscale =>
    dsimp only
    rw [hsignificand, hscale, quanta, cast_apply, cast_apply _ (significand _ * _ : ℕ),
      Int.cast_natCast, Int.cast_natCast, Nat.cast_mul, cast_pow_two, cast_one,
      zpow_sub₀ two_ne_zero, zpow_natCast, zpow_ofNat, ← mul_assoc, mul_div_assoc]

theorem value_of_not_signed {x : Float} (hsigned : signed x = false) (hfinite : finite x) :
    value x = quanta (magnitude x) / one := by
  have hsign : signOf x = .positive := by rw [signOf, hsigned]; rfl
  rw [value_eq hfinite, hsign]
  rfl

/-- A double is **whole** if its exact value is. -/
theorem integral_iff {x : Float} (hfinite : finite x) : integral x ↔ ∃ n : ℤ, value x = n := by
  have hone : (one : ℚ) ≠ 0 := Nat.cast_ne_zero.mpr pos_one.ne'
  have hdvd : integral x ↔ (one : ℤ) ∣ (signOf x).apply (quanta (magnitude x)) := by
    rw [integral, hfinite, Bool.true_and, beq_iff_eq, ← Nat.dvd_iff_mod_eq_zero]
    cases signOf x with
    | positive => exact Int.natCast_dvd_natCast.symm
    | negative => exact Int.natCast_dvd_natCast.symm.trans (dvd_neg).symm
  rw [hdvd, value_eq hfinite]
  constructor
  · rintro ⟨n, hn⟩
    exact ⟨n, by rw [hn, Int.cast_mul, Int.cast_natCast, mul_div_cancel_left₀ _ hone]⟩
  · rintro ⟨n, hn⟩
    rw [div_eq_iff hone] at hn
    exact ⟨n, by exact_mod_cast hn.trans (mul_comm _ _)⟩

/-! ### Order -/

/-- Magnitudes are ordered by their **scales**, and by their significands if these are the same. -/
theorem quanta_le_of_compare {b c : ℕ}
    (h : ((compare ((scale b : ℤ) - 1074) (scale c - 1074)).then
      (compare (significand b) (significand c))).isLE) : quanta b ≤ quanta c := by
  refine quanta_strictMono.monotone ?_
  rcases Ordering.isLE_then_iff_or.mp h with hlt | ⟨heq, hle⟩
  · have hscale := Int.compare_eq_lt.mp hlt
    by_contra hcb
    have hmono : scale c ≤ scale b :=
      Nat.sub_le_sub_right (Nat.div_le_div_right (not_le.mp hcb).le) 1
    omega
  · have hscale := Int.compare_eq_eq.mp heq
    have hsplit : ∀ b, b = significand b + scale b * binade := by
      intro b
      have hle : scale b * binade ≤ b :=
        (Nat.mul_le_mul_right _ (Nat.sub_le _ 1)).trans (Nat.div_mul_le_self b binade)
      rw [significand, Nat.sub_add_cancel hle]
    rw [hsplit b, hsplit c, show scale b = scale c by omega]
    exact Nat.add_le_add_right (Nat.isLE_compare.mp hle) _

/-- Unpacked doubles are ordered as the **quanta** with their signs are. -/
theorem Unpacks.apply_le {s t : Sign} {b c : ℕ} {u v : UnpackedFloat} (hu : Unpacks s b u)
    (hv : Unpacks t c v) (h : u.le v) : s.apply (quanta b) ≤ t.apply (quanta c) := by
  have hnonneg : ∀ n : ℕ, Sign.negative.apply n ≤ 0 ∧ 0 ≤ Sign.positive.apply n := by
    intro n
    simp only [Sign.apply]
    omega
  cases hu with
  | zero hzero =>
    rw [hzero, quanta_zero, Nat.cast_zero, apply_zero]
    cases hv with
    | zero hzero' => rw [hzero', quanta_zero, Nat.cast_zero, apply_zero]
    | finite =>
      cases t with
      | negative => exact absurd h Bool.false_ne_true
      | positive => exact (hnonneg _).2
  | finite _ hsignificand hscale =>
    cases hv with
    | zero hzero =>
      rw [hzero, quanta_zero, Nat.cast_zero, apply_zero]
      cases s with
      | negative => exact (hnonneg _).1
      | positive => exact absurd h Bool.false_ne_true
    | finite _ hsignificand' hscale' =>
      subst hsignificand hscale hsignificand' hscale'
      cases s with
      | negative =>
        cases t with
        | negative =>
          have hswap : (((compare ((scale b : ℤ) - 1074) (scale c - 1074)).then
            (compare (significand b) (significand c))).swap).isLE := h
          rw [Ordering.swap_then, Int.compare_swap, Nat.compare_swap] at hswap
          exact neg_le_neg (Int.ofNat_le.mpr (quanta_le_of_compare hswap))
        | positive => exact (hnonneg _).1.trans (hnonneg _).2
      | positive =>
        cases t with
        | negative => exact absurd h Bool.false_ne_true
        | positive => exact Int.ofNat_le.mpr (quanta_le_of_compare h)

/-- Finite doubles are **ordered** as their values are. -/
theorem value_le_of_le {x y : Float} (hx : finite x) (hy : finite y) (h : x ≤ y) :
    value x ≤ value y := by
  have hle : (x.toModel.unpack.le y.toModel.unpack) = true := decide_eq_true_iff.mp h
  rw [value_eq hx, value_eq hy]
  exact div_le_div_of_nonneg_right (Int.cast_le.mpr ((unpacks hx).apply_le (unpacks hy) hle))
    (Nat.cast_nonneg _)

end Binary64

end LoxLang
