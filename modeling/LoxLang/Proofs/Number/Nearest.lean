import LoxLang.Proofs.Number.Doubles
import LoxLang.Proofs.Number.Rounding

/-!
# Rounding to the nearest double

A rational rounds to a magnitude if it lies between the **midpoints** to the two neighbouring ones,
and the midpoints belong to the even one: `RoundsTo`. A rational rounds to one magnitude at most
(`RoundsTo.unique`), the rationals that round to it have no gaps (`RoundsTo.between`), and what a
magnitude stands for is one of them (`roundsTo_quanta`).

`nearest` finds the magnitude that a rational rounds to (`nearest_eq`).
-/

namespace LoxLang

namespace Binary64

/-- The rational **rounds to** the magnitude. -/
structure RoundsTo (q : ℚ) (b : ℕ) : Prop where
  le_low : ((quanta (b - 1) + quanta b : ℕ) : ℚ) ≤ 2 * q * one
  le_high : 2 * q * one ≤ ((quanta b + quanta (b + 1) : ℕ) : ℚ)
  lt_of_odd : b % 2 ≠ 0 → ((quanta (b - 1) + quanta b : ℕ) : ℚ) < 2 * q * one ∧
    2 * q * one < ((quanta b + quanta (b + 1) : ℕ) : ℚ)

namespace RoundsTo

variable {p q r : ℚ} {b c : ℕ}

/-- What lies **between** two rationals that round to a magnitude rounds to it as well. -/
theorem between (hp : RoundsTo p b) (hr : RoundsTo r b) (hpq : p ≤ q) (hqr : q ≤ r) :
    RoundsTo q b := by
  have hone : (0 : ℚ) ≤ one := Nat.cast_nonneg _
  have hfirst : 2 * p * one ≤ 2 * q * one :=
    mul_le_mul_of_nonneg_right (mul_le_mul_of_nonneg_left hpq zero_le_two) hone
  have hsecond : 2 * q * one ≤ 2 * r * one :=
    mul_le_mul_of_nonneg_right (mul_le_mul_of_nonneg_left hqr zero_le_two) hone
  exact ⟨hp.le_low.trans hfirst, hsecond.trans hr.le_high, fun hodd =>
    ⟨(hp.lt_of_odd hodd).1.trans_le hfirst, hsecond.trans_lt (hr.lt_of_odd hodd).2⟩⟩

/-- A rational rounds to **one** magnitude: of two neighbours, the even one has the midpoint. -/
theorem unique (hb : RoundsTo q b) (hc : RoundsTo q c) : b = c := by
  have hle : ∀ {b c : ℕ}, RoundsTo q b → RoundsTo q c → b ≤ c := by
    intro c b hc hb
    by_contra hlt
    have hmid : quanta (c - 1) + quanta c ≤ quanta b + quanta (b + 1) := by
      exact_mod_cast hc.le_low.trans hb.le_high
    have hfirst : quanta b ≤ quanta (c - 1) := quanta_strictMono.monotone (by omega)
    have hsecond : quanta (b + 1) ≤ quanta c := quanta_strictMono.monotone (by omega)
    obtain rfl : c = b + 1 := (quanta_strictMono.injective (by omega)).symm
    rcases Nat.mod_two_eq_zero_or_one b with heven | hodd
    · have hlow := (hc.lt_of_odd (by omega)).1
      rw [Nat.add_sub_cancel] at hlow
      exact absurd hb.le_high (not_le.mpr hlow)
    · have hlow := hc.le_low
      rw [Nat.add_sub_cancel] at hlow
      exact absurd hlow (not_le.mpr (hb.lt_of_odd (by omega)).2)
  exact Nat.le_antisymm (hle hb hc) (hle hc hb)

end RoundsTo

/-- The **midpoints** over the denominator of a quotient. -/
theorem roundsTo_div_iff {n d b : ℕ} (hd : 0 < d) :
    RoundsTo (n / d) b ↔
      (quanta (b - 1) + quanta b) * d ≤ 2 * (n * one) ∧
        2 * (n * one) ≤ (quanta b + quanta (b + 1)) * d ∧
        (b % 2 ≠ 0 → (quanta (b - 1) + quanta b) * d < 2 * (n * one) ∧
          2 * (n * one) < (quanta b + quanta (b + 1)) * d) := by
  have hpos : (0 : ℚ) < d := Nat.cast_pos.mpr hd
  have hvalue : 2 * ((n : ℚ) / d) * one = ((2 * (n * one) : ℕ) : ℚ) / d := by
    push_cast
    ring
  have hlow : ∀ m : ℕ, (m : ℚ) ≤ 2 * ((n : ℚ) / d) * one ↔ m * d ≤ 2 * (n * one) := by
    intro m
    rw [hvalue, le_div_iff₀ hpos]
    exact_mod_cast Iff.rfl
  have hhigh : ∀ m : ℕ, 2 * ((n : ℚ) / d) * one ≤ (m : ℚ) ↔ 2 * (n * one) ≤ m * d := by
    intro m
    rw [hvalue, div_le_iff₀ hpos]
    exact_mod_cast Iff.rfl
  constructor
  · rintro ⟨hle, hge, hodd⟩
    rw [lt_iff_lt_of_le_iff_le (hhigh _), lt_iff_lt_of_le_iff_le (hlow _)] at hodd
    exact ⟨(hlow _).mp hle, (hhigh _).mp hge, hodd⟩
  · rintro ⟨hle, hge, hodd⟩
    rw [← lt_iff_lt_of_le_iff_le (hhigh _), ← lt_iff_lt_of_le_iff_le (hlow _)] at hodd
    exact ⟨(hlow _).mpr hle, (hhigh _).mpr hge, hodd⟩

/-- What a magnitude **stands for** rounds to it. -/
theorem roundsTo_quanta (b : ℕ) : RoundsTo (quanta b / one) b := by
  have habove := quanta_lt_succ b
  have hbelow : quanta (b - 1) ≤ quanta b := quanta_strictMono.monotone (Nat.sub_le b 1)
  refine (roundsTo_div_iff pos_one).mpr ?_
  have hdouble : 2 * (quanta b * one) = (quanta b + quanta b) * one := by
    rw [← Nat.two_mul, Nat.mul_assoc]
  rw [hdouble]
  refine ⟨Nat.mul_le_mul_right _ (by omega), Nat.mul_le_mul_right _ (by omega), fun hodd => ?_⟩
  have hlt : quanta (b - 1) < quanta b := quanta_strictMono (by omega)
  exact ⟨Nat.mul_lt_mul_of_pos_right (by omega) pos_one,
    Nat.mul_lt_mul_of_pos_right (by omega) pos_one⟩

/-! ### Rounding within a binade -/

/-- The binade with `e` doublings, and the next one, are a grid: a significand and the quanta of its
magnitude, which are the significand **times** `2 ^ e`. -/
theorem quanta_add {e r : ℕ} (hr : r ≤ 2 * binade) (hnormal : e = 0 ∨ binade ≤ r) :
    quanta (e * binade + r) = r * 2 ^ e := by
  have hbinade : 0 < binade := by decide
  rcases Nat.lt_or_ge r binade with hlt | hge
  · obtain rfl : e = 0 := by omega
    rw [Nat.zero_mul, Nat.zero_add, quanta_of_lt (by omega), Nat.pow_zero, Nat.mul_one]
  · obtain ⟨m, rfl⟩ := Nat.exists_eq_add_of_le hge
    rw [← Nat.add_assoc, ← Nat.succ_mul]
    rcases Nat.lt_or_ge m binade with hlt | hle
    · exact quanta_eq e m hlt
    · -- The significand is carried into the exponent.
      obtain rfl : m = binade := by omega
      rw [← Nat.succ_mul]
      have hcarry := quanta_eq (e + 1) 0 hbinade
      rw [Nat.add_zero, Nat.add_zero, Nat.pow_succ'] at hcarry
      rw [hcarry]
      ring

theorem le_quanta_add {e r : ℕ} (hr : r ≤ 2 * binade) (hnormal : e = 0 ∨ binade ≤ r) :
    (r + 1) * 2 ^ e ≤ quanta (e * binade + r + 1) := by
  rcases Nat.lt_or_ge r (2 * binade) with hlt | hge
  · rw [Nat.add_assoc, quanta_add (by omega) (by omega)]
  · obtain rfl : r = 2 * binade := by omega
    have hcarry : e * binade + 2 * binade + 1 = (e + 1 + 1) * binade + 1 := by ring
    rw [hcarry, quanta_eq (e + 1) 1 (by decide), Nat.pow_succ', ← Nat.mul_assoc]
    exact Nat.mul_le_mul_right _ (by omega)

section

variable {n d e : ℕ} (hd : 0 < d) (hbelow : n * one < 2 * binade * (d * 2 ^ e))
  (habove : e = 0 ∨ binade * (d * 2 ^ e) ≤ n * one)

include hd hbelow habove

/-- What lies in the binade with `e` doublings is rounded to a **significand** of it, or to the
next power of two. -/
theorem roundDiv_mem_binade :
    roundDiv (n * one) (d * 2 ^ e) ≤ 2 * binade ∧
      (e = 0 ∨ binade ≤ roundDiv (n * one) (d * 2 ^ e)) := by
  have hpos : 0 < d * 2 ^ e := Nat.mul_pos hd (Nat.two_pow_pos e)
  have hle := roundDiv_le (n * one) (d * 2 ^ e)
  have hge := le_roundDiv (n * one) hpos
  generalize roundDiv (n * one) (d * 2 ^ e) = r at hle hge ⊢
  constructor
  · by_contra hlt
    have hmul := Nat.mul_le_mul_right (d * 2 ^ e) (not_le.mp hlt)
    rw [Nat.succ_mul] at hmul
    omega
  · refine habove.imp_right fun habove => ?_
    by_contra hlt
    have hmul := Nat.mul_le_mul_right (d * 2 ^ e) (not_le.mp hlt)
    rw [Nat.succ_mul] at hmul
    omega

/-- The magnitude with the rounded significand is the one that is **rounded to**. -/
theorem roundsTo_roundDiv :
    RoundsTo (n / d) (e * binade + roundDiv (n * one) (d * 2 ^ e)) := by
  obtain ⟨hr, hnormal⟩ := roundDiv_mem_binade hd hbelow habove
  have hpos : 0 < d * 2 ^ e := Nat.mul_pos hd (Nat.two_pow_pos e)
  have hle := roundDiv_le (n * one) (d * 2 ^ e)
  have hge := le_roundDiv (n * one) hpos
  have htie := even_roundDiv hpos (n := n * one)
  rw [roundsTo_div_iff hd]
  generalize roundDiv (n * one) (d * 2 ^ e) = r at *
  generalize n * one = N at *
  have hparity : (e * binade + r) % 2 = r % 2 := by
    have heven : e * binade = 2 * (e * (binade / 2)) := by
      rw [Nat.mul_left_comm]
      rfl
    omega
  have hscale : ∀ m, m * 2 ^ e * d = m * (d * 2 ^ e) := fun m => by
    rw [Nat.mul_assoc, Nat.mul_comm d]
  have hquanta : quanta (e * binade + r) * d = r * (d * 2 ^ e) := by
    rw [quanta_add hr hnormal, hscale]
  have hnext : r * (d * 2 ^ e) + d * 2 ^ e ≤ quanta (e * binade + r + 1) * d := by
    rw [← Nat.succ_mul, ← hscale]
    exact Nat.mul_le_mul_right d (le_quanta_add hr hnormal)
  rw [hparity, Nat.add_mul, Nat.add_mul, hquanta]
  rcases Nat.lt_or_ge N (r * (d * 2 ^ e)) with hup | hdown
  · -- It is rounded up, so the magnitude below it is on the same grid.
    have hne : r ≠ 0 := by
      rintro rfl
      omega
    have hnormal' : e = 0 ∨ binade ≤ r - 1 := habove.imp_right fun habove =>
      Nat.le_sub_one_of_lt (lt_of_mul_lt_mul_right (habove.trans_lt hup) (Nat.zero_le _))
    have hpred : (r - 1) * (d * 2 ^ e) + d * 2 ^ e = r * (d * 2 ^ e) := by
      rw [← Nat.succ_mul, Nat.succ_eq_add_one, Nat.sub_add_cancel (Nat.pos_of_ne_zero hne)]
    have hbefore : quanta (e * binade + r - 1) * d = (r - 1) * (d * 2 ^ e) := by
      rw [Nat.add_sub_assoc (Nat.pos_of_ne_zero hne), quanta_add (by omega) hnormal', hscale]
    omega
  · -- It is not rounded up, so it is nearer to its magnitude than the midpoint is.
    have hmono : quanta (e * binade + r - 1) * d ≤ r * (d * 2 ^ e) := by
      rw [← hquanta]
      exact Nat.mul_le_mul_right d (quanta_strictMono.monotone (Nat.sub_le _ 1))
    have hstrict : r % 2 ≠ 0 → quanta (e * binade + r - 1) * d < r * (d * 2 ^ e) := by
      intro hodd
      rw [← hquanta]
      exact Nat.mul_lt_mul_of_pos_right (quanta_strictMono (by omega)) hd
    omega

end

/-- **`nearest` rounds.** -/
theorem nearest_eq {n d b : ℕ} (hd : 0 < d) (hb : b < infinite) (h : RoundsTo (n / d) b) :
    nearest n d = b := by
  have hbinade : ∀ e, 2 ^ (52 + e) = binade * 2 ^ e := fun e => Nat.pow_add 2 52 e
  rw [nearest]
  generalize he : (n * one / d).log2 - 52 = e
  have hbelow : n * one < 2 * binade * (d * 2 ^ e) := by
    have hlog : n * one / d < 2 ^ (52 + e + 1) :=
      Nat.lt_log2_self.trans_le (Nat.pow_le_pow_right (by decide) (by omega))
    rw [Nat.div_lt_iff_lt_mul hd, Nat.pow_succ', hbinade] at hlog
    calc n * one < 2 * (binade * 2 ^ e) * d := hlog
      _ = 2 * binade * (d * 2 ^ e) := by ring
  have habove : e = 0 ∨ binade * (d * 2 ^ e) ≤ n * one := by
    refine or_iff_not_imp_left.mpr fun hne => ?_
    have hzero : n * one / d ≠ 0 := by
      intro hzero
      rw [hzero] at he
      exact hne he.symm
    have hlog := Nat.log2_self_le hzero
    rw [show (n * one / d).log2 = 52 + e by omega, hbinade, Nat.le_div_iff_mul_le hd] at hlog
    calc binade * (d * 2 ^ e) = binade * 2 ^ e * d := by ring
      _ ≤ n * one := hlog
  have hround := roundsTo_roundDiv hd hbelow habove
  have hpow : Nat.pow 2 e = 2 ^ e := rfl
  rw [hpow, hround.unique h]
  exact Nat.min_eq_right hb.le

/-- A finite double without a sign is what a rational that rounds to it is read as. -/
theorem ofRatio_eq {n d : ℕ} {x : Float} (hd : 0 < d) (hsigned : signed x = false)
    (hfinite : finite x) (h : RoundsTo (n / d) (magnitude x)) : ofRatio n d = x := by
  have hlt : magnitude x < infinite := of_decide_eq_true hfinite
  refine eq_of_magnitude_eq ((signed_ofRatio n d).trans hsigned.symm) ?_
  rw [ofRatio, nearest_eq hd hlt h, magnitude, toBits_ofMagnitude hlt.le]
  exact Nat.mod_eq_of_lt (Nat.mod_lt _ (by decide))

end Binary64

end LoxLang
