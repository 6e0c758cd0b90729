import Mathlib
import LoxLang.Number.Decimal

/-!
# Doubles and their magnitudes

A double is its sign and its magnitude (`Binary64.eq_of_magnitude_eq`), and a finite magnitude is
what it stands for: quanta grow **strictly** with the magnitude (`Binary64.quanta_strictMono`), also
where the binade changes. A number that is read from digits has no sign.
-/

namespace LoxLang

namespace Binary64

open Float.Model Float.Model.UnpackedFloat

/-! ### Quanta -/

theorem pos_one : 0 < one := by decide +kernel

/-- Magnitudes below the second binade are their own quanta. -/
theorem quanta_of_lt {b : Nat} (h : b < 2 * binade) : quanta b = b := by
  have hscale : scale b = 0 := by
    rw [scale]
    have hdiv : b / binade < 2 := Nat.div_lt_of_lt_mul (by rwa [Nat.mul_comm])
    omega
  simp [quanta, significand, hscale]

/-- Other magnitudes have a significand of 53 bits. -/
theorem quanta_eq (s m : Nat) (h : m < binade) :
    quanta ((s + 1) * binade + m) = (binade + m) * 2 ^ s := by
  have hdiv : ((s + 1) * binade + m) / binade = s + 1 := by
    rw [Nat.mul_comm, Nat.mul_add_div (by decide), Nat.div_eq_of_lt h]
  have hscale : scale ((s + 1) * binade + m) = s := by rw [scale, hdiv, Nat.add_sub_cancel]
  have hsignificand : significand ((s + 1) * binade + m) = binade + m := by
    rw [significand, hscale, Nat.add_mul, Nat.one_mul]
    omega
  rw [quanta, hsignificand, hscale]
  rfl

theorem quanta_lt_succ (b : Nat) : quanta b < quanta (b + 1) := by
  by_cases hsmall : b + 1 < 2 * binade
  · rw [quanta_of_lt hsmall, quanta_of_lt (by omega)]
    exact Nat.lt_succ_self b
  have hbinade : 0 < binade := by decide
  obtain ⟨s, m, hm, rfl⟩ : ∃ s m, m < binade ∧ b = (s + 1) * binade + m := by
    have hone : 1 ≤ b / binade := (Nat.le_div_iff_mul_le hbinade).mpr (by omega)
    refine ⟨b / binade - 1, b % binade, Nat.mod_lt _ hbinade, ?_⟩
    rw [Nat.sub_add_cancel hone, Nat.mul_comm]
    exact (Nat.div_add_mod b binade).symm
  rw [quanta_eq s m hm]
  by_cases hlast : m + 1 < binade
  · rw [Nat.add_assoc, quanta_eq s (m + 1) hlast]
    exact Nat.mul_lt_mul_of_pos_right (by omega) (Nat.two_pow_pos s)
  · -- The next magnitude is the first of the next binade.
    have hnext : (s + 1) * binade + m + 1 = (s + 1 + 1) * binade + 0 := by
      rw [Nat.add_mul (s + 1)]
      omega
    rw [hnext, quanta_eq (s + 1) 0 hbinade, Nat.pow_succ, Nat.mul_comm (2 ^ s), ← Nat.mul_assoc]
    exact Nat.mul_lt_mul_of_pos_right (by omega) (Nat.two_pow_pos s)

/-- A larger magnitude stands for **more**. -/
theorem quanta_strictMono : StrictMono quanta := strictMono_nat_of_lt_succ quanta_lt_succ

/-! ### Doubles -/

/-- A double is its **sign and its magnitude**. -/
theorem eq_of_magnitude_eq {x y : Float} (hsigned : signed x = signed y)
    (h : magnitude x = magnitude y) : x = y := by
  have hx := x.toBits.toNat_lt
  have hy := y.toBits.toNat_lt
  have hsign : signBit ≤ x.toBits.toNat ↔ signBit ≤ y.toBits.toNat :=
    decide_eq_decide.mp hsigned
  have hbits : 2 ^ 64 = 2 * signBit := by decide
  rw [magnitude, magnitude] at h
  refine Float.toBits_inj.mp (UInt64.toNat_inj.mp ?_)
  by_cases hle : signBit ≤ x.toBits.toNat
  · have hle' := hsign.mp hle
    rw [Nat.mod_eq_sub_mod hle, Nat.mod_eq_sub_mod hle', Nat.mod_eq_of_lt (by omega),
      Nat.mod_eq_of_lt (by omega)] at h
    omega
  · have hlt' : ¬ signBit ≤ y.toBits.toNat := fun hle' => hle (hsign.mpr hle')
    rwa [Nat.mod_eq_of_lt (by omega), Nat.mod_eq_of_lt (by omega)] at h

/-- Up to the infinities, no magnitude has the bits of a double that is **not a number**. -/
theorem not_isNaNBits {b : Nat} (h : b ≤ infinite) :
    ¬ @isNaNBits Format.binary64 (BitVec.ofNat 64 b) := by
  intro hnan
  obtain ⟨hexponent, hmantissa⟩ := of_decide_eq_true hnan
  have hinfinite : infinite = 2047 * 2 ^ 52 := by decide
  have hbits : (BitVec.ofNat 64 b).toNat = b := by
    rw [BitVec.toNat_ofNat]
    exact Nat.mod_eq_of_lt (by omega)
  have hfield : (BitVec.ofNat 64 b).toNat >>> 52 % 2 ^ 11 = 2047 := by
    have hall := congrArg BitVec.toNat hexponent
    rwa [unpackExponent_def, BitVec.extractLsb'_toNat] at hall
  rw [hbits, Nat.shiftRight_eq_div_pow] at hfield
  refine hmantissa (BitVec.eq_of_toNat_eq ?_)
  have hmantissa : (BitVec.ofNat 64 b).toNat >>> 0 % 2 ^ 52 = 0 := by
    rw [hbits, Nat.shiftRight_zero]
    omega
  rwa [unpackMantissa_def, BitVec.extractLsb'_toNat]

/-- A magnitude that is no more than an infinity **is** the bits of its double. -/
theorem toBits_ofMagnitude {b : Nat} (h : b ≤ infinite) :
    (ofMagnitude false b).toBits.toNat = b := by
  have hinfinite : infinite < 2 ^ 64 := by decide
  have hpack : (ofMagnitude false b).toBits.toBitVec = BitVec.ofNat 64 b := by
    have hunpacked := @pack_unpack Format.binary64 (BitVec.ofNat 64 b) (by decide)
    rwa [if_neg (not_isNaNBits h)] at hunpacked
  rw [← UInt64.toNat_toBitVec, hpack, BitVec.toNat_ofNat]
  exact Nat.mod_eq_of_lt (by omega)

theorem nearest_le (n d : Nat) : nearest n d ≤ infinite := Nat.min_le_left _ _

/-- What is read from digits has **no sign**. -/
theorem signed_ofRatio (n d : Nat) : signed (ofRatio n d) = false := by
  have hle := nearest_le n d
  have hinfinite : infinite < signBit := by decide
  refine decide_eq_false ?_
  rw [ofRatio, toBits_ofMagnitude hle]
  omega

end Binary64

end LoxLang
