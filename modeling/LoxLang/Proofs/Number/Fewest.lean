import LoxLang.Proofs.Number.Nearest
import LoxLang.Proofs.Number.Texts

/-!
# The decimal with the fewest digits

A decimal reads back as the magnitude that its value **rounds to** (`Decimal.readsBack_iff`), so no
decimal reads back as two of them (`Decimal.readsBack_unique`).

The shortest text of a double is the text of a decimal that reads back as it. The search for this
decimal ends, at the latest where the grid is finer than the doubles are
(`Decimal.readsBack_fewestDigits`), and no coarser grid has a decimal that reads back
(`Decimal.le_exponent_fewestDigits`).
-/

namespace LoxLang

namespace Decimal

open Binary64

/-! ### Reading back -/

/-- A power of ten as a quotient of the two that stand for it. -/
theorem powerOfTen_eq (e : ℤ) :
    ((powerOfTen e).1 : ℚ) = 10 ^ e * ((powerOfTen e).2 : ℚ) ∧ 0 < (powerOfTen e).2 := by
  refine ⟨?_, Nat.pow_pos (by decide)⟩
  have hsplit : (e.toNat : ℤ) = e + (-e).toNat := by omega
  calc ((powerOfTen e).1 : ℚ) = 10 ^ (e.toNat : ℤ) := by
        rw [zpow_natCast]
        exact_mod_cast rfl
    _ = 10 ^ e * 10 ^ ((-e).toNat : ℤ) := by rw [hsplit, zpow_add₀ (by norm_num)]
    _ = 10 ^ e * ((powerOfTen e).2 : ℚ) := by
        rw [zpow_natCast]
        exact_mod_cast rfl

theorem value_eq_div (x : Decimal) : x.value =
    ((x.coefficient * (powerOfTen x.exponent).1 : ℕ) : ℚ) / (powerOfTen x.exponent).2 := by
  obtain ⟨hpower, hpos⟩ := powerOfTen_eq x.exponent
  have hne : ((powerOfTen x.exponent).2 : ℚ) ≠ 0 := Nat.cast_ne_zero.mpr hpos.ne'
  rw [value, eq_div_iff hne, Nat.cast_mul, hpower, mul_assoc]

/-- A decimal **reads back** as the magnitude that its value rounds to. -/
theorem readsBack_iff {b : Nat} {x : Decimal} : readsBack b x ↔ RoundsTo x.value b := by
  rw [value_eq_div, roundsTo_div_iff (powerOfTen_eq x.exponent).2, ← Nat.mul_assoc,
    ← Nat.mul_assoc, readsBack]
  dsimp only
  split
  · next heven => simp [heven]
  · next hodd =>
    rw [decide_eq_true_iff]
    exact ⟨fun h => ⟨h.1.le, h.2.le, fun _ => h⟩, fun h => h.2.2 hodd⟩

/-- No decimal value reads back as **two** magnitudes. -/
theorem readsBack_unique {b c : Nat} {x y : Decimal} (h : readsBack b x) (h' : readsBack c y)
    (hvalue : x.value = y.value) : b = c :=
  (readsBack_iff.mp h).unique (hvalue ▸ readsBack_iff.mp h')

/-! ### The search for the fewest digits -/

theorem of_onGrid?_eq_some {b : Nat} {e : ℤ} {x : Decimal} (h : onGrid? b e = some x) :
    readsBack b x ∧ x.exponent = e := by
  have hpick : ∀ near far : ℕ, (if readsBack b ⟨near, e⟩ then some ⟨near, e⟩
      else if readsBack b ⟨far, e⟩ then some ⟨far, e⟩ else none) = some x →
        readsBack b x ∧ x.exponent = e := by
    intro near far h
    split_ifs at h with hnear hfar
    · exact Option.some.inj h ▸ ⟨hnear, rfl⟩
    · exact Option.some.inj h ▸ ⟨hfar, rfl⟩
  exact hpick _ _ h

/-- Points of a grid in front of what a magnitude stands for. -/
theorem value_le_iff (b c : Nat) (e : ℤ) :
    (⟨c, e⟩ : Decimal).value ≤ quanta b / one ↔
      c * (one * (powerOfTen e).1) ≤ quanta b * (powerOfTen e).2 := by
  have hone : (0 : ℚ) < one := Nat.cast_pos.mpr pos_one
  have hpos : (0 : ℚ) < (powerOfTen e).2 := Nat.cast_pos.mpr (powerOfTen_eq e).2
  rw [value_eq_div, div_le_div_iff₀ hpos hone, Nat.mul_left_comm, Nat.mul_comm one]
  exact_mod_cast Iff.rfl

/-- A grid with a point that reads back is **hit**: the points next to the magnitude read back, if
any does on their side. -/
theorem onGrid?_ne_none_of_readsBack {b c : Nat} {e : ℤ} (h : readsBack b ⟨c, e⟩) :
    onGrid? b e ≠ none := by
  have hpos : 0 < one * (powerOfTen e).1 := Nat.mul_pos pos_one (Nat.pow_pos (by decide))
  have hmono : ∀ {c d : ℕ}, c ≤ d → (⟨c, e⟩ : Decimal).value ≤ (⟨d, e⟩ : Decimal).value :=
    fun hle => mul_le_mul_of_nonneg_right (Nat.cast_le.mpr hle) (zpow_nonneg (by norm_num) e)
  have hround := readsBack_iff.mp h
  rw [onGrid?]
  dsimp only
  have hnear := roundDiv_eq_or (quanta b * (powerOfTen e).2) (one * (powerOfTen e).1)
  generalize hbelow : quanta b * (powerOfTen e).2 / (one * (powerOfTen e).1) = below at hnear ⊢
  generalize roundDiv (quanta b * (powerOfTen e).2) (one * (powerOfTen e).1) = near at hnear ⊢
  have hnext : readsBack b ⟨below, e⟩ ∨ readsBack b ⟨below + 1, e⟩ := by
    -- The next point on the side of `c` lies between `c` and the magnitude.
    rcases Nat.lt_or_ge below c with hlt | hge
    · have habove : quanta b / one ≤ (⟨below + 1, e⟩ : Decimal).value := by
        refine le_of_not_ge fun hle => ?_
        have hmul := (value_le_iff b (below + 1) e).mp hle
        rw [← Nat.le_div_iff_mul_le hpos, hbelow] at hmul
        exact Nat.not_succ_le_self below hmul
      exact .inr (readsBack_iff.mpr ((roundsTo_quanta b).between hround habove (hmono hlt)))
    · have hbelow : (⟨below, e⟩ : Decimal).value ≤ quanta b / one := by
        rw [value_le_iff, ← hbelow]
        exact Nat.div_mul_le_self _ _
      exact .inl (readsBack_iff.mpr (hround.between (roundsTo_quanta b) (hmono hge) hbelow))
  have hpick : ∀ x y : Decimal, readsBack b x ∨ readsBack b y →
      (if readsBack b x then some x else if readsBack b y then some y else none) ≠ none := by
    intro x y h
    split_ifs with hx hy
    · exact Option.some_ne_none x
    · exact Option.some_ne_none y
    · exact absurd h (not_or.mpr ⟨hx, hy⟩)
  rcases hnear with rfl | rfl
  · rw [if_pos rfl]
    exact hpick _ _ hnext
  · rw [if_neg (Nat.succ_ne_self below)]
    exact hpick _ _ hnext.symm

/-- The search answers the **first** grid that is hit. -/
theorem coarsest_spec {b : Nat} : ∀ {steps : Nat} {e : ℤ},
    (∃ k < steps, onGrid? b (e - k) ≠ none) →
      ∃ k : ℕ, onGrid? b (e - k) = some (coarsest b steps e) ∧ ∀ j < k, onGrid? b (e - j) = none
  | 0, _, ⟨_, hk, _⟩ => absurd hk (Nat.not_lt_zero _)
  | steps + 1, e, ⟨k, hk, hhit⟩ => by
    rw [coarsest]
    split
    · next x hx => exact ⟨0, by simpa using hx, nofun⟩
    · next hnone =>
      -- The hit is on one of the other grids.
      obtain ⟨k, rfl⟩ : ∃ k', k = k' + 1 := by
        refine ⟨k - 1, (Nat.sub_add_cancel (Nat.one_le_iff_ne_zero.mpr ?_)).symm⟩
        rintro rfl
        exact hhit (by simpa using hnone)
      have hstep : ∀ k : ℕ, e - 1 - (k : ℤ) = e - (k + 1 : ℕ) := by omega
      obtain ⟨k, hsome, hall⟩ := coarsest_spec ⟨k, Nat.lt_of_succ_lt_succ hk, (hstep k).symm ▸ hhit⟩
      refine ⟨k + 1, hstep k ▸ hsome, fun j hj => ?_⟩
      cases j with
      | zero => simpa using hnone
      | succ j => exact hstep j ▸ hall j (Nat.lt_of_succ_lt_succ hj)

/-- On a grid that is finer than the quantum, the nearest point **reads back**. -/
theorem onGrid?_ne_none {b k : Nat} (hb : 0 < b) (hfine : one < Nat.pow 10 k) :
    onGrid? b (-k : ℤ) ≠ none := by
  refine onGrid?_ne_none_of_readsBack (c := roundDiv (quanta b * 10 ^ k) one) ?_
  have hpower : powerOfTen (-k : ℤ) = (1, 10 ^ k) := by simp [powerOfTen]
  have hfine : one < 10 ^ k := hfine
  have hbelow : quanta (b - 1) + 1 ≤ quanta b := quanta_strictMono (Nat.sub_one_lt_of_lt hb)
  have habove : quanta b + 1 ≤ quanta (b + 1) := quanta_lt_succ b
  simp only [readsBack, hpower, Nat.mul_one]
  generalize hnear : roundDiv (quanta b * 10 ^ k) one = near
  have hle := roundDiv_le (quanta b * 10 ^ k) one
  have hge := le_roundDiv (quanta b * 10 ^ k) pos_one
  rw [hnear] at hle hge
  -- The nearest point is off by less than half a quantum.
  have hlow : (quanta (b - 1) + quanta b) * 10 ^ k < 2 * near * one := by
    have hgap : (quanta (b - 1) + quanta b + 1) * 10 ^ k ≤ 2 * quanta b * 10 ^ k :=
      Nat.mul_le_mul_right _ (by omega)
    rw [Nat.add_mul _ 1, Nat.one_mul] at hgap
    rw [Nat.mul_assoc] at hgap ⊢
    omega
  have hhigh : 2 * near * one < (quanta b + quanta (b + 1)) * 10 ^ k := by
    have hgap : (2 * quanta b + 1) * 10 ^ k ≤ (quanta b + quanta (b + 1)) * 10 ^ k :=
      Nat.mul_le_mul_right _ (by omega)
    rw [Nat.add_mul _ 1, Nat.one_mul, Nat.mul_assoc] at hgap
    rw [Nat.mul_assoc]
    omega
  split
  · exact decide_eq_true ⟨hlow.le, hhigh.le⟩
  · exact decide_eq_true ⟨hlow, hhigh⟩

/-- A quantum is more than `10 ^ -324`, and the search goes on that far. -/
theorem exists_one_lt : ∃ k < 345, one < Nat.pow 10 k := ⟨324, by decide, by decide +kernel⟩

/-- The decimal with the fewest digits is on the first grid that is hit. -/
theorem fewestDigits_spec {b : Nat} (hb : 0 < b) :
    ∃ k : ℕ, onGrid? b ((digits (quanta b / one)).length - k) = some (fewestDigits b) ∧
      ∀ j < k, onGrid? b ((digits (quanta b / one)).length - j) = none := by
  obtain ⟨k, hk, hfine⟩ := exists_one_lt
  rw [fewestDigits]
  refine coarsest_spec ⟨(digits (quanta b / one)).length + k, by omega, ?_⟩
  have hgrid : ((digits (quanta b / one)).length : ℤ) -
      ((digits (quanta b / one)).length + k : ℕ) = -k := by omega
  rw [hgrid]
  exact onGrid?_ne_none hb hfine

/-- The decimal with the fewest digits **reads back**. -/
theorem readsBack_fewestDigits {b : Nat} (hb : 0 < b) : readsBack b (fewestDigits b) := by
  obtain ⟨k, hsome, -⟩ := fewestDigits_spec hb
  exact (of_onGrid?_eq_some hsome).1

/-- It is on the **coarsest** grid that has a decimal which reads back. -/
theorem le_exponent_fewestDigits {b c : Nat} {e : ℤ} (hb : 0 < b)
    (he : e ≤ (digits (quanta b / one)).length) (h : readsBack b ⟨c, e⟩) :
    e ≤ (fewestDigits b).exponent := by
  obtain ⟨k, hsome, hnone⟩ := fewestDigits_spec hb
  rw [(of_onGrid?_eq_some hsome).2]
  by_contra hlt
  obtain ⟨j, hj⟩ := Int.eq_ofNat_of_zero_le (Int.sub_nonneg.mpr he)
  have hgrid : ((digits (quanta b / one)).length : ℤ) - j = e := by omega
  exact onGrid?_ne_none_of_readsBack h (hgrid ▸ hnone j (by omega))

end Decimal

end LoxLang
