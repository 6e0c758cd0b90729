/-!
# Rounding a quotient

`roundDiv n d` is the integer nearest to the rational `n / d`, a tie going to the even neighbour.
Every inexact step of the library rounds through it: reading a decimal into a double and printing
a double with a fixed number of places.
-/

namespace LoxLang

/-- The integer **nearest** to `n / d`. A tie goes to the even neighbour. -/
def roundDiv (n d : Nat) : Nat :=
  if 2 * (n % d) < d then n / d
  else if d < 2 * (n % d) then n / d + 1
  else n / d + n / d % 2

/-- Rounding moves by at most one from the quotient rounded down. -/
theorem roundDiv_eq_or (n d : Nat) : roundDiv n d = n / d ∨ roundDiv n d = n / d + 1 := by
  unfold roundDiv
  split
  · exact .inl rfl
  · split
    · exact .inr rfl
    · omega

private theorem roundDiv_mul (n d : Nat) :
    roundDiv n d * d = d * (n / d) ∨
      roundDiv n d * d = d * (n / d) + d ∧ d ≤ 2 * (n % d) := by
  unfold roundDiv
  split
  · exact .inl (Nat.mul_comm _ _)
  · next hlt =>
    have up : (n / d + 1) * d = d * (n / d) + d := by
      rw [Nat.add_mul, Nat.one_mul, Nat.mul_comm]
    split
    · exact .inr ⟨up, by omega⟩
    · rcases Nat.mod_two_eq_zero_or_one (n / d) with h | h
      · exact .inl (by rw [h, Nat.add_zero, Nat.mul_comm])
      · exact .inr ⟨by rw [h, up], by omega⟩

/-- The rounded quotient is at most half a unit above. -/
theorem roundDiv_le (n d : Nat) : 2 * (roundDiv n d * d) ≤ 2 * n + d := by
  have hn := Nat.div_add_mod n d
  rcases roundDiv_mul n d with h | ⟨h, hd⟩ <;> omega

/-- The rounded quotient is at most half a unit below. -/
theorem le_roundDiv (n : Nat) {d : Nat} (hd : 0 < d) :
    2 * n ≤ 2 * (roundDiv n d * d) + d := by
  have hn := Nat.div_add_mod n d
  have hr := Nat.mod_lt n hd
  unfold roundDiv
  split
  · rw [Nat.mul_comm (n / d)]
    omega
  · have up : (n / d + 1) * d = d * (n / d) + d := by
      rw [Nat.add_mul, Nat.one_mul, Nat.mul_comm]
    split
    · omega
    · rcases Nat.mod_two_eq_zero_or_one (n / d) with h | h
      · rw [h, Nat.add_zero, Nat.mul_comm (n / d)]
        omega
      · rw [h]
        omega

/-- A tie goes to the even neighbour. -/
theorem roundDiv_even_of_tie {n d : Nat} (h : 2 * (n % d) = d) : roundDiv n d % 2 = 0 := by
  unfold roundDiv
  split
  · omega
  · split
    · omega
    · omega

end LoxLang
