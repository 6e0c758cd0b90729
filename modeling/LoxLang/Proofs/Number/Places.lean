import LoxLang.Proofs.Number.Exact
import LoxLang.Proofs.Number.Rounding
import LoxLang.Proofs.Number.Texts
import LoxLang.Value

/-!
# Texts with a fixed number of places

A text with a number of places has a shape, `Decimal.Placed`, and denotes a rational,
`Decimal.readSigned`. Both are said without a word on how a double is printed.

What is printed has that shape (`Decimal.placed_fixed`). It denotes a whole number of units of the
last place (`Decimal.readSigned_fixed`), the one **nearest** to the exact value of the double
(`Decimal.isNearest_signedScaled`). So what is printed is ordered as the doubles are.
-/

namespace LoxLang

namespace Decimal

open Binary64 Float.Model Float.Model.UnpackedFloat

/-- A text with a number of **places**: a sign or none, one digit or more without a superfluous zero
in front, the point, and as many digits as there are places. -/
inductive Placed (places : ℕ) (negative : Bool) : List Char → Prop
  | intro {whole fraction : List Char} :
    whole ≠ [] → (∀ c ∈ whole, c.isDigit) → (whole.head? = some '0' → whole = ['0']) →
    fraction.length = places → (∀ c ∈ fraction, c.isDigit) →
    Placed places negative ((if negative then ['-'] else []) ++ whole ++ '.' :: fraction)

/-- The value of a text that may have a **sign**. -/
def readSigned : List Char → ℚ
  | '-' :: cs => -readText cs
  | cs => readText cs

/-- The value of a text behind the sign of a double. -/
theorem readSigned_signText {cs : List Char} (h : ∀ c ∈ cs.head?, c.isDigit) (x : Float) :
    readSigned (signText x ++ cs) = (signOf x).apply 1 * readText cs := by
  rw [signText, signOf]
  split
  · rw [Sign.apply, Int.cast_neg, Int.cast_one, neg_one_mul]
    rfl
  · rw [Sign.apply, Int.cast_one, one_mul, List.nil_append]
    refine readSigned.eq_2 cs fun rest hcons => absurd (h '-' ?_) (by decide)
    rw [hcons]
    rfl

/-- A double in units of its last place, rounded. -/
def signedScaled (places : ℕ) (x : Float) : ℤ := (signOf x).apply (scaled places (magnitude x))

section

variable {places : ℕ} (hplaces : 0 < places)

include hplaces

/-- Digits in front of the point and behind it are **one** number. -/
theorem readText_places (n : ℕ) :
    readText (digits (n / 10 ^ places) ++ '.' :: paddedDigits places (n % 10 ^ places)) =
      n / 10 ^ places := by
  have hwhole : ∀ c ∈ digits (n / 10 ^ places), c.isDigit := fun _ => isDigit_of_mem_digits
  have hfraction : ∀ c ∈ paddedDigits places (n % 10 ^ places), c.isDigit :=
    fun _ => isDigit_of_mem_paddedDigits
  have hlength : (paddedDigits places (n % 10 ^ places)).length = places :=
    length_paddedDigits hplaces (Nat.mod_lt n (Nat.pow_pos (by decide)))
  rw [readText_decimal hwhole hfraction, digitsValue_append, hlength, digitsValue_digits,
    digitsValue_paddedDigits, Nat.div_add_mod', zpow_neg, zpow_natCast, div_eq_mul_inv]

variable {x : Float} (hx : finite x)

include hx

omit hplaces in
theorem fixed_eq : fixed places x = signText x ++
    (digits (scaled places (magnitude x) / 10 ^ places) ++
      '.' :: paddedDigits places (scaled places (magnitude x) % 10 ^ places)) := by
  rw [fixed, if_pos hx, ← List.append_assoc]
  generalize scaled places (magnitude x) = n
  rfl

/-- What is printed has the **shape** of a text with places. -/
theorem placed_fixed : Placed places (signed x) (fixed places x) := by
  rw [fixed_eq hx, ← List.append_assoc]
  exact .intro (digits_ne_nil _) (fun _ => isDigit_of_mem_digits) digits_eq_of_head?
    (length_paddedDigits hplaces (Nat.mod_lt _ (Nat.pow_pos (by decide))))
    fun _ => isDigit_of_mem_paddedDigits

/-- What is printed **denotes** the rounded double. -/
theorem readSigned_fixed : readSigned (fixed places x) = signedScaled places x / 10 ^ places := by
  rw [fixed_eq hx, readSigned_signText, readText_places hplaces, signedScaled,
    cast_apply _ (scaled places (magnitude x)), Int.cast_natCast, mul_div_assoc]
  intro c hc
  rw [List.head?_append_of_ne_nil _ (digits_ne_nil _)] at hc
  exact isDigit_of_mem_digits (List.mem_of_mem_head? hc)

omit hplaces

/-- The rounded double is **nearest** to the exact one. -/
theorem isNearest_signedScaled :
    IsNearest (10 ^ places * Binary64.value x) (signedScaled places x) := by
  have hscaled : 10 ^ places * ((quanta (magnitude x) : ℚ) / one) =
      (quanta (magnitude x) * Nat.pow 10 places : ℕ) / one := by
    rw [Nat.cast_mul, mul_comm, div_mul_eq_mul_div]
    exact_mod_cast rfl
  have hnearest := isNearest_roundDiv pos_one (quanta (magnitude x) * Nat.pow 10 places)
  rw [← hscaled] at hnearest
  rw [value_eq hx, signedScaled, signOf]
  split
  · rw [Sign.apply, Sign.apply, Int.cast_neg, Int.cast_natCast, neg_div, mul_neg]
    exact hnearest.neg
  · rw [Sign.apply, Sign.apply, Int.cast_natCast]
    exact hnearest

end

end Decimal

open Decimal Binary64

/-- Printed numbers are **correctly rounded**: what `print` writes for a finite number has two
places and a sign just if the number has one, denotes the number of hundredths that is nearest to
the exact value, and is at most what it writes for a larger number. -/
theorem display_correctly_rounded {x : Float} (hx : finite x) :
    Placed 2 (signed x) (Value.number x).display.toList ∧
      (∃ n : ℤ, readSigned (Value.number x).display.toList = n / 100 ∧
        IsNearest (100 * Binary64.value x) n) ∧
      ∀ y : Float, finite y → x ≤ y →
        readSigned (Value.number x).display.toList ≤
          readSigned (Value.number y).display.toList := by
  have hdisplay : ∀ x : Float, (Value.number x).display.toList = fixed 2 x :=
    fun x => String.toList_ofList
  have hread : ∀ {x : Float}, finite x → readSigned (fixed 2 x) = signedScaled 2 x / 100 := by
    intro x hx
    rw [readSigned_fixed (by decide) hx]
    norm_num
  have hnearest : ∀ {x : Float}, finite x →
      IsNearest (100 * Binary64.value x) (signedScaled 2 x) := by
    intro x hx
    have h : IsNearest (10 ^ 2 * Binary64.value x) (signedScaled 2 x) := isNearest_signedScaled hx
    norm_num at h
    exact h
  rw [hdisplay]
  refine ⟨placed_fixed (by decide) hx, ⟨_, hread hx, hnearest hx⟩, fun y hy hle => ?_⟩
  have hmono : signedScaled 2 x ≤ signedScaled 2 y :=
    (hnearest hx).mono (hnearest hy)
      (mul_le_mul_of_nonneg_left (value_le_of_le hx hy hle) (by norm_num))
  rw [hdisplay, hread hx, hread hy]
  exact div_le_div_of_nonneg_right (Int.cast_le.mpr hmono) (by norm_num)

/-- Minus an eighth lies in the middle between two numbers of hundredths, of which twelve is the
even one. Zero is printed with its sign. -/
theorem display_minus_an_eighth :
    Placed 2 true "-0.12".toList ∧
      (∃ n : ℤ, readSigned "-0.12".toList = n / 100 ∧
        IsNearest (100 * Binary64.value (Float.ofBits 0xbfc0000000000000)) n) ∧
      readSigned "-0.12".toList ≤ readSigned "-0.00".toList := by
  have hfinite : finite (Float.ofBits 0xbfc0000000000000) := by decide +kernel
  have hzero : finite (Float.ofBits 0x8000000000000000) := by decide +kernel
  have hle : Float.ofBits 0xbfc0000000000000 ≤ Float.ofBits 0x8000000000000000 := by
    decide +kernel
  have hsigned : signed (Float.ofBits 0xbfc0000000000000) = true := by decide +kernel
  have hdisplay : (Value.number (Float.ofBits 0xbfc0000000000000)).display = "-0.12" := by
    decide +kernel
  have hdisplay' : (Value.number (Float.ofBits 0x8000000000000000)).display = "-0.00" := by
    decide +kernel
  obtain ⟨hplaced, hnearest, hmono⟩ := display_correctly_rounded hfinite
  have hordered := hmono _ hzero hle
  rw [hdisplay, hdisplay'] at hordered
  rw [hdisplay, hsigned] at hplaced
  rw [hdisplay] at hnearest
  exact ⟨hplaced, hnearest, hordered⟩

end LoxLang
