import LoxLang.Number.Rounding

/-!
# Doubles as exact integers

The 63 bits of a double below its sign are its **magnitude**, read as a natural number. Magnitudes
are ordered as the absolute values they stand for, so the doubles next to a given one are the
magnitude plus and minus one. A finite magnitude stands for a whole number of quanta of
`2 ^ -1074`, the smallest positive double: `quanta` is that number, and all conversions between
doubles and decimals compare integers.

`nearest n d` is the way back, from a rational `n / d` to the magnitude that IEEE 754 rounding to
nearest, ties to even, gives.
-/

namespace LoxLang

namespace Binary64

/-- The number of quanta in one. -/
def one : Nat := Nat.pow 2 1074

/-- The number of magnitudes in a binade, `2 ^ 52`. -/
def binade : Nat := 0x10000000000000

/-- The weight of the sign bit, `2 ^ 63`. -/
def signBit : Nat := 0x8000000000000000

/-- The magnitude of the infinities. Above it lie the magnitudes that are not numbers. -/
def infinite : Nat := 2047 * binade

/-- How often the quantum is doubled in the binade of a magnitude: the exponent field less one,
and not at all for the subnormals, whose field is zero. -/
def scale (b : Nat) : Nat := b / binade - 1

/-- The integral significand of a magnitude, leading bit included. -/
def significand (b : Nat) : Nat := b - scale b * binade

/-- The exact absolute value a magnitude stands for, in quanta. -/
def quanta (b : Nat) : Nat := significand b * Nat.pow 2 (scale b)

/-- The magnitude **nearest** to `n / d`, the even one on a tie, and `infinite` for a rational that
rounds beyond the largest finite double.

The binade is the one of `n / d` rounded down to quanta, and the significand is rounded within it.
A significand that rounds up to the next power of two carries into the exponent field by itself. -/
def nearest (n d : Nat) : Nat :=
  let e := (n * one / d).log2 - 52
  min infinite (e * binade + roundDiv (n * one) (d * Nat.pow 2 e))

/-! ### Doubles -/

/-- The bits of a double below the sign. -/
def magnitude (x : Float) : Nat := x.toBits.toNat % signBit

/-- Whether the sign bit is set: also for negative zero. -/
def signed (x : Float) : Bool := decide (signBit ≤ x.toBits.toNat)

/-- The double of a sign and a magnitude. -/
def ofMagnitude (negative : Bool) (b : Nat) : Float :=
  Float.ofBits (UInt64.ofNat (if negative then signBit + b else b))

/-- The double nearest to the nonnegative rational `n / d`. -/
def ofRatio (n d : Nat) : Float := ofMagnitude false (nearest n d)

/-- The quiet double that is not a number. -/
def notANumber : Float := Float.ofBits 0x7ff8000000000000

/-- The infinity of a sign. -/
def infinity (negative : Bool) : Float := ofMagnitude negative infinite

/-- A double is finite when its magnitude lies below the infinities. -/
def finite (x : Float) : Bool := decide (magnitude x < infinite)

/-- Whether the double is a whole number. -/
def integral (x : Float) : Bool := finite x && quanta (magnitude x) % one == 0

end Binary64

end LoxLang
