import LoxLang.Number.Binary64

/-!
# Decimal texts of doubles

Three texts of a double are exact in integer arithmetic on its quanta.

* `fixed p x` has `p` decimal places and is the correctly rounded one, ties to even.
* `shortest x` has the fewest digits that still read back as `x`, and of those texts the nearest.
  `Layout` says which exponents are written positionally.
* `whole x` is the integer of a double without a fractional part, with all its digits.

`ofDigits` reads a decimal, correctly rounded.
-/

namespace LoxLang

/-- The decimal `coefficient * 10 ^ exponent`. -/
structure Decimal where
  coefficient : Nat
  exponent : Int
  deriving DecidableEq

namespace Decimal

open Binary64

/-- The decimal digits of a natural number. -/
def digits (n : Nat) : List Char := Nat.toDigits 10 n

/-- The value of a digit character. -/
def digitValue (c : Char) : Nat := c.toNat - '0'.toNat

/-- The natural number a string of digits denotes. -/
def digitsValue (cs : List Char) : Nat := cs.foldl (fun n c => 10 * n + digitValue c) 0

/-- The double nearest to the decimal with the integer digits `whole` and the digits `fraction`
behind the point. -/
def ofDigits (whole fraction : List Char) : Float :=
  ofRatio (digitsValue (whole ++ fraction)) (Nat.pow 10 fraction.length)

/-- The text in front of a magnitude. -/
def signText (x : Float) : List Char := if signed x then ['-'] else []

/-- The text of a double that is not finite: an infinity has its sign, and what is not a number
has none. -/
def nonFinite (x : Float) : List Char :=
  if magnitude x = infinite then signText x ++ ['i', 'n', 'f'] else ['n', 'a', 'n']

/-! ### A fixed number of places -/

/-- The digits of `n`, filled up with leading zeros to `width`. -/
def paddedDigits (width n : Nat) : List Char :=
  List.replicate (width - (digits n).length) '0' ++ digits n

/-- The magnitude `b` in units of `10 ^ -places`, rounded to nearest. -/
def scaled (places b : Nat) : Nat := roundDiv (quanta b * Nat.pow 10 places) one

/-- The text with a **fixed** number of places. The sign is that of the double, so it also stands
before a zero that is negative or was rounded from below. -/
def fixed (places : Nat) (x : Float) : List Char :=
  if finite x then
    let n := scaled places (magnitude x)
    let unit := Nat.pow 10 places
    signText x ++ digits (n / unit) ++ '.' :: paddedDigits places (n % unit)
  else nonFinite x

/-! ### The fewest digits -/

/-- `10 ^ e` as a quotient of two integers. -/
def powerOfTen (e : Int) : Nat × Nat := (Nat.pow 10 e.toNat, Nat.pow 10 (-e).toNat)

/-- Whether a decimal **reads back** as the magnitude `b`: it lies between the midpoints to the two
neighbouring magnitudes. The midpoints themselves belong to the even magnitude. -/
def readsBack (b : Nat) (x : Decimal) : Bool :=
  let (up, down) := powerOfTen x.exponent
  let value := 2 * x.coefficient * up * one
  let low := (quanta (b - 1) + quanta b) * down
  let high := (quanta b + quanta (b + 1)) * down
  if b % 2 = 0 then decide (low ≤ value ∧ value ≤ high) else decide (low < value ∧ value < high)

/-- Of the two points next to the magnitude `b` on the grid of multiples of `10 ^ e`, the nearest
one that reads back as `b`, and the even one of two that are equally near. -/
def onGrid? (b : Nat) (e : Int) : Option Decimal :=
  let (up, down) := powerOfTen e
  let below := quanta b * down / (one * up)
  let near := roundDiv (quanta b * down) (one * up)
  let far := if near = below then below + 1 else below
  if readsBack b ⟨near, e⟩ then some ⟨near, e⟩
  else if readsBack b ⟨far, e⟩ then some ⟨far, e⟩
  else none

/-- The first hit on the grids `10 ^ e`, `10 ^ (e - 1)`, …, at most `steps` of them. -/
def coarsest (b : Nat) : Nat → Int → Decimal
  | 0, e => ⟨0, e⟩
  | steps + 1, e =>
    match onGrid? b e with
    | some x => x
    | none => coarsest b steps (e - 1)

/-- The decimal with the **fewest digits** that reads back as a positive finite magnitude: the one
on the coarsest grid. No double needs a finer grid than seventeen digits below its leading one, and
the leading digit stands at `10 ^ -324` or above. -/
def fewestDigits (b : Nat) : Decimal :=
  let top := (digits (quanta b / one)).length
  coarsest b (top + 345) top

/-! ### Layout -/

/-- How a decimal is written: **positionally** for a leading digit at `10 ^ e` with
`least ≤ e < limit`, always with a digit behind the point, and else with a signed exponent of at
least `width` digits. -/
structure Layout where
  least : Int
  limit : Int
  width : Nat

/-- Numbers are written positionally from `10 ^ -4` up to `10 ^ 16`. -/
def numeral : Layout := ⟨-4, 16, 2⟩

/-- The decimal with the digits `cs` and the leading one of them at `10 ^ e`, positionally. -/
def positional (cs : List Char) (e : Int) : List Char :=
  if e < 0 then '0' :: '.' :: List.replicate (-e - 1).toNat '0' ++ cs
  else
    let n := e.toNat + 1
    let fraction := cs.drop n
    cs.take n ++ List.replicate (n - cs.length) '0' ++
      '.' :: (if fraction.isEmpty then ['0'] else fraction)

/-- The decimal with the digits `cs` and the leading one of them at `10 ^ e`, with an exponent. -/
def scientific (width : Nat) (cs : List Char) (e : Int) : List Char :=
  let fraction := cs.drop 1
  cs.take 1 ++ (if fraction.isEmpty then [] else '.' :: fraction) ++
    'e' :: (if e < 0 then '-' else '+') :: paddedDigits width e.natAbs

/-- The text of a decimal in a layout. -/
def text (layout : Layout) (x : Decimal) : List Char :=
  let cs := digits x.coefficient
  let e := x.exponent + (cs.length - 1 : Nat)
  if layout.least ≤ e ∧ e < layout.limit then positional cs e else scientific layout.width cs e

/-- The **shortest** text that reads back as the double. -/
def shortest (x : Float) : List Char :=
  if finite x then
    signText x ++
      if magnitude x = 0 then ['0', '.', '0'] else (fewestDigits (magnitude x)).text numeral
  else nonFinite x

/-- The **exact** integer part of a finite double, with all its digits. A zero has no sign. -/
def whole (x : Float) : List Char :=
  let n := quanta (magnitude x) / one
  if n = 0 then ['0'] else signText x ++ digits n

end Decimal

end LoxLang
