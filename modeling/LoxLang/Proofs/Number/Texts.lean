import Mathlib
import LoxLang.Number.Decimal

/-!
# Texts of decimals

A decimal is written with its digits and a point among them, or with an exponent behind them.
`Decimal.readText` reads such a text, and says nothing of the layout: a text of a decimal says the
**value** of the decimal in every layout (`Decimal.readText_text`).
-/

namespace LoxLang

namespace Decimal

/-! ### Digits -/

theorem digitsValue_eq (cs : List Char) : digitsValue cs = Nat.ofDigitChars 10 cs 0 := rfl

@[simp]
theorem digitsValue_digits (n : Nat) : digitsValue (digits n) = n := Nat.ofDigitChars_ten_toDigits

theorem digits_injective {n m : Nat} (h : digits n = digits m) : n = m := by
  rw [← digitsValue_digits n, h, digitsValue_digits]

theorem digits_ne_nil (n : Nat) : digits n ≠ [] := Nat.toDigits_ne_nil

theorem isDigit_of_mem_digits {n : Nat} {c : Char} (h : c ∈ digits n) : c.isDigit :=
  Nat.isDigit_of_mem_toDigits (by decide) (by decide) h

theorem length_digits_le_iff {n k : Nat} (hk : 0 < k) : (digits n).length ≤ k ↔ n < 10 ^ k :=
  Nat.length_toDigits_le_iff (by decide) hk

/-- A number has no **superfluous** zero in front. -/
theorem digits_eq_of_head? {n : Nat} (h : (digits n).head? = some '0') : digits n = ['0'] := by
  induction n using Nat.strong_induction_on with
  | _ n ih =>
    rw [digits, Nat.toDigits_eq_if (by decide)] at h ⊢
    by_cases hn : n < 10
    · rw [if_pos hn] at h ⊢
      rw [Option.some.inj h]
    · -- The leading digit is the one of a smaller number, which is not zero.
      rw [if_neg hn, List.head?_append_of_ne_nil _ Nat.toDigits_ne_nil] at h
      have hzero := congrArg digitsValue (ih (n / 10) (by omega) h)
      rw [digitsValue_digits] at hzero
      have hone : 1 ≤ n / 10 := by omega
      exact absurd (hzero.symm ▸ hone) (by decide)

theorem digitsValue_append (cs ds : List Char) :
    digitsValue (cs ++ ds) = digitsValue cs * 10 ^ ds.length + digitsValue ds := by
  rw [digitsValue_eq, Nat.ofDigitChars_append, Nat.ofDigitChars_eq_ofDigitChars_zero,
    Nat.mul_comm, digitsValue_eq, digitsValue_eq]

/-- Zeros in front do not change a value. -/
theorem digitsValue_replicate_append (k : Nat) (cs : List Char) :
    digitsValue (List.replicate k '0' ++ cs) = digitsValue cs := by
  simp [digitsValue_eq, Nat.ofDigitChars_append]

/-- A zero behind multiplies a value by ten. -/
theorem digitsValue_append_replicate (cs : List Char) (k : Nat) :
    digitsValue (cs ++ List.replicate k '0') = digitsValue cs * 10 ^ k := by
  simp [digitsValue_eq, Nat.ofDigitChars_append, Nat.mul_comm]

theorem digitsValue_paddedDigits (width n : Nat) : digitsValue (paddedDigits width n) = n := by
  rw [paddedDigits, digitsValue_replicate_append, digitsValue_digits]

/-- A number with few digits is filled up to the **width**. -/
theorem length_paddedDigits {width n : Nat} (hwidth : 0 < width) (h : n < 10 ^ width) :
    (paddedDigits width n).length = width := by
  have hle := (length_digits_le_iff hwidth).mpr h
  rw [paddedDigits, List.length_append, List.length_replicate, Nat.sub_add_cancel hle]

/-! ### Values -/

/-- The **value** of a decimal. -/
def value (x : Decimal) : ℚ := x.coefficient * 10 ^ x.exponent

/-- The value of an exponent, with its sign. -/
def readExponent : List Char → ℤ
  | '-' :: cs => -(digitsValue cs)
  | _ :: cs => digitsValue cs
  | [] => 0

/-- The value of the **text** of a decimal: all its digits as one number, and the power of ten of
the last of them. -/
def readText (cs : List Char) : ℚ :=
  let mantissa := cs.takeWhile (· != 'e')
  let fraction := (mantissa.dropWhile (· != '.')).drop 1
  digitsValue (mantissa.filter (· != '.')) *
    10 ^ (readExponent (cs.drop (mantissa.length + 1)) - fraction.length)

theorem ne_of_isDigit {c d : Char} (h : c.isDigit) (hd : ¬ d.isDigit) : c ≠ d := by
  rintro rfl
  exact hd h

/-- The text ends with a mantissa, or goes on with an exponent. -/
theorem readText_append {mantissa exponent : List Char} (hmantissa : 'e' ∉ mantissa)
    (hexponent : ∀ c ∈ exponent.head?, c = 'e') :
    readText (mantissa ++ exponent) =
      digitsValue (mantissa.filter (· != '.')) *
        10 ^ (readExponent (exponent.drop 1) -
          ((mantissa.dropWhile (· != '.')).drop 1).length) := by
  have htake : (mantissa ++ exponent).takeWhile (· != 'e') = mantissa := by
    have hnone : exponent.takeWhile (· != 'e') = [] := by
      cases exponent with
      | nil => rfl
      | cons c cs =>
        obtain rfl : c = 'e' := hexponent c rfl
        rfl
    rw [List.takeWhile_append_of_pos fun c hc => bne_iff_ne.mpr (ne_of_mem_of_not_mem hc hmantissa),
      hnone, List.append_nil]
  have hdrop : (mantissa ++ exponent).drop (mantissa.length + 1) = exponent.drop 1 := by
    rw [List.drop_append, List.drop_eq_nil_of_le (by omega), List.nil_append,
      Nat.add_sub_cancel_left]
  rw [readText, htake, hdrop]

section

variable {whole fraction exponent : List Char} (hwhole : ∀ c ∈ whole, c.isDigit)
  (hfraction : ∀ c ∈ fraction, c.isDigit) (hexponent : ∀ c ∈ exponent.head?, c = 'e')

include hwhole hexponent

/-- Digits without a point. -/
theorem readText_whole :
    readText (whole ++ exponent) =
      digitsValue whole * 10 ^ readExponent (exponent.drop 1) := by
  have hno : ∀ {d : Char}, ¬ d.isDigit → ∀ c ∈ whole, c ≠ d :=
    fun hd c hc => ne_of_isDigit (hwhole c hc) hd
  have hpoint : ∀ c ∈ whole, (c != '.') = true :=
    fun c hc => bne_iff_ne.mpr (hno (by decide) c hc)
  rw [readText_append (fun hmem => hno (by decide) 'e' hmem rfl) hexponent,
    List.filter_eq_self.mpr hpoint, List.dropWhile_eq_nil_iff.mpr hpoint]
  simp

include hfraction

/-- Digits with a point among them. -/
theorem readText_point :
    readText (whole ++ '.' :: fraction ++ exponent) =
      digitsValue (whole ++ fraction) *
        10 ^ (readExponent (exponent.drop 1) - fraction.length) := by
  have hno : ∀ {d : Char}, ¬ d.isDigit → ∀ c ∈ whole ++ fraction, c ≠ d := fun hd c hc =>
    ne_of_isDigit ((List.mem_append.mp hc).elim (hwhole c) (hfraction c)) hd
  have hmantissa : 'e' ∉ whole ++ '.' :: fraction := by
    intro hmem
    rcases List.mem_append.mp hmem with hmem | hmem
    · exact hno (by decide) 'e' (List.mem_append_left _ hmem) rfl
    · rcases List.mem_cons.mp hmem with heq | hmem
      · exact absurd heq (by decide)
      · exact hno (by decide) 'e' (List.mem_append_right _ hmem) rfl
  have hpoint : ∀ c ∈ whole ++ fraction, (c != '.') = true :=
    fun c hc => bne_iff_ne.mpr (hno (by decide) c hc)
  have hfront : ∀ c ∈ whole, (c != '.') = true :=
    fun c hc => hpoint c (List.mem_append_left _ hc)
  have hfilter : (whole ++ '.' :: fraction).filter (· != '.') = whole ++ fraction := by
    rw [List.filter_append, List.filter_cons_of_neg (by decide), ← List.filter_append,
      List.filter_eq_self.mpr hpoint]
  rw [readText_append hmantissa hexponent, hfilter, List.dropWhile_append_of_pos hfront]
  simp

omit hexponent in
/-- Digits with a point among them, and **no** exponent. -/
theorem readText_decimal :
    readText (whole ++ '.' :: fraction) =
      digitsValue (whole ++ fraction) * 10 ^ (-fraction.length : ℤ) := by
  have hread := readText_point hwhole hfraction (nofun : ∀ c ∈ ([] : List Char).head?, _)
  rwa [List.append_nil, List.drop_nil, readExponent, zero_sub] at hread

end

/-! ### Layouts -/

theorem isDigit_of_mem_replicate {k : Nat} {c : Char} (h : c ∈ List.replicate k '0') :
    c.isDigit := by
  rw [List.eq_of_mem_replicate h]
  decide

theorem isDigit_of_mem_paddedDigits {width n : Nat} {c : Char} (h : c ∈ paddedDigits width n) :
    c.isDigit :=
  (List.mem_append.mp h).elim isDigit_of_mem_replicate isDigit_of_mem_digits

theorem isDigit_zero : ∀ c ∈ ['0'], c.isDigit := List.forall_mem_singleton.mpr (by decide)

section

variable {cs : List Char} (hcs : ∀ c ∈ cs, c.isDigit)

include hcs

/-- All digits behind the point, and zeros in front of them. -/
theorem readText_behind (k : Nat) :
    readText ('0' :: '.' :: List.replicate k '0' ++ cs) =
      digitsValue cs * 10 ^ (-(k + cs.length : ℕ) : ℤ) := by
  have hfraction : ∀ c ∈ List.replicate k '0' ++ cs, c.isDigit :=
    fun c hc => (List.mem_append.mp hc).elim isDigit_of_mem_replicate (hcs c)
  have hread := readText_decimal isDigit_zero hfraction
  have hvalue : digitsValue (['0'] ++ (List.replicate k '0' ++ cs)) = digitsValue cs := by
    rw [← List.append_assoc, ← List.replicate_one, List.replicate_append_replicate,
      digitsValue_replicate_append]
  rw [hvalue, List.length_append, List.length_replicate] at hread
  exact hread

/-- All digits in front of the point, and zeros behind them. -/
theorem readText_inFront (k : Nat) :
    readText (cs ++ List.replicate k '0' ++ ['.', '0']) = digitsValue cs * 10 ^ k := by
  have hwhole : ∀ c ∈ cs ++ List.replicate k '0', c.isDigit :=
    fun c hc => (List.mem_append.mp hc).elim (hcs c) isDigit_of_mem_replicate
  have hvalue : digitsValue (cs ++ List.replicate k '0' ++ ['0']) =
      digitsValue cs * 10 ^ (k + 1) := by
    rw [List.append_assoc, ← List.replicate_one, List.replicate_append_replicate,
      digitsValue_append_replicate]
  rw [readText_decimal hwhole isDigit_zero, hvalue, List.length_singleton]
  push_cast
  rw [pow_succ, zpow_neg_one, mul_assoc, mul_inv_cancel_right₀ (by norm_num)]

/-- The point stands between the digits. -/
theorem readText_between {n : Nat} (hn : n ≤ cs.length) :
    readText (cs.take n ++ '.' :: cs.drop n) = digitsValue cs * 10 ^ (n - cs.length : ℤ) := by
  have hfront : ∀ c ∈ cs.take n, c.isDigit := fun c hc => hcs c (List.mem_of_mem_take hc)
  have hbehind : ∀ c ∈ cs.drop n, c.isDigit := fun c hc => hcs c (List.mem_of_mem_drop hc)
  have hpower : (-(cs.length - n : Nat) : ℤ) = n - cs.length := by omega
  rw [readText_decimal hfront hbehind, List.take_append_drop n cs, List.length_drop, hpower]

/-- A decimal that is written **positionally** says its value. -/
theorem readText_positional (e : ℤ) :
    readText (positional cs e) = digitsValue cs * 10 ^ (e + 1 - cs.length) := by
  rw [positional]
  split
  · rw [readText_behind hcs]
    congr 2
    omega
  · have hn : ((e.toNat + 1 : Nat) : ℤ) = e + 1 := by omega
    rw [← hn]
    generalize e.toNat + 1 = n
    dsimp only
    split
    · next hnil =>
      have hle : cs.length ≤ n := List.drop_eq_nil_iff.mp (List.isEmpty_iff.mp hnil)
      have hpower : (n : ℤ) - cs.length = (n - cs.length : Nat) := by omega
      rw [List.take_of_length_le hle, readText_inFront hcs, hpower, zpow_natCast]
    · next hne =>
      have hle : n ≤ cs.length := by
        refine Nat.le_of_not_le fun hle => hne ?_
        rw [List.drop_eq_nil_of_le hle]
        rfl
      rw [Nat.sub_eq_zero_of_le hle, List.replicate_zero, List.append_nil,
        readText_between hcs hle]

/-- A decimal that is written with an **exponent** says its value. -/
theorem readText_scientific (width : Nat) (hne : cs ≠ []) (e : ℤ) :
    readText (scientific width cs e) = digitsValue cs * 10 ^ (e + 1 - cs.length) := by
  have hsigned : readExponent ((if e < 0 then '-' else '+') :: paddedDigits width e.natAbs) =
      e := by
    split
    · rw [readExponent, digitsValue_paddedDigits]
      omega
    · rw [readExponent, digitsValue_paddedDigits]
      · omega
      · decide
  have hends : ∀ c ∈ ('e' :: (if e < 0 then '-' else '+') :: paddedDigits width e.natAbs).head?,
      c = 'e' := fun c hc => (Option.some.inj hc).symm
  obtain ⟨c, fraction, rfl⟩ := List.exists_cons_of_ne_nil hne
  obtain ⟨hc, hfraction⟩ := List.forall_mem_cons.mp hcs
  have hfirst : ∀ d ∈ [c], d.isDigit := List.forall_mem_singleton.mpr hc
  have hlength : e + 1 - ((c :: fraction).length : ℤ) = e - fraction.length := by
    rw [List.length_cons]
    omega
  rw [scientific, hlength]
  dsimp only [List.take_succ_cons, List.take_zero, List.drop_succ_cons, List.drop_zero]
  split
  · next hnil =>
    obtain rfl := List.isEmpty_iff.mp hnil
    have hread := readText_whole hfirst hends
    rw [List.drop_one, List.tail_cons, hsigned] at hread
    simpa using hread
  · have hread := readText_point hfirst hfraction hends
    rw [List.drop_one, List.tail_cons, hsigned] at hread
    exact hread

end

/-- The text of a decimal says its **value**. -/
theorem readText_text (layout : Layout) (x : Decimal) : readText (x.text layout) = x.value := by
  have hdigits : ∀ c ∈ digits x.coefficient, c.isDigit := fun _ => isDigit_of_mem_digits
  have hlength := List.length_pos_iff.mpr (digits_ne_nil x.coefficient)
  have hexponent : x.exponent + ((digits x.coefficient).length - 1 : Nat) + 1 -
      (digits x.coefficient).length = x.exponent := by omega
  rw [text]
  split
  · rw [readText_positional hdigits, hexponent, digitsValue_digits, value]
  · rw [readText_scientific hdigits _ (digits_ne_nil _), hexponent, digitsValue_digits, value]

/-- The characters of the text of a decimal that are no digits. -/
def marks : List Char := ['.', 'e', '+', '-']

section

variable {cs : List Char} (hcs : ∀ c ∈ cs, c.isDigit)

include hcs

theorem mem_positional {e : ℤ} {c : Char} (hc : c ∈ positional cs e) : c.isDigit ∨ c ∈ marks := by
  rw [positional] at hc
  split at hc
  · simp only [List.cons_append, List.mem_cons, List.mem_append] at hc
    rcases hc with rfl | rfl | hc | hc
    · exact .inl (by decide)
    · exact .inr (by decide)
    · exact .inl (isDigit_of_mem_replicate hc)
    · exact .inl (hcs c hc)
  · simp only [List.append_assoc, List.mem_append, List.mem_cons] at hc
    rcases hc with hc | hc | rfl | hc
    · exact .inl (hcs c (List.mem_of_mem_take hc))
    · exact .inl (isDigit_of_mem_replicate hc)
    · exact .inr (by decide)
    · split at hc
      · exact .inl (isDigit_zero c hc)
      · exact .inl (hcs c (List.mem_of_mem_drop hc))

theorem mem_scientific {width : Nat} {e : ℤ} {c : Char} (hc : c ∈ scientific width cs e) :
    c.isDigit ∨ c ∈ marks := by
  simp only [scientific, paddedDigits, List.append_assoc, List.mem_append, List.mem_cons] at hc
  rcases hc with hc | hc | rfl | hc | hc | hc
  · exact .inl (hcs c (List.mem_of_mem_take hc))
  · split at hc
    · cases hc
    · rcases List.mem_cons.mp hc with rfl | hc
      · exact .inr (by decide)
      · exact .inl (hcs c (List.mem_of_mem_drop hc))
  · exact .inr (by decide)
  · rw [hc]
    split <;> exact .inr (by decide)
  · exact .inl (isDigit_of_mem_replicate hc)
  · exact .inl (isDigit_of_mem_digits hc)

end

/-- The text of a decimal is made of digits and a few **marks**. -/
theorem mem_text {layout : Layout} {x : Decimal} {c : Char} (hc : c ∈ x.text layout) :
    c.isDigit ∨ c ∈ marks := by
  have hdigits : ∀ c ∈ digits x.coefficient, c.isDigit := fun _ => isDigit_of_mem_digits
  rw [text] at hc
  split at hc
  · exact mem_positional hdigits hc
  · exact mem_scientific hdigits hc

/-- The text of a decimal begins with a digit, and it is not made of digits **alone**. -/
theorem exists_text (layout : Layout) (x : Decimal) :
    ∃ d rest, x.text layout = d :: rest ∧ d.isDigit ∧ ∃ c ∈ rest, ¬ c.isDigit := by
  obtain ⟨d, cs, hcons⟩ := List.exists_cons_of_ne_nil (digits_ne_nil x.coefficient)
  have hd : d.isDigit := isDigit_of_mem_digits (hcons ▸ List.mem_cons_self)
  rw [text, hcons]
  split
  · rw [positional]
    split
    · exact ⟨'0', _, rfl, by decide, '.', List.mem_cons_self, by decide⟩
    · refine ⟨d, _, rfl, hd, '.', ?_, by decide⟩
      simp
  · refine ⟨d, _, rfl, hd, 'e', ?_, by decide⟩
    simp

end Decimal

end LoxLang
