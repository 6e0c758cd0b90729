import LoxLang.Proofs.Lexemes.Layout
import LoxLang.Proofs.Number.Numerals
import LoxLang.Proofs.Outline.Readability

/-!
# Numbers of an outline are scanned again

The text of a number in an outline is a lexeme, and it denotes the number: scanning it gives this
number back, **bit for bit** (`scan_source_of_mem_tokens`). A whole number is written with all its
digits, and other numbers that are not too small have digits on both sides of a point. Smaller ones
are written with an exponent, which is no lexeme.
-/

namespace LoxLang

open Binary64

/-! ### One lexeme -/

/-- A text that is a **lexeme** of one line is scanned as one token. -/
theorem scan_of_lexeme {source : String} {kind : TokenKind} (h : Lexeme kind source.toList)
    (hline : '\n' ∉ source.toList) :
    scan source =
      { tokens := [⟨kind, source, literalOf kind source.toList, 1⟩, Token.atEnd 1]
        faults := [] } := by
  have hcutting : Cutting source.toList [⟨.token kind, source.toList⟩] := by
    have hcut : Cutting (source.toList ++ []) _ := h.cutting nofun .nil
    rwa [List.append_nil] at hcut
  have hcount : source.toList.count '\n' = 0 := List.count_eq_zero.mpr hline
  rw [scan_eq_of_cutting hcutting, place, place, Piece.lineAfter, hcount]
  simp [PlacedPiece.token?, PlacedPiece.fault?]

theorem isDigits_of_charIsDigit {cs : List Char} (hne : cs ≠ []) (h : ∀ c ∈ cs, c.isDigit) :
    IsDigits cs :=
  ⟨hne, fun c hc => isDigit_of_charIsDigit (h c hc)⟩

/-- Digits denote the **whole** number. -/
theorem literalOf_whole {cs : List Char} (h : IsDigits cs) :
    literalOf .number cs = .number (Decimal.ofDigits cs []) := by
  have htake : cs.takeWhile isDigit = cs := List.takeWhile_eq_self_iff.mpr h.2
  rw [literalOf, htake, List.drop_eq_nil_of_le (Nat.le_succ _)]

/-- Digits with a point denote the number with the **fraction** behind the point. -/
theorem literalOf_decimal {whole fraction : List Char} (h : IsDigits whole) :
    literalOf .number (whole ++ '.' :: fraction) = .number (Decimal.ofDigits whole fraction) := by
  have htake : (whole ++ '.' :: fraction).takeWhile isDigit = whole := by
    rw [List.takeWhile_append_of_pos h.2, List.takeWhile_cons_of_neg (by decide), List.append_nil]
  have hdrop : (whole ++ '.' :: fraction).drop (whole.length + 1) = fraction := by
    rw [List.drop_append, List.drop_eq_nil_of_le (Nat.le_succ _), Nat.add_sub_cancel_left]
    rfl
  rw [literalOf, htake, hdrop]

/-! ### Numbers -/

namespace Literal

/-- The text of a number that is written, if it is whole or not too small, is a **lexeme**, and the
lexeme denotes the number. -/
theorem lexeme_source_number {x : Float} (h : (number x).Written)
    (hrange : (∃ n : ℤ, value x = n) ∨ 1 / 10000 ≤ value x) :
    Lexeme .number (number x).source.toList ∧
      literalOf .number (number x).source.toList = number x := by
  obtain ⟨hsigned, hfinite⟩ := h
  rw [← integral_iff hfinite] at hrange
  rw [toList_source_number]
  split
  · next hwhole =>
    have hdigits : IsDigits (Decimal.digits (quanta (magnitude x) / one)) :=
      isDigits_of_charIsDigit (Decimal.digits_ne_nil _) fun _ => Decimal.isDigit_of_mem_digits
    rw [Decimal.whole_eq hsigned, literalOf_whole hdigits,
      Decimal.ofDigits_whole hsigned hfinite hwhole]
    exact ⟨.whole hdigits, rfl⟩
  · next hwhole =>
    obtain ⟨whole, fraction, htext, hdigits, hdigits', hread⟩ :=
      Decimal.exists_numeral hsigned hfinite hwhole (hrange.resolve_left hwhole)
    have hfront := isDigits_of_charIsDigit hdigits.1 hdigits.2
    rw [(Decimal.shortest_eq hsigned hfinite hwhole).2, htext, literalOf_decimal hfront, hread]
    exact ⟨.decimal hfront (isDigits_of_charIsDigit hdigits'.1 hdigits'.2), rfl⟩

end Literal

/-- **Numbers are scanned again.** If a text has a token that denotes a finite number, and this is
whole or at least `10 ^ -4`, then scanning the text of the number in an outline finds nothing wrong
and one token in front of the end. Its lexeme is the whole text, and it denotes the same number. -/
theorem scan_source_of_mem_tokens {source : String} {t : Token} {x : Float}
    (ht : t ∈ (scan source).tokens) (hnumber : t.literal = .number x) (hfinite : finite x)
    (hrange : (∃ n : ℤ, value x = n) ∨ 1 / 10000 ≤ value x) :
    scan (Literal.number x).source =
      { tokens := [⟨.number, (Literal.number x).source, .number x, 1⟩, Token.atEnd 1]
        faults := [] } := by
  have hwritten : (Literal.number x).Written := by
    rw [← hnumber]
    refine written_of_mem_tokens ht ?_
    rw [hnumber]
    exact hfinite
  obtain ⟨hlexeme, hliteral⟩ := Literal.lexeme_source_number hwritten hrange
  have hline : '\n' ∉ (Literal.number x).source.toList := by
    intro hmem
    exact absurd ((Literal.isWord_number x).plain _ hmem) (by decide)
  rw [scan_of_lexeme hlexeme hline, hliteral]

/-- A number at the lower end of the range. -/
theorem scan_source_of_mem_tokens_of_small :
    let x := Decimal.ofDigits ['0'] ['0', '0', '0', '1', '0']
    (Literal.number x).source = "0.0001" ∧
      scan "0.0001" =
        { tokens := [⟨.number, "0.0001", .number x, 1⟩, Token.atEnd 1], faults := [] } := by
  intro x
  have hwhole : IsDigits ['0'] := ⟨by decide, List.all_eq_true.mp (by decide)⟩
  have hfraction : IsDigits ['0', '0', '0', '1', '0'] :=
    ⟨by decide, List.all_eq_true.mp (by decide)⟩
  have hscan : scan "0.00010" = _ := scan_of_lexeme (.decimal hwhole hfraction) (by decide)
  have hsigned : signed x = false := signed_ofRatio _ _
  have hfinite : finite x := by decide +kernel
  have hsource : (Literal.number x).source = "0.0001" := by decide +kernel
  have hrange : 1 / 10000 ≤ value x := by
    have hquanta : 1 * one ≤ quanta (magnitude x) * 10000 := by decide +kernel
    rw [value_of_not_signed hsigned hfinite,
      div_le_div_iff₀ (by norm_num) (Nat.cast_pos.mpr pos_one)]
    exact_mod_cast hquanta
  have ht : (⟨.number, "0.00010", .number x, 1⟩ : Token) ∈ (scan "0.00010").tokens := by
    rw [hscan]
    exact List.mem_cons_self
  have h := scan_source_of_mem_tokens ht rfl hfinite (.inr hrange)
  rw [hsource] at h
  exact ⟨hsource, h⟩

end LoxLang
