import LoxLang.Proofs.Lexemes.Concatenation

/-!
# The lines of tokens

Tokens and faults are on the lines of the text that a reader counts. An **occurrence** of a piece
says where in the text the piece is, by what stands in front of it; nothing but the line feeds of
the text in front of it, and in it, says on which line that is. `scan_lines` is the law: a token is
on the line that its lexeme ends on, a stray character on its own line, and a string without end on
the last line, where the end token is.
-/

namespace LoxLang

/-- The line on which a text goes on behind `cs`. -/
def lineBehind (cs : List Char) : Nat := 1 + cs.count '\n'

/-- A piece of a text and all that stands **in front** of it. -/
structure Occurrence where
  before : List Char
  piece : Piece

namespace Occurrence

/-- The text up to the end of the piece. -/
def through (o : Occurrence) : List Char := o.before ++ o.piece.text

/-- The token that occurs there, on the line that its lexeme **ends** on. -/
def token? (o : Occurrence) : Option Token :=
  match o.piece.form with
  | .token kind =>
    some ⟨kind, String.ofList o.piece.text, literalOf kind o.piece.text, lineBehind o.through⟩
  | _ => none

/-- What is recorded of the occurrence in a text: a stray character on the line **in front** of it,
and a string without end on the **last** line. -/
def record? (text : List Char) (o : Occurrence) : Option Diagnostic :=
  match o.piece.form with
  | .stray =>
    some ⟨lineBehind o.before, "", "Unexpected character '" ++ String.ofList o.piece.text ++ "'.",
      .static⟩
  | .unclosed => some ⟨lineBehind text, "", "Unterminated string.", .static⟩
  | _ => none

end Occurrence

/-- The pieces behind `before`, each with what stands in front of it. -/
def occurrences (before : List Char) : List Piece → List Occurrence
  | [] => []
  | p :: ps => ⟨before, p⟩ :: occurrences (before ++ p.text) ps

/-! ### Places and occurrences -/

theorem lineAfter_lineBehind (cs : List Char) (p : Piece) :
    p.lineAfter (lineBehind cs) = lineBehind (cs ++ p.text) := by
  rw [Piece.lineAfter, lineBehind, lineBehind, List.count_append, Nat.add_assoc]

/-- A piece is placed on the line behind **all** of the text up to its end. -/
theorem place_eq_map_occurrences (before : List Char) (ps : List Piece) :
    place (lineBehind before) ps =
      (occurrences before ps).map fun o => ⟨o.piece, lineBehind o.through⟩ := by
  induction ps generalizing before with
  | nil => rfl
  | cons p ps ih =>
    rw [place, lineAfter_lineBehind, ih]
    rfl

theorem le_lineBehind_of_isPrefix {cs ds : List Char} (h : cs <+: ds) :
    lineBehind cs ≤ lineBehind ds :=
  Nat.add_le_add_left (h.sublist.count_le '\n') 1

/-- What occurs later ends further back in the text. -/
theorem pairwise_occurrences (before : List Char) (ps : List Piece) :
    (∀ o ∈ occurrences before ps, before <+: o.through) ∧
      (occurrences before ps).Pairwise fun o o' => o.through <+: o'.through := by
  induction ps generalizing before with
  | nil => exact ⟨nofun, .nil⟩
  | cons p ps ih =>
    obtain ⟨hfront, hpairwise⟩ := ih (before ++ p.text)
    have hp : before <+: before ++ p.text := List.prefix_append before p.text
    exact ⟨List.forall_mem_cons.mpr ⟨hp, fun o ho => hp.trans (hfront o ho)⟩,
      .cons hfront hpairwise⟩

/-- A piece of a cutting **occurs** in the text, and can stand in front of the rest. -/
theorem Cutting.exists_rest {cs before : List Char} {ps : List Piece} (h : Cutting cs ps)
    {o : Occurrence} (ho : o ∈ occurrences before ps) :
    ∃ rest, before ++ cs = o.through ++ rest ∧ Stands o.piece rest := by
  induction h generalizing before with
  | nil => exact absurd ho List.not_mem_nil
  | @cons p rest ps hstands _ _ ih =>
    rcases List.mem_cons.mp ho with rfl | ho
    · exact ⟨rest, (List.append_assoc ..).symm, hstands⟩
    · obtain ⟨rest', hrest, hstands'⟩ := ih ho
      exact ⟨rest', by rw [← List.append_assoc, hrest], hstands'⟩

/-! ### Tokens and records -/

variable {source : String} {ps : List Piece}

theorem tokens_eq_filterMap_occurrences (h : Cutting source.toList ps) :
    (scan source).tokens = (occurrences [] ps).filterMap Occurrence.token? ++
      [Token.atEnd (lineBehind source.toList : Nat)] := by
  have hplace : place 1 ps = _ := place_eq_map_occurrences [] ps
  rw [scan_eq_of_cutting h, hplace, List.filterMap_map]
  refine congrArg (· ++ _) (List.filterMap_congr fun o _ => ?_)
  obtain ⟨before, form, text⟩ := o
  cases form <;> rfl

/-- What is **recorded** of a piece is on the line of its first character, which is the last line of
the text if the piece goes on to the end. -/
theorem records_eq_filterMap_occurrences (h : Cutting source.toList ps) :
    (scan source).faults.map LexicalFault.diagnostic =
      (occurrences [] ps).filterMap (Occurrence.record? source.toList) := by
  have hplace : place 1 ps = _ := place_eq_map_occurrences [] ps
  rw [scan_eq_of_cutting h, hplace, List.map_filterMap, List.filterMap_map]
  refine List.filterMap_congr fun o ho => ?_
  obtain ⟨rest, hrest, hstands⟩ := h.exists_rest ho
  obtain ⟨before, p⟩ := o
  cases hstands with
  | token | blank | comment => rfl
  | @stray c _ hblank =>
    -- A stray character is no line feed, so that its line ends where it began.
    have hc : '\n' ∉ [c] := fun hmem => hblank (List.mem_singleton.mp hmem ▸ by decide)
    have hline : lineBehind (before ++ [c]) = lineBehind before := by
      rw [lineBehind, List.count_append, List.count_eq_zero_of_not_mem hc]
      rfl
    change some (LexicalFault.diagnostic ⟨lineBehind (before ++ [c]), _⟩) = _
    rw [hline]
    rfl
  | @unclosed inner =>
    have htext : source.toList = before ++ '"' :: inner := by simpa [Occurrence.through] using hrest
    rw [htext]
    rfl

/-- **Lines** never decrease along the tokens. -/
theorem pairwise_line_tokens (h : Cutting source.toList ps) :
    (scan source).tokens.Pairwise fun t u => t.line ≤ u.line := by
  have hline : ∀ {o : Occurrence} {t : Token}, o.token? = some t →
      t.line = (lineBehind o.through : Nat) := by
    rintro ⟨before, form, text⟩ t ht
    cases form <;> cases ht
    rfl
  rw [tokens_eq_filterMap_occurrences h, List.pairwise_append]
  refine ⟨?_, List.pairwise_singleton _ _, fun t ht u hu => ?_⟩
  · refine List.pairwise_filterMap.mpr ((pairwise_occurrences [] ps).2.imp ?_)
    intro o o' hfront t ht u hu
    rw [hline ht, hline hu]
    exact Int.ofNat_le.mpr (le_lineBehind_of_isPrefix hfront)
  · obtain ⟨o, ho, ht⟩ := List.mem_filterMap.mp ht
    obtain ⟨rest, hrest, -⟩ := h.exists_rest ho
    rw [hline ht, List.mem_singleton.mp hu]
    exact Int.ofNat_le.mpr (le_lineBehind_of_isPrefix ⟨rest, hrest.symm⟩)

/-- **Lines are counted by line feeds.** The tokens of a text are the lexemes that occur in its
cutting, each on the line behind the text up to its end, and behind them the end token on the line
behind the whole text. Their lines never decrease. What is recorded of a stray character has the
line behind the text in front of it, and what is recorded of a string without end has that of the
end token. -/
theorem scan_lines (source : String) :
    ∃ pieces,
      Cutting source.toList pieces ∧
      (∀ o ∈ occurrences [] pieces, ∃ rest, source.toList = o.before ++ o.piece.text ++ rest) ∧
      (scan source).tokens = (occurrences [] pieces).filterMap Occurrence.token? ++
        [Token.atEnd (1 + source.toList.count '\n' : Nat)] ∧
      (∀ o ∈ occurrences [] pieces, ∀ t ∈ o.token?,
        t.lexeme.toList = o.piece.text ∧
          t.line = (1 + (o.before ++ o.piece.text).count '\n' : Nat)) ∧
      (scan source).tokens.Pairwise (fun t u => t.line ≤ u.line) ∧
      (scan source).faults.map LexicalFault.diagnostic =
        (occurrences [] pieces).filterMap (Occurrence.record? source.toList) ∧
      ∀ o ∈ occurrences [] pieces, ∀ d ∈ o.record? source.toList,
        (∃ c, o.piece = ⟨.stray, [c]⟩ ∧ d.message = "Unexpected character '" ++ c.toString ++ "'." ∧
            d.line = (1 + o.before.count '\n' : Nat)) ∨
          (o.piece.form = .unclosed ∧ d.message = "Unterminated string." ∧
            d.line = (1 + source.toList.count '\n' : Nat)) := by
  obtain ⟨ps, hps⟩ := exists_cutting source.toList
  refine ⟨ps, hps, fun o ho => ?_, tokens_eq_filterMap_occurrences hps, fun o ho t ht => ?_,
    pairwise_line_tokens hps, records_eq_filterMap_occurrences hps, fun o ho d hd => ?_⟩
  · obtain ⟨rest, hrest, -⟩ := hps.exists_rest ho
    exact ⟨rest, hrest⟩
  · obtain ⟨before, form, text⟩ := o
    cases form <;> cases ht
    exact ⟨String.toList_ofList, rfl⟩
  · obtain ⟨rest, hrest, hstands⟩ := hps.exists_rest ho
    obtain ⟨before, p⟩ := o
    cases hstands with
    | token | blank | comment => cases hd
    | @stray c =>
      cases hd
      exact .inl ⟨c, rfl, rfl, rfl⟩
    | unclosed =>
      cases hd
      exact .inr ⟨rfl, rfl, rfl⟩

end LoxLang
