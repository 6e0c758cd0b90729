import LoxLang.Proofs.Lexemes.Cutting
import LoxLang.Proofs.Sessions.Records

/-!
# Scanning cuts a text

What scanning answers, in terms of the cutting of the text: one token for every piece that is a
lexeme, one fault for every piece that is a stray character or a string without end, and nothing for
the others (`scan_eq_of_cutting`). The kind of a token is that of its lexeme, so a token is a
reserved word exactly if it is spelled like one.
-/

namespace LoxLang

namespace Piece

/-- The kind and the text of a piece that is a token. -/
def lexeme? (p : Piece) : Option (TokenKind × String) :=
  match p.form with
  | .token kind => some (kind, String.ofList p.text)
  | _ => none

/-- What is said about a piece that is no lexeme and is not skipped silently. -/
def complaint? (p : Piece) : Option String :=
  match p.form with
  | .stray => some ("Unexpected character '" ++ String.ofList p.text ++ "'.")
  | .unclosed => some "Unterminated string."
  | _ => none

end Piece

variable {source : String} {ps : List Piece}

/-! ### Tokens and faults -/

theorem scan_eq_of_cutting (h : Cutting source.toList ps) :
    scan source =
      { tokens :=
          (place 1 ps).filterMap PlacedPiece.token? ++
            [Token.atEnd (1 + source.toList.count '\n' : Nat)]
        faults := (place 1 ps).filterMap PlacedPiece.fault? } := by
  rw [scan, h.cut_eq]

/-- What is taken of placed pieces, and does not depend on their places, is taken of the pieces. -/
theorem filterMap_place {α : Type} {f : PlacedPiece → Option α} {g : Piece → Option α} (line : Nat)
    (h : ∀ p : PlacedPiece, p.toPiece ∈ ps → f p = g p.toPiece) :
    (place line ps).filterMap f = ps.filterMap g := by
  induction ps generalizing line with
  | nil => rfl
  | cons p ps ih =>
    rw [place, List.filterMap_cons, List.filterMap_cons, h ⟨p, _⟩ List.mem_cons_self,
      ih _ fun q hq => h q (List.mem_cons_of_mem _ hq)]

theorem map_tokens (h : Cutting source.toList ps) :
    (scan source).tokens.map (fun t => (t.kind, t.lexeme)) =
      ps.filterMap Piece.lexeme? ++ [(.eof, "")] := by
  rw [scan_eq_of_cutting h, List.map_append, List.map_filterMap]
  refine congrArg (· ++ [(TokenKind.eof, "")]) (filterMap_place 1 fun p _ => ?_)
  rcases p with ⟨⟨form, text⟩, line⟩
  cases form <;> rfl

/-- Faults are told of by the pieces. -/
theorem map_faults (h : Cutting source.toList ps) :
    (scan source).faults.map (fun f => (f.diagnostic.place, f.diagnostic.message)) =
      (ps.filterMap Piece.complaint?).map fun message => ("", message) := by
  rw [scan_eq_of_cutting h, List.map_filterMap, List.map_filterMap]
  refine filterMap_place 1 fun p hp => ?_
  rcases p with ⟨⟨form, text⟩, line⟩
  obtain ⟨rest, hstands⟩ := h.exists_stands hp
  cases hstands <;> rfl

/-- A token of a piece is a lexeme. -/
theorem exists_lexeme_of_mem (h : Cutting source.toList ps) {t : Token}
    (ht : t ∈ (place 1 ps).filterMap PlacedPiece.token?) :
    ∃ text, Lexeme t.kind text ∧ t.lexeme = String.ofList text ∧
      t.literal = literalOf t.kind text := by
  obtain ⟨p, hp, htoken⟩ := List.mem_filterMap.mp ht
  have hmem : p.toPiece ∈ ps := by
    rw [← map_toPiece_place 1 ps]
    exact List.mem_map_of_mem hp
  obtain ⟨rest, hstands⟩ := h.exists_stands hmem
  rcases p with ⟨⟨form, text⟩, line⟩
  cases hstands with
  | token htext =>
    cases htoken
    exact ⟨text, htext, rfl, rfl⟩
  | _ => cases htoken

/-- A token of a text is a lexeme, or the end token. -/
theorem mem_tokens (h : Cutting source.toList ps) {t : Token} (ht : t ∈ (scan source).tokens) :
    t = Token.atEnd (1 + source.toList.count '\n' : Nat) ∨
      ∃ text, Lexeme t.kind text ∧ t.lexeme = String.ofList text ∧
        t.literal = literalOf t.kind text := by
  rw [scan_eq_of_cutting h] at ht
  rcases List.mem_append.mp ht with ht | ht
  · exact .inr (exists_lexeme_of_mem h ht)
  · exact .inl (List.mem_singleton.mp ht)

theorem records_parse (source : String) (s : Session) :
    (s.parse source).2.console.records =
      s.console.records ++ ((scan source).faults.map LexicalFault.diagnostic).toArray ++
        (Parse.ofTokens (scan source).tokens).diagnostics.toArray := by
  have hreport := congrArg Console.records (Session.reportAll_diagnostics s.console source)
  refine hreport.trans ?_
  rw [Array.append_assoc, List.append_toArray ((scan source).faults.map LexicalFault.diagnostic)]
  rfl

/-- **Scanning cuts a text** in the only way there is. Its tokens are the pieces that are lexemes,
in their order, and the end token behind them; a token is a reserved word exactly if it is spelled
like one, and a string denotes the text between its quotes. There is one fault for every piece that
is a stray character or a string without end, and a session that parses the text records those in
front of what the parser finds. -/
theorem scan_cuts (source : String) :
    ∃ pieces,
      Cutting source.toList pieces ∧
      (∀ other, Cutting source.toList other → other = pieces) ∧
      (scan source).tokens.map (fun t => (t.kind, t.lexeme)) =
        pieces.filterMap Piece.lexeme? ++ [(.eof, "")] ∧
      (∀ t ∈ (scan source).tokens, ∀ word : Keyword,
        t.kind = .keyword word ↔ t.lexeme = word.spelling) ∧
      (∀ t ∈ (scan source).tokens, t.kind = .string →
        ∃ inner, t.lexeme = "\"" ++ inner ++ "\"" ∧ t.literal = .string inner) ∧
      (scan source).faults.map (fun f => (f.diagnostic.place, f.diagnostic.message)) =
        (pieces.filterMap Piece.complaint?).map (fun message => ("", message)) ∧
      ∀ s : Session, (s.parse source).2.console.records =
        s.console.records ++ ((scan source).faults.map LexicalFault.diagnostic).toArray ++
          (Parse.ofTokens (scan source).tokens).diagnostics.toArray := by
  obtain ⟨ps, hps⟩ := exists_cutting source.toList
  refine ⟨ps, hps, fun other h => h.unique hps, map_tokens hps, fun t ht word => ?_,
    fun t ht hkind => ?_, map_faults hps, records_parse source⟩
  · rcases mem_tokens hps ht with rfl | ⟨text, htext, hlexeme, -⟩
    · have hnone : "" ≠ word.spelling := by cases word <;> decide
      exact ⟨nofun, fun h => absurd h hnone⟩
    · rw [htext.eq_keyword_iff, hlexeme, ← String.toList_inj, String.toList_ofList]
  · rcases mem_tokens hps ht with rfl | ⟨text, htext, hlexeme, hliteral⟩
    · cases hkind
    · rw [hkind] at htext hliteral
      obtain ⟨inner, -, rfl⟩ := htext.of_string
      refine ⟨String.ofList inner, ?_, ?_⟩
      · rw [hlexeme, ← String.toList_inj]
        simp
      · rw [hliteral]
        simp [literalOf]

end LoxLang
