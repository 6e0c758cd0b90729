import LoxLang.Proofs.Lexemes.Scanning

/-!
# Texts behind each other

A text without a fault and another one, with a **line feed** between them, are cut where they meet:
the pieces are those of the first text, a blank, and those of the second
(`Cutting.append_newline`). A string is the only lexeme that goes on behind a line feed, and in the
first text every string is closed. So scanning both texts at once answers what it answers of each,
except that the second text stands some lines further down (`scan_append_newline`).
-/

namespace LoxLang

/-! ### Where lexemes end -/

/-- What begins a text and does not have the character `c` in it ends in front of the first `c`. -/
theorem isPrefix_of_append_cons {c : Char} {text cs rest : List Char} (hc : c ∉ text)
    (h : text <+: cs ++ c :: rest) : text <+: cs := by
  rcases List.prefix_or_prefix_of_prefix h (List.prefix_append cs _) with h' | ⟨tail, rfl⟩
  · exact h'
  · cases tail with
    | nil => simp
    | cons d tail =>
      obtain ⟨rfl, -⟩ := List.cons_prefix_cons.mp ((List.prefix_append_right_inj cs).mp h)
      exact absurd (List.mem_append_right cs List.mem_cons_self) hc

/-- The first quote behind the opening one ends a string, **whatever** follows. -/
theorem Lexeme.length_le_of_string {kind : TokenKind} {text text' rest : List Char}
    (h : Lexeme kind text) (h' : Lexeme .string text') (hfront : text' <+: text ++ rest) :
    text'.length ≤ text.length := by
  obtain ⟨inner', hinner', rfl⟩ := h'.of_string
  obtain ⟨c, cs, rfl⟩ := h.exists_cons
  obtain ⟨rfl, -⟩ := List.cons_prefix_cons.mp hfront
  have hquote := h.of_cons
  rw [if_pos rfl] at hquote
  obtain ⟨rfl, inner, hinner, rfl⟩ := hquote
  have hlongest := Piece.longest_next 1 '"' (inner ++ '"' :: rest)
  rw [Piece.next_quote, Piece.string_append hinner] at hlongest
  exact hlongest _ rfl _ _ h' (by simpa [Piece.Split.on] using hfront)

/-! ### The cutting at a line feed -/

/-- A piece that stands in front of a text stands there also if a **line feed** and more text
follow, unless it is a string without end. -/
theorem Stands.append_newline {p : Piece} {rest : List Char} (h : Stands p rest)
    (hclosed : p.form ≠ .unclosed) (behind : List Char) : Stands p (rest ++ '\n' :: behind) := by
  cases h with
  | token htext hslash =>
    refine .token htext fun hfront => hslash ?_
    rw [← List.append_assoc] at hfront
    exact isPrefix_of_append_cons (by decide) hfront
  | blank hc => exact .blank hc
  | comment hinner hrest =>
    refine .comment hinner fun c hc => ?_
    cases rest with
    | nil => exact (Option.some.inj hc).symm
    | cons d rest => exact hrest c hc
  | stray hblank hstray => exact .stray hblank hstray
  | unclosed => exact absurd rfl hclosed

/-- A piece that is the longest in front of a text is so also if a line feed and more text
follow. -/
theorem Longest.append_newline {p : Piece} {rest : List Char} (h : Longest p rest)
    (hstands : Stands p rest) (behind : List Char) : Longest p (rest ++ '\n' :: behind) := by
  intro kind hkind kind' text htext hfront
  by_cases hstring : kind' = .string
  · subst hstring
    cases hstands with
    | token hp => exact hp.length_le_of_string htext hfront
    | _ => cases hkind
  · rw [← List.append_assoc] at hfront
    exact h kind hkind kind' text htext
      (isPrefix_of_append_cons (htext.not_mem_of_mem_blanks hstring (by decide)) hfront)

/-- A text whose strings are closed is cut as it is alone if a **line feed** and another text
follow, and the other text is, too. -/
theorem Cutting.append_newline {cs ds : List Char} {ps qs : List Piece} (h : Cutting cs ps)
    (hclosed : ∀ p ∈ ps, p.form ≠ .unclosed) (h' : Cutting ds qs) :
    Cutting (cs ++ '\n' :: ds) (ps ++ ⟨.blank, ['\n']⟩ :: qs) := by
  induction h with
  | nil => exact .cons (.blank (by decide)) nofun h'
  | @cons p rest ps hstands hlongest _ ih =>
    obtain ⟨hp, hps⟩ := List.forall_mem_cons.mp hclosed
    rw [List.append_assoc, List.cons_append]
    exact .cons (hstands.append_newline hp ds) (hlongest.append_newline hstands ds) (ih hps)

/-! ### Lines -/

/-- The token, `n` lines further down. -/
def Token.lower (n : Nat) (t : Token) : Token := { t with line := t.line + n }

theorem Cutting.flatMap_text {cs : List Char} {ps : List Piece} (h : Cutting cs ps) :
    ps.flatMap Piece.text = cs := by
  induction h with
  | nil => rfl
  | cons _ _ _ ih => rw [List.flatMap_cons, ih]

theorem place_append (line : Nat) (ps qs : List Piece) :
    place line (ps ++ qs) =
      place line ps ++ place (line + (ps.flatMap Piece.text).count '\n') qs := by
  induction ps generalizing line with
  | nil => rfl
  | cons p ps ih =>
    rw [List.cons_append, place, ih, place, List.cons_append, List.flatMap_cons, List.count_append,
      Piece.lineAfter, Nat.add_assoc]

/-- Pieces that begin on a later line have their tokens on later lines. -/
theorem filterMap_token?_place_add (line n : Nat) (ps : List Piece) :
    (place (line + n) ps).filterMap PlacedPiece.token? =
      ((place line ps).filterMap PlacedPiece.token?).map (Token.lower n) := by
  induction ps generalizing line with
  | nil => rfl
  | cons p ps ih =>
    have hline : p.lineAfter (line + n) = p.lineAfter line + n := by
      rw [Piece.lineAfter, Piece.lineAfter]
      omega
    have htoken : PlacedPiece.token? ⟨p, p.lineAfter line + n⟩ =
        (PlacedPiece.token? ⟨p, p.lineAfter line⟩).map (Token.lower n) := by
      rcases p with ⟨form, text⟩
      cases form <;> simp [PlacedPiece.token?, Token.lower]
    rw [place, place, hline, List.filterMap_cons, List.filterMap_cons, htoken, ih]
    cases PlacedPiece.token? ⟨p, p.lineAfter line⟩ <;> rfl

/-! ### Two texts -/

/-- A text without faults has no piece to complain about. -/
theorem complaint?_eq_none {source : String} {ps : List Piece} (h : Cutting source.toList ps)
    (hfaults : (scan source).faults = []) : ps.filterMap Piece.complaint? = [] := by
  have hnone := map_faults h
  rw [hfaults, List.map_nil] at hnone
  exact List.map_eq_nil_iff.mp hnone.symm

/-- **Scanning** two texts with a line feed between them finds the tokens of the first without its
end token, and those of the second further down, if the first text has no fault. -/
theorem scan_append_newline {a : String} (ha : (scan a).faults = []) (b : String) :
    let tokens := (scan a).tokens.dropLast ++
      (scan b).tokens.map (Token.lower (1 + a.toList.count '\n'))
    (scan (a ++ "\n" ++ b)).tokens = tokens ∧
      ((scan b).faults = [] → (scan (a ++ "\n" ++ b)).faults = []) := by
  obtain ⟨ps, hps⟩ := exists_cutting a.toList
  obtain ⟨qs, hqs⟩ := exists_cutting b.toList
  have hnone := complaint?_eq_none hps ha
  have hclosed : ∀ p ∈ ps, p.form ≠ .unclosed := by
    intro p hp hform
    have hsilent := List.filterMap_eq_nil_iff.mp hnone p hp
    rw [Piece.complaint?, hform] at hsilent
    cases hsilent
  have htext : (a ++ "\n" ++ b).toList = a.toList ++ '\n' :: b.toList := by simp
  have hcutting : Cutting (a ++ "\n" ++ b).toList (ps ++ ⟨.blank, ['\n']⟩ :: qs) :=
    htext ▸ hps.append_newline hclosed hqs
  refine ⟨?_, fun hb => ?_⟩
  · have hlines : 1 + a.toList.count '\n' + 1 = 1 + (1 + a.toList.count '\n') := by omega
    have hend : Token.atEnd (1 + (a ++ "\n" ++ b).toList.count '\n' : Nat) =
        (Token.atEnd (1 + b.toList.count '\n' : Nat)).lower (1 + a.toList.count '\n') := by
      rw [htext, List.count_append, List.count_cons_self]
      refine congrArg Token.atEnd ?_
      simp only [Token.atEnd]
      omega
    rw [scan_eq_of_cutting hcutting, scan_eq_of_cutting hps, scan_eq_of_cutting hqs, hend,
      place_append, hps.flatMap_text, place, Piece.lineAfter, List.filterMap_append,
      List.filterMap_cons]
    simp only [PlacedPiece.token?, List.dropLast_concat, List.map_append, List.map_cons,
      List.map_nil, List.append_assoc]
    rw [List.count_singleton_self, hlines, filterMap_token?_place_add]
  · have hfaults := map_faults hcutting
    rw [List.filterMap_append, hnone, List.nil_append, List.filterMap_cons,
      complaint?_eq_none hqs hb] at hfaults
    exact List.map_eq_nil_iff.mp hfaults

end LoxLang
