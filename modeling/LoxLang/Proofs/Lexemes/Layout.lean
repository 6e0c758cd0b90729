import LoxLang.Proofs.Lexemes.Concatenation

/-!
# Layout

The layout of a text does not matter: with any **separators** between the lexemes of a text, and in
front of them and behind them, there are the same tokens, on lines of their own
(`scan_respaced`). A separator begins with a blank, so that no lexeme goes on into it, and whatever
its comments hold ends with their line feeds, so that no comment goes on into a lexeme. The lexemes
themselves can be anything that is a token of some text. Where the text had two of them without a
blank between them, there is one now.
-/

namespace LoxLang

/-! ### Separators -/

/-- Text without lexemes: blanks, and comments together with the **line feeds** that end them. -/
inductive Filler : List Char → Prop
  | nil : Filler []
  | blank {c : Char} {cs : List Char} : c ∈ blanks → Filler cs → Filler (c :: cs)
  | comment {inner cs : List Char} :
    '\n' ∉ inner → Filler cs → Filler ('/' :: '/' :: inner ++ '\n' :: cs)

/-- A **separator** of lexemes: a blank, and what else has no lexemes. -/
structure Separator where
  blank : Char
  filler : List Char
  blank_mem : blank ∈ blanks
  isFiller : Filler filler

/-- The text of a separator. -/
def Separator.text (s : Separator) : List Char := s.blank :: s.filler

/-- The text of a separator that need not be there. -/
def Separator.textOf (s? : Option Separator) : List Char := s?.elim [] text

/-- A choice of **separators** for lexemes, the `i`-th one behind the `i`-th lexeme. -/
structure Spacing where
  front : Option Separator
  between : Nat → Separator
  behind : Option Separator

namespace Spacing

/-- The texts, each with a separator in front of it, from the `i`-th separator on. -/
def separated (s : Spacing) (i : Nat) : List (List Char) → List Char
  | [] => []
  | text :: texts => (s.between i).text ++ (text ++ s.separated (i + 1) texts)

/-- The texts with separators **between** them. -/
def joined (s : Spacing) : List (List Char) → List Char
  | [] => []
  | text :: texts => text ++ s.separated 0 texts

/-- The texts with all separators. -/
def apply (s : Spacing) (texts : List (List Char)) : List Char :=
  Separator.textOf s.front ++ (s.joined texts ++ Separator.textOf s.behind)

end Spacing

/-! ### Lexemes in front of blanks -/

/-- If there is something in the text, then it begins with a blank. -/
def BlankFirst (cs : List Char) : Prop := ∀ c ∈ cs.head?, c ∈ blanks

namespace Lexeme

variable {kind : TokenKind} {text rest : List Char}

/-- No lexeme opens a comment. -/
theorem not_isPrefix (h : Lexeme kind text) : ¬ ['/', '/'] <+: text := by
  rintro ⟨rest, rfl⟩
  have hsymbol := h.of_cons
  rw [if_neg (by decide), if_neg (by decide), if_neg (by decide)] at hsymbol
  have hall : ∀ p ∈ symbols, ¬ ['/', '/'] <+: p.1 := by decide
  exact hall _ hsymbol ⟨rest, rfl⟩

/-- What has no blank in it begins no further than the lexeme, if there is a blank **behind** the
lexeme. -/
theorem isPrefix_of_blankFirst {cs : List Char} (hrest : BlankFirst rest)
    (hcs : ∀ c ∈ blanks, c ∉ cs) (h : cs <+: text ++ rest) : cs <+: text := by
  cases rest with
  | nil => rwa [List.append_nil] at h
  | cons c rest => exact isPrefix_of_append_cons (hcs c (hrest c rfl)) h

/-- A lexeme with a blank **behind** it, or nothing, is cut off from what follows. -/
theorem cutting {ps : List Piece} (h : Lexeme kind text) (hrest : BlankFirst rest)
    (hps : Cutting rest ps) : Cutting (text ++ rest) (⟨.token kind, text⟩ :: ps) := by
  refine .cons (.token h fun hslash => ?_) (fun _ _ kind' text' h' hfront => ?_) hps
  · have hblank : blanks.all fun c => c ∉ ['/', '/'] := by decide
    have hslashes := isPrefix_of_blankFirst hrest
      (fun c hc => of_decide_eq_true (List.all_eq_true.mp hblank c hc)) hslash
    exact h.not_isPrefix hslashes
  · by_cases hstring : kind' = .string
    · subst hstring
      exact h.length_le_of_string h' hfront
    · have hblank : ∀ c ∈ blanks, c ∉ text' := fun _ => h'.not_mem_of_mem_blanks hstring
      exact (isPrefix_of_blankFirst hrest hblank hfront).length_le

end Lexeme

/-! ### Texts that are read -/

/-- The text has just these **lexemes**, and nothing in it is complained about. -/
def Reads (cs : List Char) (lexemes : List (TokenKind × String)) : Prop :=
  ∃ ps, Cutting cs ps ∧ ps.filterMap Piece.lexeme? = lexemes ∧ ps.filterMap Piece.complaint? = []

namespace Reads

variable {cs rest : List Char} {lexemes : List (TokenKind × String)}

theorem nil : Reads [] [] := ⟨[], .nil, rfl, rfl⟩

theorem lexeme {l : TokenKind × String} (hl : Lexeme l.1 l.2.toList) (hrest : BlankFirst rest)
    (h : Reads rest lexemes) : Reads (l.2.toList ++ rest) (l :: lexemes) := by
  obtain ⟨ps, hps, hlexemes, hsilent⟩ := h
  refine ⟨_, hl.cutting hrest hps, ?_, hsilent⟩
  rw [List.filterMap_cons, hlexemes, Piece.lexeme?, String.ofList_toList]

/-- **Filler** is neither read nor complained about. -/
theorem filler (hcs : Filler cs) (h : Reads rest lexemes) : Reads (cs ++ rest) lexemes := by
  induction hcs with
  | nil => exact h
  | blank hc _ ih =>
    obtain ⟨ps, hps, hread⟩ := ih
    exact ⟨_, .cons (.blank hc) nofun hps, hread⟩
  | @comment inner cs hinner _ ih =>
    obtain ⟨ps, hps, hread⟩ := ih
    -- The line feed that ends the comment is a piece of its own.
    have hfeed : Cutting ('\n' :: (cs ++ rest)) (⟨.blank, ['\n']⟩ :: ps) :=
      .cons (.blank (by decide)) nofun hps
    have hcomment : Stands ⟨.comment, '/' :: '/' :: inner⟩ ('\n' :: (cs ++ rest)) :=
      .comment hinner fun _ hc => (Option.some.inj hc).symm
    rw [List.append_assoc]
    exact ⟨_, .cons hcomment nofun hfeed, hread⟩

theorem separator (s : Separator) (h : Reads rest lexemes) :
    Reads (s.text ++ rest) lexemes :=
  filler (.blank s.blank_mem s.isFiller) h

theorem textOf (s? : Option Separator) (h : Reads rest lexemes) :
    Reads (Separator.textOf s? ++ rest) lexemes := by
  cases s? with
  | none => exact h
  | some s => exact separator s h

/-- Lexemes are read with separators **in front** of each of them. -/
theorem separated (s : Spacing) (i : Nat) (hl : ∀ l ∈ lexemes, Lexeme l.1 l.2.toList)
    (hrest : BlankFirst rest) (h : Reads rest []) :
    BlankFirst (s.separated i (lexemes.map fun l => l.2.toList) ++ rest) ∧
      Reads (s.separated i (lexemes.map fun l => l.2.toList) ++ rest) lexemes := by
  induction lexemes generalizing i with
  | nil => exact ⟨hrest, h⟩
  | cons l lexemes ih =>
    obtain ⟨hfirst, hlexemes⟩ := List.forall_mem_cons.mp hl
    obtain ⟨hblank, hread⟩ := ih (i + 1) hlexemes
    rw [List.map_cons, Spacing.separated, List.append_assoc, List.append_assoc]
    refine ⟨fun c hc => ?_, separator _ (lexeme hfirst hblank hread)⟩
    cases hc
    exact (s.between i).blank_mem

/-- Lexemes are read with **all** separators. -/
theorem apply (s : Spacing) (hl : ∀ l ∈ lexemes, Lexeme l.1 l.2.toList) :
    Reads (s.apply (lexemes.map fun l => l.2.toList)) lexemes := by
  have hbehind : Reads (Separator.textOf s.behind) [] := by
    have h := textOf s.behind nil
    rwa [List.append_nil] at h
  have hblank : BlankFirst (Separator.textOf s.behind) := by
    intro c hc
    cases hs : s.behind with
    | none => simp [hs, Separator.textOf] at hc
    | some separator =>
      rw [hs] at hc
      cases hc
      exact separator.blank_mem
  refine textOf s.front ?_
  cases lexemes with
  | nil => exact hbehind
  | cons l lexemes =>
    obtain ⟨hfirst, hlexemes⟩ := List.forall_mem_cons.mp hl
    obtain ⟨hblank', hread⟩ := separated s 0 hlexemes hblank hbehind
    rw [List.map_cons, Spacing.joined, List.append_assoc]
    exact lexeme hfirst hblank' hread

end Reads

/-! ### Scanning -/

/-- The token without its line. -/
def Token.unplaced (t : Token) : TokenKind × String × Literal := (t.kind, t.lexeme, t.literal)

/-- What a token denotes is known from its kind and its **lexeme**. -/
theorem literal_eq_literalOf {source : String} {t : Token} (ht : t ∈ (scan source).tokens) :
    t.literal = literalOf t.kind t.lexeme.toList := by
  obtain ⟨ps, hps⟩ := exists_cutting source.toList
  rcases mem_tokens hps ht with rfl | ⟨text, -, hlexeme, hliteral⟩
  · rfl
  · rw [hlexeme, String.toList_ofList, hliteral]

theorem map_unplaced_tokens (source : String) :
    (scan source).tokens.map Token.unplaced =
      ((scan source).tokens.map fun t => (t.kind, t.lexeme)).map fun l =>
        (l.1, l.2, literalOf l.1 l.2.toList) := by
  rw [List.map_map]
  refine List.map_congr_left fun t ht => ?_
  rw [Token.unplaced, literal_eq_literalOf ht]
  rfl

/-- A text that is read has the tokens that it is **read** as, and no fault. -/
theorem Reads.scan {source : String} {lexemes : List (TokenKind × String)}
    (h : Reads source.toList lexemes) :
    (scan source).faults = [] ∧
      (LoxLang.scan source).tokens.map (fun t => (t.kind, t.lexeme)) =
        lexemes ++ [(.eof, "")] := by
  obtain ⟨ps, hps, hlexemes, hsilent⟩ := h
  have hfaults := map_faults hps
  rw [hsilent] at hfaults
  exact ⟨List.map_eq_nil_iff.mp hfaults, by rw [map_tokens hps, hlexemes]⟩

/-- **Layout does not matter.** With any separators between the lexemes of a text, and none or some
in front of them and behind them, scanning finds nothing wrong, and it finds the same tokens, in the
same order: of the same kinds, with the same lexemes, and denoting the same. -/
theorem scan_respaced (source : String) (spacing : Spacing) :
    let lexemes := (scan source).tokens.dropLast.map fun t => t.lexeme.toList
    let respaced := String.ofList (spacing.apply lexemes)
    (scan respaced).faults = [] ∧
      (scan respaced).tokens.map (fun t => (t.kind, t.lexeme, t.literal)) =
        (scan source).tokens.map fun t => (t.kind, t.lexeme, t.literal) := by
  intro lexemes respaced
  obtain ⟨ps, hps⟩ := exists_cutting source.toList
  have hlexeme : ∀ l ∈ ps.filterMap Piece.lexeme?, Lexeme l.1 l.2.toList := by
    intro l hl
    obtain ⟨p, hp, hl⟩ := List.mem_filterMap.mp hl
    obtain ⟨rest, hstands⟩ := hps.exists_stands hp
    cases hstands with
    | token htext =>
      cases hl
      rwa [String.toList_ofList]
    | _ => cases hl
  have hlexemes : lexemes = (ps.filterMap Piece.lexeme?).map fun l => l.2.toList := by
    have hlast := congrArg (fun ls => ls.dropLast.map fun l => l.2.toList) (map_tokens hps)
    simp only [List.dropLast_concat, ← List.map_dropLast, List.map_map] at hlast
    exact hlast
  have hread : Reads respaced.toList (ps.filterMap Piece.lexeme?) := by
    rw [String.toList_ofList, hlexemes]
    exact .apply spacing hlexeme
  obtain ⟨hfaults, htokens⟩ := hread.scan
  refine ⟨hfaults, ?_⟩
  calc (scan respaced).tokens.map Token.unplaced
      = ((scan respaced).tokens.map fun t => (t.kind, t.lexeme)).map fun l =>
          (l.1, l.2, literalOf l.1 l.2.toList) := map_unplaced_tokens respaced
    _ = ((scan source).tokens.map fun t => (t.kind, t.lexeme)).map fun l =>
          (l.1, l.2, literalOf l.1 l.2.toList) := by rw [htokens, map_tokens hps]
    _ = (scan source).tokens.map Token.unplaced := (map_unplaced_tokens source).symm

end LoxLang
