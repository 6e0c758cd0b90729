import LoxLang.Token.Piece

/-!
# Lexical rules

The lexemes of the language, as a relation between kinds of tokens and texts, and the **pieces**
that a program's text is made of, as a relation between a piece and the text behind it. Nothing here
says how a text is read: `Stands` says what a piece is, and `Longest` that no longer lexeme begins
at its place.

A text has one kind at most (`Lexeme.kind_unique`), since its first character shows which rule
it belongs to.
-/

namespace LoxLang

/-! ### Lexemes -/

/-- The lexemes of one or two symbols. -/
def symbols : List (List Char × TokenKind) :=
  [(['('], .leftParen), ([')'], .rightParen), (['{'], .leftBrace), (['}'], .rightBrace),
   ([','], .comma), (['.'], .dot), (['-'], .minus), (['+'], .plus), ([';'], .semicolon),
   (['/'], .slash), (['*'], .star), (['!'], .bang), (['!', '='], .bangEqual), (['='], .equal),
   (['=', '='], .equalEqual), (['>'], .greater), (['>', '='], .greaterEqual), (['<'], .less),
   (['<', '='], .lessEqual)]

/-- One digit or more. -/
def IsDigits (cs : List Char) : Prop := cs ≠ [] ∧ ∀ c ∈ cs, isDigit c

/-- The text is a **lexeme** of a kind.

```
NUMBER ::= digit+ ("." digit+)?
STRING ::= '"' (any character but '"')* '"'
word ::= alpha (alpha | digit)*
```

A word is a reserved word if it is spelled like one, and an identifier if it is not. -/
inductive Lexeme : TokenKind → List Char → Prop
  | symbol {kind : TokenKind} {text : List Char} : (text, kind) ∈ symbols → Lexeme kind text
  | string {inner : List Char} : '"' ∉ inner → Lexeme .string ('"' :: inner ++ ['"'])
  | whole {digits : List Char} : IsDigits digits → Lexeme .number digits
  | decimal {whole fraction : List Char} : IsDigits whole → IsDigits fraction →
    Lexeme .number (whole ++ '.' :: fraction)
  | reserved (word : Keyword) : Lexeme (.keyword word) word.spelling.toList
  | identifier {c : Char} {cs : List Char} : isAlpha c → (∀ d ∈ cs, isAlphanumeric d) →
    (∀ word : Keyword, word.spelling.toList ≠ c :: cs) → Lexeme .identifier (c :: cs)

/-! ### Pieces -/

/-- The characters that are skipped. -/
def blanks : List Char := [' ', '\t', '\r', '\n']

/-- The piece can **stand** in front of a text: it is the lexeme of a token, but no slash that opens
a comment; a blank; a comment up to the end of its line; a character that begins no lexeme; or,
behind everything else, a string that is not closed. -/
inductive Stands : Piece → List Char → Prop
  | token {kind : TokenKind} {text rest : List Char} :
    Lexeme kind text → ¬ ['/', '/'] <+: text ++ rest → Stands ⟨.token kind, text⟩ rest
  | blank {c : Char} {rest : List Char} : c ∈ blanks → Stands ⟨.blank, [c]⟩ rest
  | comment {inner rest : List Char} :
    '\n' ∉ inner → (∀ c ∈ rest.head?, c = '\n') → Stands ⟨.comment, '/' :: '/' :: inner⟩ rest
  | stray {c : Char} {rest : List Char} :
    c ∉ blanks → (∀ kind text, ¬ Lexeme kind (c :: text)) → Stands ⟨.stray, [c]⟩ rest
  | unclosed {inner : List Char} : '"' ∉ inner → Stands ⟨.unclosed, '"' :: inner⟩ []

/-- If the piece is a token, then it is the **longest** lexeme at its place. -/
def Longest (p : Piece) (rest : List Char) : Prop :=
  ∀ kind, p.form = .token kind → ∀ kind' text, Lexeme kind' text → text <+: p.text ++ rest →
    text.length ≤ p.text.length

/-- A **cutting** of a text into pieces, each the longest one at its place. -/
inductive Cutting : List Char → List Piece → Prop
  | nil : Cutting [] []
  | cons {p : Piece} {rest : List Char} {ps : List Piece} :
    Stands p rest → Longest p rest → Cutting rest ps → Cutting (p.text ++ rest) (p :: ps)

/-! ### First characters -/

/-- No symbol begins like another lexeme, or with a blank. -/
theorem head_of_mem_symbols {c : Char} {cs : List Char} {kind : TokenKind}
    (h : (c :: cs, kind) ∈ symbols) :
    c ≠ '"' ∧ ¬ isDigit c ∧ ¬ isAlpha c ∧ c ∉ blanks := by
  have hall : symbols.all fun p => p.1.head?.all fun c =>
      c ≠ '"' ∧ ¬ isDigit c ∧ ¬ isAlpha c ∧ c ∉ blanks := by decide
  exact of_decide_eq_true (List.all_eq_true.mp hall _ h)

/-- A blank is no quote, no digit and no letter. -/
theorem of_mem_blanks {c : Char} (h : c ∈ blanks) : c ≠ '"' ∧ ¬ isDigit c ∧ ¬ isAlpha c := by
  simp only [blanks, List.mem_cons, List.not_mem_nil, or_false] at h
  rcases h with rfl | rfl | rfl | rfl <;> decide

theorem kind_eq_of_mem_symbols {text : List Char} {kind kind' : TokenKind}
    (h : (text, kind) ∈ symbols) (h' : (text, kind') ∈ symbols) : kind = kind' := by
  have hall : ∀ p ∈ symbols, ∀ q ∈ symbols, p.1 = q.1 → p.2 = q.2 := by decide
  exact hall _ h _ h' rfl

theorem not_isAlpha_of_isDigit {c : Char} (h : isDigit c) : ¬ isAlpha c := by
  have hle : c ≤ '9' := (of_decide_eq_true h).2
  intro halpha
  rcases of_decide_eq_true halpha with h' | h' | rfl
  · exact absurd (Char.le_trans h'.1 hle) (by decide)
  · exact absurd (Char.le_trans h'.1 hle) (by decide)
  · exact absurd hle (by decide)

/-- A reserved word is spelled with letters. -/
theorem exists_cons_spelling (word : Keyword) :
    ∃ c cs, word.spelling.toList = c :: cs ∧ isAlpha c ∧ ∀ d ∈ cs, isAlphanumeric d := by
  have hletters : ∀ d ∈ word.spelling.toList, isAlpha d :=
    List.all_eq_true.mp (by cases word <;> decide)
  have hne : word.spelling.toList ≠ [] := by cases word <;> decide
  obtain ⟨c, cs, h⟩ := List.exists_cons_of_ne_nil hne
  rw [h] at hletters
  obtain ⟨hc, hcs⟩ := List.forall_mem_cons.mp hletters
  exact ⟨c, cs, h, hc, fun d hd => by rw [isAlphanumeric, hcs d hd, Bool.true_or]⟩

theorem wordKind_spelling (word : Keyword) : wordKind word.spelling.toList = .keyword word := by
  cases word <;> decide

theorem wordKind_of_forall_ne {cs : List Char} (h : ∀ word : Keyword, word.spelling.toList ≠ cs) :
    wordKind cs = .identifier := by
  have hnone : Keyword.ofSpelling? (String.ofList cs) = none := by
    refine List.find?_eq_none.mpr fun word _ hword => h word ?_
    rw [eq_of_beq hword, String.toList_ofList]
  rw [wordKind, hnone]

namespace Lexeme

variable {kind kind' : TokenKind} {c : Char} {cs text : List Char}

/-- What is spelled with letters and digits is a lexeme. -/
theorem word (hc : isAlpha c) (hcs : ∀ d ∈ cs, isAlphanumeric d) :
    Lexeme (wordKind (c :: cs)) (c :: cs) := by
  by_cases h : ∃ word : Keyword, word.spelling.toList = c :: cs
  · obtain ⟨word, hword⟩ := h
    rw [← hword, wordKind_spelling]
    exact .reserved word
  · have hne : ∀ word : Keyword, word.spelling.toList ≠ c :: cs := fun word h' => h ⟨word, h'⟩
    rw [wordKind_of_forall_ne hne]
    exact .identifier hc hcs hne

/-- No lexeme but a **string** goes on behind a blank. -/
theorem not_mem_of_mem_blanks (h : Lexeme kind text) (hkind : kind ≠ .string) (hc : c ∈ blanks) :
    c ∉ text := by
  obtain ⟨-, hdigit, hletter⟩ := of_mem_blanks hc
  have hdigits : ∀ {cs}, IsDigits cs → c ∉ cs := fun h hmem => hdigit (h.2 c hmem)
  have hword : ∀ {cs : List Char}, (∀ d ∈ cs, isAlphanumeric d) → c ∉ cs := by
    intro cs hcs hmem
    rcases Bool.or_eq_true_iff.mp (hcs c hmem) with h | h
    · exact hletter h
    · exact hdigit h
  cases h with
  | symbol h =>
    have hall : symbols.all fun p => blanks.all fun d => d ∉ p.1 := by decide
    exact of_decide_eq_true (List.all_eq_true.mp (List.all_eq_true.mp hall _ h) c hc)
  | string => exact absurd rfl hkind
  | whole h => exact hdigits h
  | decimal h h' =>
    have hpoint : c ≠ '.' := by
      rintro rfl
      exact absurd hc (by decide)
    simp only [List.mem_append, List.mem_cons, not_or]
    exact ⟨hdigits h, hpoint, hdigits h'⟩
  | reserved word =>
    obtain ⟨d, ds, h, hd, hds⟩ := exists_cons_spelling word
    rw [h]
    exact hword (List.forall_mem_cons.mpr ⟨by rw [isAlphanumeric, hd, Bool.true_or], hds⟩)
  | identifier hd hds _ =>
    exact hword (List.forall_mem_cons.mpr ⟨by rw [isAlphanumeric, hd, Bool.true_or], hds⟩)

theorem exists_cons (h : Lexeme kind text) : ∃ c cs, text = c :: cs := by
  refine List.exists_cons_of_ne_nil ?_
  cases h with
  | symbol h =>
    have hall : ∀ p ∈ symbols, p.1 ≠ [] := by decide
    exact hall _ h
  | string | identifier => exact List.cons_ne_nil _ _
  | whole h => exact h.1
  | decimal h => exact List.append_ne_nil_of_left_ne_nil h.1 _
  | reserved word =>
    obtain ⟨c, cs, h, -⟩ := exists_cons_spelling word
    rw [h]
    exact List.cons_ne_nil _ _

/-- The first character of a lexeme shows which rule it belongs to. -/
theorem of_cons (h : Lexeme kind (c :: cs)) :
    if c = '"' then kind = .string ∧ ∃ inner, '"' ∉ inner ∧ cs = inner ++ ['"']
    else if isDigit c then kind = .number
    else if isAlpha c then kind = wordKind (c :: cs) ∧ ∀ d ∈ cs, isAlphanumeric d
    else (c :: cs, kind) ∈ symbols := by
  have hdigit : isDigit c → c ≠ '"' := by
    rintro hc rfl
    exact absurd hc (by decide)
  have hletter : isAlpha c → c ≠ '"' ∧ ¬ isDigit c := by
    refine fun hc => ⟨?_, fun hc' => not_isAlpha_of_isDigit hc' hc⟩
    rintro rfl
    exact absurd hc (by decide)
  generalize htext : c :: cs = text at h
  cases h with
  | symbol h =>
    subst htext
    obtain ⟨hquote, hc, hc', -⟩ := head_of_mem_symbols h
    rwa [if_neg hquote, if_neg hc, if_neg hc']
  | @string inner h =>
    obtain ⟨rfl, rfl⟩ := List.cons.inj htext
    rw [if_pos rfl]
    exact ⟨rfl, inner, h, rfl⟩
  | whole h =>
    subst htext
    have hc := h.2 c List.mem_cons_self
    rw [if_neg (hdigit hc), if_pos hc]
  | @decimal whole fraction h =>
    obtain ⟨d, ds, rfl⟩ := List.exists_cons_of_ne_nil h.1
    obtain ⟨rfl, -⟩ := List.cons.inj htext
    have hc := h.2 c List.mem_cons_self
    rw [if_neg (hdigit hc), if_pos hc]
  | reserved word =>
    obtain ⟨d, ds, h, hd, hds⟩ := exists_cons_spelling word
    obtain ⟨rfl, rfl⟩ := List.cons.inj (htext.trans h)
    rw [if_neg (hletter hd).1, if_neg (hletter hd).2, if_pos hd, wordKind_spelling]
    exact ⟨rfl, hds⟩
  | identifier hc hcs hne =>
    obtain ⟨rfl, rfl⟩ := List.cons.inj htext
    rw [if_neg (hletter hc).1, if_neg (hletter hc).2, if_pos hc, wordKind_of_forall_ne hne]
    exact ⟨rfl, hcs⟩

/-- A text is a lexeme of **one kind** at most. -/
theorem kind_unique (h : Lexeme kind text) (h' : Lexeme kind' text) : kind = kind' := by
  obtain ⟨c, cs, rfl⟩ := h.exists_cons
  have hkind := h.of_cons
  have hkind' := h'.of_cons
  by_cases hquote : c = '"'
  · rw [if_pos hquote] at hkind hkind'
    exact hkind.1.trans hkind'.1.symm
  rw [if_neg hquote] at hkind hkind'
  by_cases hdigit : isDigit c
  · rw [if_pos hdigit] at hkind hkind'
    exact hkind.trans hkind'.symm
  rw [if_neg hdigit] at hkind hkind'
  by_cases hletter : isAlpha c
  · rw [if_pos hletter] at hkind hkind'
    exact hkind.1.trans hkind'.1.symm
  · rw [if_neg hletter] at hkind hkind'
    exact kind_eq_of_mem_symbols hkind hkind'

/-- A number has a whole part, and a fraction if it has a point. -/
theorem of_number (h : Lexeme .number text) :
    IsDigits text ∨
      ∃ whole fraction, IsDigits whole ∧ IsDigits fraction ∧ text = whole ++ '.' :: fraction := by
  cases h with
  | symbol h =>
    have hall : ∀ p ∈ symbols, p.2 ≠ .number := by decide
    exact absurd rfl (hall _ h)
  | whole h => exact .inl h
  | decimal h h' => exact .inr ⟨_, _, h, h', rfl⟩

theorem of_string (h : Lexeme .string text) :
    ∃ inner, '"' ∉ inner ∧ text = '"' :: inner ++ ['"'] := by
  cases h with
  | symbol h =>
    have hall : ∀ p ∈ symbols, p.2 ≠ .string := by decide
    exact absurd rfl (hall _ h)
  | string h => exact ⟨_, h, rfl⟩

/-- A lexeme is a **reserved word** exactly if it is spelled like it. -/
theorem eq_keyword_iff {word : Keyword} (h : Lexeme kind text) :
    kind = .keyword word ↔ text = word.spelling.toList := by
  constructor
  · rintro rfl
    cases h with
    | symbol h =>
      have hall : ∀ p ∈ symbols, ∀ word, p.2 ≠ .keyword word := by
        intro p hp word hword
        have hnone : ∀ p ∈ symbols, p.2 ∉ Keyword.all.map TokenKind.keyword := by decide
        exact hnone p hp (hword ▸ List.mem_map_of_mem (Keyword.mem_all word))
      exact absurd rfl (hall _ h word)
    | reserved => rfl
  · rintro rfl
    exact h.kind_unique (.reserved word)

/-- No lexeme begins with a blank. -/
theorem not_mem_blanks (h : Lexeme kind (c :: cs)) : c ∉ blanks := by
  intro hc
  obtain ⟨hquote, hdigit, hletter⟩ := of_mem_blanks hc
  have hsymbol := h.of_cons
  rw [if_neg hquote, if_neg hdigit, if_neg hletter] at hsymbol
  exact (head_of_mem_symbols hsymbol).2.2.2 hc

end Lexeme

end LoxLang
