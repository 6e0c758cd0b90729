import LoxLang.Token

/-!
# Cutting a text into lexemes

A text is a sequence of **pieces**: lexemes of tokens, blanks, comments, characters that start no
lexeme, and possibly a string at the end that is never closed. `Piece.next` takes the longest piece
that starts with a given character, and `cut` cuts a whole text. Nothing is lost: the texts of the
pieces, joined, are the text (`flatMap_text_cut`).

The **line** is counted on the way. It goes on in two places: at a line feed between the lexemes,
and at a line feed in a string.
-/

namespace LoxLang

/-- What a piece of a program's text is. -/
inductive PieceForm
  | token (kind : TokenKind)
  | blank
  | comment
  /-- A character that starts no lexeme. -/
  | stray
  /-- A string without a closing quote, up to the end of the text. -/
  | unclosed
  deriving DecidableEq

/-- A **piece** of a program's text. -/
structure Piece where
  form : PieceForm
  text : List Char
  deriving DecidableEq

/-- A piece with the line its text ends on, that is, the line of the character behind it. -/
structure PlacedPiece extends Piece where
  line : Nat

/-! ### Characters -/

/-- The decimal digits of ASCII. -/
def isDigit (c : Char) : Bool := decide ('0' ≤ c ∧ c ≤ '9')

/-- The letters of ASCII and the underscore. -/
def isAlpha (c : Char) : Bool :=
  decide ('a' ≤ c ∧ c ≤ 'z' ∨ 'A' ≤ c ∧ c ≤ 'Z' ∨ c = '_')

/-- What may follow the first letter of a word. -/
def isAlphanumeric (c : Char) : Bool := isAlpha c || isDigit c

/-- The characters that are a token wherever they start a piece. -/
def single? : Char → Option TokenKind
  | '(' => some .leftParen
  | ')' => some .rightParen
  | '{' => some .leftBrace
  | '}' => some .rightBrace
  | ',' => some .comma
  | '.' => some .dot
  | '-' => some .minus
  | '+' => some .plus
  | ';' => some .semicolon
  | '*' => some .star
  | _ => none

/-- The characters that are a token alone, and another one with an equals sign behind them. -/
def withEqual? : Char → Option (TokenKind × TokenKind)
  | '!' => some (.bang, .bangEqual)
  | '=' => some (.equal, .equalEqual)
  | '<' => some (.less, .lessEqual)
  | '>' => some (.greater, .greaterEqual)
  | _ => none

/-- The kind of a word: a reserved word or a name. -/
def wordKind (cs : List Char) : TokenKind :=
  match Keyword.ofSpelling? (String.ofList cs) with
  | some k => .keyword k
  | none => .identifier

/-! ### One piece -/

namespace Piece

/-- A piece and the text behind it. -/
abbrev Split := Piece × List Char

/-- A piece that ends on a line, and the text behind it. -/
abbrev PlacedSplit := PlacedPiece × List Char

/-- A piece that ends on the line on which it begins. -/
def Split.on (line : Nat) (split : Split) : PlacedSplit := (⟨split.1, line⟩, split.2)

/-- The longest run of characters in `cs` that satisfy `p`, behind the characters `start`. -/
def run (form : PieceForm) (start : List Char) (p : Char → Bool) (cs : List Char) : Split :=
  (⟨form, start ++ cs.takeWhile p⟩, cs.dropWhile p)

/-- A comment behind its two slashes: all up to the end of the line. -/
def comment (cs : List Char) : Split := run .comment ['/', '/'] (fun c => c != '\n') cs

/-- A string of which the characters `done` are read, latest first. It ends at the next quote, if
there is one. The line goes on at each line feed before that. -/
def stringBehind (done : List Char) (line : Nat) : List Char → PlacedSplit
  | [] => Split.on line (⟨.unclosed, done.reverse⟩, [])
  | c :: cs =>
    if c = '"' then Split.on line (⟨.token .string, (c :: done).reverse⟩, cs)
    else stringBehind (c :: done) (if c = '\n' then line + 1 else line) cs

/-- A string behind its opening quote, which is on `line`. -/
def string (line : Nat) (cs : List Char) : PlacedSplit := stringBehind ['"'] line cs

/-- A number with the first digit `d`. The point belongs to it if a digit follows the point. -/
def number (d : Char) (cs : List Char) : Split :=
  let whole := d :: cs.takeWhile isDigit
  match cs.dropWhile isDigit with
  | '.' :: c :: rest =>
    if isDigit c then run (.token .number) (whole ++ ['.', c]) isDigit rest
    else (⟨.token .number, whole⟩, '.' :: c :: rest)
  | rest => (⟨.token .number, whole⟩, rest)

/-- A word with the first letter `c`. -/
def word (c : Char) (cs : List Char) : Split :=
  let text := c :: cs.takeWhile isAlphanumeric
  (⟨.token (wordKind text), text⟩, cs.dropWhile isAlphanumeric)

/-- The **longest piece** that starts with `c` on `line`, and what follows it. -/
def next (line : Nat) (c : Char) (cs : List Char) : PlacedSplit :=
  match single? c, withEqual? c with
  | some kind, _ => Split.on line (⟨.token kind, [c]⟩, cs)
  | none, some (alone, paired) =>
    match cs with
    | '=' :: rest => Split.on line (⟨.token paired, [c, '=']⟩, rest)
    | _ => Split.on line (⟨.token alone, [c]⟩, cs)
  | none, none =>
    if c = '/' then
      match cs with
      | '/' :: rest => Split.on line (comment rest)
      | _ => Split.on line (⟨.token .slash, [c]⟩, cs)
    else if c = ' ' ∨ c = '\r' ∨ c = '\t' then Split.on line (⟨.blank, [c]⟩, cs)
    else if c = '\n' then Split.on (line + 1) (⟨.blank, [c]⟩, cs)
    else if c = '"' then string line cs
    else if isDigit c then Split.on line (number c cs)
    else if isAlpha c then Split.on line (word c cs)
    else Split.on line (⟨.stray, [c]⟩, cs)

/-! ### Nothing is lost -/

theorem text_append_run (form : PieceForm) (start : List Char) (p : Char → Bool)
    (cs : List Char) : (run form start p cs).1.text ++ (run form start p cs).2 = start ++ cs := by
  simp [run, List.takeWhile_append_dropWhile]

theorem text_append_stringBehind (done : List Char) (line : Nat) (cs : List Char) :
    (stringBehind done line cs).1.text ++ (stringBehind done line cs).2 = done.reverse ++ cs := by
  induction cs generalizing done line with
  | nil => rfl
  | cons c cs ih =>
    rw [stringBehind]
    split
    · simp [Split.on]
    · rw [ih, List.reverse_cons, List.append_assoc]
      rfl

/-- What is read of a string belongs to it. -/
theorem reverse_isPrefix_text_stringBehind (done : List Char) (line : Nat) (cs : List Char) :
    done.reverse <+: (stringBehind done line cs).1.text := by
  induction cs generalizing done line with
  | nil => exact List.prefix_refl _
  | cons c cs ih =>
    have hdone : done.reverse <+: (c :: done).reverse := by simp
    rw [stringBehind]
    split
    · exact hdone
    · exact hdone.trans (ih _ _)

theorem text_append_number (d : Char) (cs : List Char) :
    (number d cs).1.text ++ (number d cs).2 = d :: cs := by
  have h := List.takeWhile_append_dropWhile (p := isDigit) (l := cs)
  unfold number
  split
  · next c rest hd =>
    rw [hd] at h
    split
    · rw [text_append_run, List.append_assoc]
      exact congrArg (List.cons d) h
    · exact congrArg (List.cons d) h
  · exact congrArg (List.cons d) h

theorem text_append_word (c : Char) (cs : List Char) :
    (word c cs).1.text ++ (word c cs).2 = c :: cs := by
  simp [word, List.takeWhile_append_dropWhile]

/-- A piece and the rest behind it are the whole text. -/
theorem text_append_next (line : Nat) (c : Char) (cs : List Char) :
    (next line c cs).1.text ++ (next line c cs).2 = c :: cs := by
  unfold next
  split
  · rfl
  · split <;> rfl
  · split
    · next hslash =>
      subst hslash
      split
      · next rest => exact text_append_run _ _ _ rest
      · rfl
    split
    · rfl
    split
    · rfl
    split
    · next hquote =>
      subst hquote
      exact text_append_stringBehind _ line cs
    split
    · exact text_append_number c cs
    split
    · exact text_append_word c cs
    · rfl

theorem text_string_ne_nil (line : Nat) (cs : List Char) : (string line cs).1.text ≠ [] := by
  intro hnil
  have hquote := reverse_isPrefix_text_stringBehind ['"'] line cs
  rw [← string, hnil] at hquote
  exact absurd (List.prefix_nil.mp hquote) (List.cons_ne_nil _ _)

theorem text_number_ne_nil (d : Char) (cs : List Char) : (number d cs).1.text ≠ [] := by
  unfold number run
  repeat' split
  all_goals simp

theorem text_next_ne_nil (line : Nat) (c : Char) (cs : List Char) :
    (next line c cs).1.text ≠ [] := by
  unfold next
  split
  · exact List.cons_ne_nil _ _
  · split <;> exact List.cons_ne_nil _ _
  · split
    · split <;> exact List.cons_ne_nil _ _
    split
    · exact List.cons_ne_nil _ _
    split
    · exact List.cons_ne_nil _ _
    split
    · exact text_string_ne_nil line cs
    split
    · exact text_number_ne_nil c cs
    split
    · exact List.cons_ne_nil _ _
    · exact List.cons_ne_nil _ _

/-- The rest behind a piece is shorter than the text. -/
theorem length_next_le (line : Nat) (c : Char) (cs : List Char) :
    (next line c cs).2.length ≤ cs.length := by
  have h := congrArg List.length (text_append_next line c cs)
  have := List.length_pos_iff.2 (text_next_ne_nil line c cs)
  simp only [List.length_append, List.length_cons] at h
  omega

end Piece

/-! ### All pieces -/

/-- The pieces of a text that starts on `line`, behind the pieces `done`, latest first, and the line
that the text ends on. -/
def cutBehind (done : List PlacedPiece) (line : Nat) : List Char → List PlacedPiece × Nat
  | [] => (done.reverse, line)
  | c :: cs =>
    let split := Piece.next line c cs
    cutBehind (split.1 :: done) split.1.line split.2
termination_by cs => cs.length
decreasing_by exact Nat.lt_succ_of_le (Piece.length_next_le line c cs)

/-- The **pieces** of a text that starts on `line`, each the longest one at its place, and the line
that the text ends on. -/
def cut (line : Nat) (cs : List Char) : List PlacedPiece × Nat := cutBehind [] line cs

@[simp]
theorem cutBehind_nil (done : List PlacedPiece) (line : Nat) :
    cutBehind done line [] = (done.reverse, line) := by rw [cutBehind]

theorem cutBehind_cons (done : List PlacedPiece) (line : Nat) (c : Char) (cs : List Char) :
    cutBehind done line (c :: cs) =
      cutBehind ((Piece.next line c cs).1 :: done) (Piece.next line c cs).1.line
        (Piece.next line c cs).2 := by rw [cutBehind]

theorem cutBehind_eq_append (done : List PlacedPiece) (line : Nat) (cs : List Char) :
    cutBehind done line cs = (done.reverse ++ (cut line cs).1, (cut line cs).2) := by
  induction hn : cs.length using Nat.strongRecOn generalizing done line cs with
  | ind n ih =>
    cases cs with
    | nil => simp [cut]
    | cons c cs =>
      have hlt : (Piece.next line c cs).2.length < n :=
        hn ▸ Nat.lt_succ_of_le (Piece.length_next_le line c cs)
      rw [cut, cutBehind_cons, cutBehind_cons, ih _ hlt _ _ _ rfl, ih _ hlt [_] _ _ rfl]
      simp

@[simp]
theorem cut_nil (line : Nat) : cut line [] = ([], line) := cutBehind_nil [] line

/-- A text that is not empty is its longest first piece and the pieces of the rest. -/
theorem cut_cons (line : Nat) (c : Char) (cs : List Char) :
    cut line (c :: cs) =
      ((Piece.next line c cs).1 ::
          (cut (Piece.next line c cs).1.line (Piece.next line c cs).2).1,
        (cut (Piece.next line c cs).1.line (Piece.next line c cs).2).2) := by
  rw [cut, cutBehind_cons, cutBehind_eq_append]
  rfl

/-- The pieces of a text, joined, are the text. -/
theorem flatMap_text_cut (line : Nat) (cs : List Char) :
    (cut line cs).1.flatMap (fun p => p.text) = cs := by
  induction hn : cs.length using Nat.strongRecOn generalizing line cs with
  | ind n ih =>
    cases cs with
    | nil => simp
    | cons c cs =>
      have hlt : (Piece.next line c cs).2.length < n :=
        hn ▸ Nat.lt_succ_of_le (Piece.length_next_le line c cs)
      rw [cut_cons, List.flatMap_cons, ih _ hlt _ _ rfl, Piece.text_append_next]

end LoxLang
