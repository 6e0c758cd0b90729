import LoxLang.Token.Piece

/-!
# Scanning

`scan` reads a program's text into its tokens, one for every piece that is a lexeme, and ends the
list with the end token. It never stops on bad text: characters that start no lexeme and a string
that is never closed become faults, in the order of the text, and are skipped.
-/

namespace LoxLang

/-- What is wrong with a piece of text that is no lexeme. -/
inductive LexicalError
  | unexpectedCharacter (c : Char)
  | unterminatedString
  deriving DecidableEq

/-- The wording of a lexical error. -/
def LexicalError.message : LexicalError → String
  | unexpectedCharacter c => "Unexpected character '" ++ String.singleton c ++ "'."
  | unterminatedString => "Unterminated string."

/-- A lexical error and its line. -/
structure LexicalFault where
  line : Nat
  error : LexicalError
  deriving DecidableEq

/-- The tokens of a text, ended by the end token, and what was skipped. -/
structure Scan where
  tokens : List Token
  faults : List LexicalFault

/-- What the text of a token denotes: a string the text between its quotes, a number the double
nearest to its decimal. -/
def literalOf (kind : TokenKind) (text : List Char) : Literal :=
  match kind with
  | .string => .string (String.ofList (text.drop 1).dropLast)
  | .number =>
    let whole := text.takeWhile isDigit
    .number (Decimal.ofDigits whole (text.drop (whole.length + 1)))
  | .keyword .true_ => .bool true
  | .keyword .false_ => .bool false
  | _ => .nil

namespace PlacedPiece

/-- The token of a piece that is a lexeme. -/
def token? (p : PlacedPiece) : Option Token :=
  match p.form with
  | .token kind => some ⟨kind, String.ofList p.text, literalOf kind p.text, p.line⟩
  | _ => none

/-- The fault of a piece that is neither a lexeme nor skipped silently. -/
def fault? (p : PlacedPiece) : Option LexicalFault :=
  match p.form with
  | .stray => p.text.head?.map fun c => ⟨p.line, .unexpectedCharacter c⟩
  | .unclosed => some ⟨p.line, .unterminatedString⟩
  | _ => none

end PlacedPiece

/-- **Scans** a text. The first line is line one, and the end token is on the line that the text
ends on. -/
def scan (source : String) : Scan :=
  let (pieces, line) := cut 1 source.toList
  { tokens := pieces.filterMap PlacedPiece.token? ++ [Token.atEnd line]
    faults := pieces.filterMap PlacedPiece.fault? }

end LoxLang
