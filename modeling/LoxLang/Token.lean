import LoxLang.Number.Decimal

/-!
# Tokens

A token is a lexeme of a program with its kind, the value it denotes if it denotes one, and the
line it ends on. Token lists are the data between scanning and parsing; syntax trees keep the
tokens of names, operators and keywords, so that a diagnostic can say where it arose.
-/

namespace LoxLang

/-- The reserved words. -/
inductive Keyword
  | and_ | class_ | else_ | false_ | fun_ | for_ | if_ | nil_
  | or_ | print_ | return_ | super_ | this_ | true_ | var_ | while_
  deriving DecidableEq

namespace Keyword

/-- How a reserved word is spelled. -/
def spelling : Keyword → String
  | and_ => "and"
  | class_ => "class"
  | else_ => "else"
  | false_ => "false"
  | fun_ => "fun"
  | for_ => "for"
  | if_ => "if"
  | nil_ => "nil"
  | or_ => "or"
  | print_ => "print"
  | return_ => "return"
  | super_ => "super"
  | this_ => "this"
  | true_ => "true"
  | var_ => "var"
  | while_ => "while"

/-- All reserved words. -/
def all : List Keyword :=
  [and_, class_, else_, false_, fun_, for_, if_, nil_,
   or_, print_, return_, super_, this_, true_, var_, while_]

/-- The reserved word with a spelling. -/
def ofSpelling? (s : String) : Option Keyword := all.find? fun k => k.spelling == s

theorem mem_all (k : Keyword) : k ∈ all := by cases k <;> decide

end Keyword

/-- The kinds of tokens. -/
inductive TokenKind
  | leftParen | rightParen | leftBrace | rightBrace
  | comma | dot | minus | plus | semicolon | slash | star
  | bang | bangEqual | equal | equalEqual | greater | greaterEqual | less | lessEqual
  | identifier | string | number
  | keyword (word : Keyword)
  | eof
  deriving DecidableEq

namespace TokenKind

/-- The name of a kind in token listings: upper case, a reserved word under its own spelling. -/
def name : TokenKind → String
  | leftParen => "LEFT_PAREN"
  | rightParen => "RIGHT_PAREN"
  | leftBrace => "LEFT_BRACE"
  | rightBrace => "RIGHT_BRACE"
  | comma => "COMMA"
  | dot => "DOT"
  | minus => "MINUS"
  | plus => "PLUS"
  | semicolon => "SEMICOLON"
  | slash => "SLASH"
  | star => "STAR"
  | bang => "BANG"
  | bangEqual => "BANG_EQUAL"
  | equal => "EQUAL"
  | equalEqual => "EQUAL_EQUAL"
  | greater => "GREATER"
  | greaterEqual => "GREATER_EQUAL"
  | less => "LESS"
  | lessEqual => "LESS_EQUAL"
  | identifier => "IDENTIFIER"
  | string => "STRING"
  | number => "NUMBER"
  | keyword word => word.spelling.toUpper
  | eof => "EOF"

/-- All kinds of tokens. -/
def all : List TokenKind :=
  [leftParen, rightParen, leftBrace, rightBrace, comma, dot, minus, plus, semicolon, slash, star,
   bang, bangEqual, equal, equalEqual, greater, greaterEqual, less, lessEqual,
   identifier, string, number] ++ Keyword.all.map keyword ++ [eof]

/-- The kind with a name. -/
def ofName? (s : String) : Option TokenKind := all.find? fun k => k.name == s

theorem mem_all (k : TokenKind) : k ∈ all := by
  cases k with
  | keyword word => simp [all, Keyword.mem_all]
  | _ => decide

end TokenKind

/-- What a literal token denotes, and what a literal expression evaluates to. Tokens that denote
nothing carry `nil`. -/
inductive Literal
  | nil
  | bool (value : Bool)
  | number (value : Float)
  | string (value : String)

/-- The text of a literal in token listings. -/
def Literal.listing : Literal → String
  | nil => "None"
  | bool true => "True"
  | bool false => "False"
  | number x => String.ofList (Decimal.shortest x)
  | string s => s

/-- A **token**. The line is the one its last character stands on; scanned lines start at one, and
a token made by other means may carry any integer. -/
structure Token where
  kind : TokenKind
  lexeme : String
  literal : Literal
  line : Int

namespace Token

/-- A token of one line in a token listing. -/
def listing (t : Token) : String := t.kind.name ++ " " ++ t.lexeme ++ " " ++ t.literal.listing

/-- The token behind the last lexeme of a text. -/
def atEnd (line : Int) : Token := ⟨.eof, "", .nil, line⟩

/-- A token that denotes nothing, on the first line. -/
def of (kind : TokenKind) (lexeme : String) : Token := ⟨kind, lexeme, .nil, 1⟩

end Token

end LoxLang
