import LoxLang.Token.Scan

/-!
# Diagnostics

A diagnostic is one line about a program that a user sees: the line number in the program, its
severity, the token it points at, and a message.
-/

namespace LoxLang

/-- How much a diagnostic matters. -/
inductive Severity
  /-- Found before the program runs. -/
  | static
  /-- The program was stopped. -/
  | runtime
  | warning
  deriving DecidableEq

/-- A **diagnostic**. The place is the text that points at a token, empty when there is none. -/
structure Diagnostic where
  line : Int
  place : String
  message : String
  severity : Severity
  deriving DecidableEq

/-- The text that points at a token. -/
def locate : Option Token → String
  | none => ""
  | some t => if t.kind = .eof then " at end" else " at '" ++ t.lexeme ++ "'"

/-- The diagnostic of a lexical fault points at no token. -/
def LexicalFault.diagnostic (f : LexicalFault) : Diagnostic :=
  ⟨f.line, "", f.error.message, .static⟩

/-- A diagnostic at a token. -/
def Diagnostic.atToken (severity : Severity) (t : Token) (message : String) : Diagnostic :=
  ⟨t.line, locate (some t), message, severity⟩

/-! ### Display -/

/-- The colours in use. -/
inductive Colour
  | red
  | magenta

/-- The terminal sequence that switches to a colour. -/
def Colour.sequence : Colour → String
  | red => "\x1b[31m"
  | magenta => "\x1b[35m"

/-- The text in bold and, if there is one, in a colour; as it is where `styled` is false. -/
def emphasised (styled : Bool) (colour : Option Colour) (text : String) : String :=
  if styled then "\x1b[1m" ++ (colour.map Colour.sequence).getD "" ++ text ++ "\x1b[0m" else text

namespace Severity

/-- The word for a severity. -/
def word : Severity → String
  | static => "error"
  | runtime => "runtime error"
  | warning => "warning"

/-- Errors are red, warnings magenta. -/
def colour : Severity → Colour
  | warning => .magenta
  | _ => .red

end Severity

/-- The **line** a diagnostic is shown as. -/
def Diagnostic.text (styled : Bool) (d : Diagnostic) : String :=
  emphasised styled none ("[line " ++ toString d.line ++ "] ") ++
    emphasised styled (some d.severity.colour) d.severity.word ++ d.place ++ ": " ++ d.message

end LoxLang
