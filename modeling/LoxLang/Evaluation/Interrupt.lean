import LoxLang.Value

/-!
# How evaluation ends early

A statement that does not run to its end is **interrupted**: by a runtime error of the program, by a
`return`, or because the run as a whole cannot go on. Return values stop at the call they return
from, runtime errors at the program, and an abort stops nowhere inside.
-/

namespace LoxLang

/-- What can go wrong when a program runs. -/
inductive RuntimeCause
  | operandNotNumber
  | operandsNotNumbers
  | operandsNotAddable
  | notCallable
  | wrongArity (expected actual : Nat)
  | undefinedVariable
  deriving DecidableEq

/-- A runtime error and the token it arose at. -/
structure RuntimeError where
  token : Token
  cause : RuntimeCause

/-- The wording of a runtime error at a token with the given lexeme. -/
def RuntimeCause.message (lexeme : String) : RuntimeCause → String
  | operandNotNumber => "Operand must be a number."
  | operandsNotNumbers => "Operands must be numbers."
  | operandsNotAddable => "Operands must be two numbers or two strings."
  | notCallable => "Can only call functions and classes."
  | wrongArity expected actual =>
    "Expected " ++ toString expected ++ " arguments but got " ++ toString actual ++ "."
  | undefinedVariable => "Undefined variable '" ++ lexeme ++ "'."

/-- The wording of a runtime error. -/
def RuntimeError.message (e : RuntimeError) : String := e.cause.message e.token.lexeme

/-- Why a run cannot go on. -/
inductive Abort
  /-- Statements, expressions and calls are nested too deeply. -/
  | overflow
  /-- A loop has used up its rounds. -/
  | unfinished
  /-- A tree has an operator that is none. No parsed program does. -/
  | unknownOperator (op : Token)

/-- Why a statement or expression is **interrupted**. -/
inductive Interrupt
  | failure (error : RuntimeError)
  /-- A `return` is on its way to the call it returns from. -/
  | returning (keyword : Token) (value : Value)
  | abort (reason : Abort)

end LoxLang
