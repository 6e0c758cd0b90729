import LoxLang.Token

/-!
# Programs

A program is a list of statements over expressions. Names, operators and the keywords and
parentheses that diagnostics point at are kept as tokens. There is no node for a `for` loop:
`Stmt.forLoop` builds it from a `while` loop and blocks.
-/

namespace LoxLang

/-- **Expressions**. -/
inductive Expr
  | literal (value : Literal)
  | grouping (inner : Expr)
  | unary (op : Token) (operand : Expr)
  | binary (left : Expr) (op : Token) (right : Expr)
  /-- A conjunction or disjunction, which need not evaluate its right operand. -/
  | logical (left : Expr) (op : Token) (right : Expr)
  /-- The use of a variable. -/
  | name (token : Token)
  | assign (target : Token) (value : Expr)
  /-- A call, with its closing parenthesis. -/
  | call (callee : Expr) (paren : Token) (arguments : List Expr)

/-- **Statements**. -/
inductive Stmt
  | expression (value : Expr)
  | print (value : Expr)
  /-- A variable declaration. -/
  | declare (target : Token) (value : Option Expr)
  | block (body : List Stmt)
  | branch (condition : Expr) (yes : Stmt) (no : Option Stmt)
  | loop (condition : Expr) (body : Stmt)
  /-- A function declaration. -/
  | function (target : Token) (parameters : List Token) (body : List Stmt)
  | returnValue (keyword : Token) (value : Option Expr)

/-- The statement `for (start; condition; step) body`: the step is run behind the body, a missing
condition holds, and the start is in scope of the loop alone. -/
def Stmt.forLoop (start : Option Stmt) (condition step : Option Expr) (body : Stmt) : Stmt :=
  let round := match step with
    | some e => block [body, expression e]
    | none => body
  let repeated := loop (condition.getD (.literal (.bool true))) round
  match start with
  | some s => block [s, repeated]
  | none => repeated

end LoxLang
