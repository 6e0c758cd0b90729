import LoxLang.Program

/-!
# Outlines of programs

The outline of a program shows its structure: expressions in parentheses with the operator in
front, as in `(* (- 123) (group 45.67))`, and statements one to a line, nested ones indented by four
spaces more than the statement they belong to.
-/

namespace LoxLang

/-- The text of a literal in an outline: whole numbers as exact integers, other numbers as the
shortest text that reads back, strings in quotes as they are. -/
def Literal.source : Literal → String
  | nil => "nil"
  | bool true => "true"
  | bool false => "false"
  | number x => String.ofList (if Binary64.integral x then Decimal.whole x else Decimal.shortest x)
  | string s => "\"" ++ s ++ "\""

/-- A head and its operands, each behind a space, in parentheses. -/
def parenthesized (head : String) (operands : List String) : String :=
  "(" ++ head ++ operands.foldr (fun s rest => " " ++ s ++ rest) "" ++ ")"

mutual

/-- The **outline** of an expression. -/
def Expr.outline : Expr → String
  | literal value => value.source
  | grouping inner => parenthesized "group" [inner.outline]
  | unary op operand => parenthesized op.lexeme [operand.outline]
  | binary left op right => parenthesized op.lexeme [left.outline, right.outline]
  | logical left op right => parenthesized op.lexeme [left.outline, right.outline]
  | name token => token.lexeme
  | assign target value => parenthesized ("= " ++ target.lexeme) [value.outline]
  | call callee _ arguments => parenthesized "call" (callee.outline :: outlines arguments)

/-- The outlines of a list of expressions. -/
def Expr.outlines : List Expr → List String
  | [] => []
  | e :: es => e.outline :: outlines es

end

/-- The indentation of one level. -/
def indentation : String := "    "

/-- The space in front of a line at a level. -/
def indent : Nat → String
  | 0 => ""
  | level + 1 => indentation ++ indent level

mutual

/-- The outline of a statement at a level, without the space in front of its first line. -/
def Stmt.outline (level : Nat) : Stmt → String
  | expression value => parenthesized ";" [value.outline]
  | print value => parenthesized "print" [value.outline]
  | declare target none => "(var " ++ target.lexeme ++ ")"
  | declare target (some value) => parenthesized ("var " ++ target.lexeme) [value.outline]
  | block body => "(block" ++ nested (level + 1) body ++ ")"
  | branch condition yes none =>
    "(if " ++ condition.outline ++ "\n" ++ indent (level + 1) ++ yes.outline (level + 1) ++ ")"
  | branch condition yes (some no) =>
    "(if " ++ condition.outline ++ "\n" ++ indent (level + 1) ++ yes.outline (level + 1) ++
      "\n" ++ indent (level + 1) ++ no.outline (level + 1) ++ ")"
  | loop condition body =>
    "(while " ++ condition.outline ++ "\n" ++ indent (level + 1) ++ body.outline (level + 1) ++ ")"
  | function target parameters body =>
    "(fun " ++ target.lexeme ++ " (" ++ " ".intercalate (parameters.map Token.lexeme) ++ ")" ++
      nested (level + 1) body ++ ")"
  | returnValue _ none => "(return)"
  | returnValue _ (some value) => parenthesized "return" [value.outline]

/-- The outlines of nested statements, each on a line of its own. -/
def Stmt.nested (level : Nat) : List Stmt → String
  | [] => ""
  | s :: ss => "\n" ++ indent level ++ s.outline level ++ nested level ss

end

/-- The lines of a statement at a level. -/
def Stmt.lines (level : Nat) (s : Stmt) : String := indent level ++ s.outline level

/-- The **outline of a program**: its statements, one below the other. -/
def outline (program : List Stmt) : String := "\n".intercalate (program.map (Stmt.lines 0))

end LoxLang
