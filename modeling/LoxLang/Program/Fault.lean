import LoxLang.Token

/-!
# Syntax errors

A syntax error is a cause. Its wording is `SyntaxError.message`.
-/

namespace LoxLang

/-- How many parameters and arguments there may be. -/
def maxArguments : Nat := 255

/-- What a missing name would have named. -/
inductive Named
  | function
  | parameter
  | variable_
  deriving DecidableEq

/-- The word for what a name names. -/
def Named.word : Named → String
  | function => "function"
  | parameter => "parameter"
  | variable_ => "variable"

/-- The lists of limited length. -/
inductive Listed
  | parameters
  | arguments
  deriving DecidableEq

/-- The word for a list. -/
def Listed.word : Listed → String
  | parameters => "parameters"
  | arguments => "arguments"

/-- The places where a symbol can be missing. -/
inductive Place
  | afterFunctionName
  | afterParameters
  | beforeFunctionBody
  | afterDeclaration
  | afterFor
  | afterLoopCondition
  | afterForClauses
  | afterIf
  | afterIfCondition
  | afterWhile
  | afterCondition
  | afterValue
  | afterReturnValue
  | afterBlock
  | afterArguments
  | afterExpression
  deriving DecidableEq

namespace Place

/-- The symbol that belongs at a place. -/
def symbol : Place → TokenKind
  | afterFunctionName | afterFor | afterIf | afterWhile => .leftParen
  | afterParameters | afterForClauses | afterIfCondition | afterCondition | afterArguments
  | afterExpression => .rightParen
  | beforeFunctionBody => .leftBrace
  | afterBlock => .rightBrace
  | afterDeclaration | afterLoopCondition | afterValue | afterReturnValue => .semicolon

/-- The missing symbol and where it is missing, in words. -/
def text : Place → String
  | afterFunctionName => "'(' after function name"
  | afterParameters => "')' after parameters"
  | beforeFunctionBody => "'\x7b' before function body"
  | afterDeclaration => "';' after variable declaration"
  | afterFor => "'(' after 'for'"
  | afterLoopCondition => "';' after loop condition"
  | afterForClauses => "')' after for clauses"
  | afterIf => "'(' after 'if'"
  | afterIfCondition => "')' after if condition"
  | afterWhile => "'(' after 'while'"
  | afterCondition => "')' after condition"
  | afterValue => "';' after value"
  | afterReturnValue => "';' after return value"
  | afterBlock => "'\x7d' after block"
  | afterArguments => "')' after arguments"
  | afterExpression => "')' after expression"

end Place

/-- Why a token list is not a program. -/
inductive SyntaxError
  | noExpression
  | noName (role : Named)
  | noSymbol (place : Place)
  | tooMany (list : Listed)
  | invalidTarget
  deriving DecidableEq

/-- The wording of a syntax error. -/
def SyntaxError.message : SyntaxError → String
  | noExpression => "Expect expression."
  | noName role => "Expect " ++ role.word ++ " name."
  | noSymbol place => "Expect " ++ place.text ++ "."
  | tooMany list => "Can't have more than " ++ toString maxArguments ++ " " ++ list.word ++ "."
  | invalidTarget => "Invalid assignment target."

end LoxLang
