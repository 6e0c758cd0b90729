import LoxLang.Diagnostic
import LoxLang.Program
import LoxLang.Program.Fault

/-!
# Programs from tokens

A **parser** goes over a list of tokens with a cursor. It looks at the token at the cursor and takes
it, which moves the cursor on; an end token is never taken. What is wrong is reported where it is
found, and stops the rules up to the declaration around it: this one is dropped, tokens are skipped
up to a likely statement boundary, and the next declaration follows.

Each rule of the grammar is one definition over the rules that it nests, and `expression`,
`statement` and `declaration` close the circle. Nesting and loops are bounded by a number that every
rule takes. A parser that exhausts it is **unfinished**, and one that looks at a place where no
token stands is **outside**; on tokens with an end token among them, neither happens with a bound
that is no less than their number.
-/

namespace LoxLang

/-- Where a parser stands. -/
structure Cursor where
  /-- The place of the next token. -/
  current : Nat
  /-- The diagnostics reported so far. -/
  reported : Array Diagnostic

/-- Why a parser stopped. -/
inductive Stop
  /-- What is wrong is reported. -/
  | syntaxError
  /-- No token stands at the place it looked at. -/
  | outside
  /-- The bound was exhausted. -/
  | unfinished

/-- Reads an `α` from the tokens at the cursor. -/
abbrev Parser (α : Type) := ReaderT (Array Token) (ExceptT Stop (StateM Cursor)) α

namespace Parser

/-- What a parser comes to **on** tokens, and where it leaves the cursor. -/
def on {α : Type} (p : Parser α) (tokens : Array Token) (c : Cursor) : Except Stop α × Cursor :=
  (p.run tokens).run c

/-! ### Single tokens -/

/-- The token at a place. -/
def look (i : Nat) : Parser Token := do
  match (← read)[i]? with
  | some t => pure t
  | none => throw .outside

/-- The token at the cursor. -/
def peek : Parser Token := do look (← get).current

/-- The token in front of the cursor. -/
def previous : Parser Token := do
  match (← get).current with
  | 0 => throw .outside
  | i + 1 => look i

/-- Whether the cursor is at an end token. -/
def isAtEnd : Parser Bool := do return (← peek).kind = .eof

/-- Whether the token at the cursor has a kind. An end token has none. -/
def check (kind : TokenKind) : Parser Bool := do
  if ← isAtEnd then pure false else return (← peek).kind = kind

/-- Moves the cursor on, unless it is at an end token. -/
def advance : Parser Token := do
  if !(← isAtEnd) then modify fun c => { c with current := c.current + 1 }
  previous

/-- Takes the token at the cursor if it has one of some kinds. -/
def accept : List TokenKind → Parser (Option Token)
  | [] => pure none
  | kind :: kinds => do
    if ← check kind then some <$> advance else accept kinds

/-- **Reports** a syntax error at a token, and stops. -/
def error {α : Type} (t : Token) (e : SyntaxError) : Parser α := do
  modify fun c => { c with reported := c.reported.push (.atToken .static t e.message) }
  throw .syntaxError

/-- Takes a token of a kind. -/
def consume (kind : TokenKind) (e : SyntaxError) : Parser Token := do
  if ← check kind then advance else error (← peek) e

/-- Takes the symbol that belongs at a place. -/
def symbol (place : Place) : Parser Token := consume place.symbol (.noSymbol place)

/-- Takes a name. -/
def identifier (role : Named) : Parser Token := consume .identifier (.noName role)

/-! ### Recovery -/

/-- The keywords that open a statement. -/
def opensStatement (kind : TokenKind) : Bool :=
  kind = .keyword .class_ || kind = .keyword .fun_ || kind = .keyword .var_ ||
    kind = .keyword .for_ || kind = .keyword .if_ || kind = .keyword .while_ ||
    kind = .keyword .print_ || kind = .keyword .return_

/-- Skips tokens up to just behind a semicolon, or in front of a keyword that opens a statement. -/
def skip : Nat → Parser Unit
  | 0 => throw .unfinished
  | n + 1 => do
    if ← isAtEnd then pure ()
    else if (← previous).kind = .semicolon then pure ()
    else if opensStatement (← peek).kind then pure ()
    else
      let _ ← advance
      skip n

/-- Skips tokens up to a statement boundary, and at least the next one. -/
def synchronize (n : Nat) : Parser Unit := do
  let _ ← advance
  skip n

/-- **Recovers** from a syntax error, which drops what was being read. -/
def recover (n : Nat) (p : Parser Stmt) : Parser (Option Stmt) :=
  tryCatch (some <$> p) fun
    | .syntaxError => do
      synchronize n
      pure none
    | stop => throw stop

/-! ### Lists -/

/-- Reads one to `limit` items with commas between them. -/
def commaList {α : Type} (list : Listed) (item : Parser α) : Nat → Parser (List α)
  | 0 => do error (← peek) (.tooMany list)
  | limit + 1 => do
    let first ← item
    match ← accept [.comma] with
    | some _ => do
      let others ← commaList list item limit
      pure (first :: others)
    | none => pure [first]

/-- Reads the items up to a closing parenthesis, which stays unread: none if it follows at once,
and at most `maxArguments`. -/
def listed {α : Type} (list : Listed) (item : Parser α) : Parser (List α) := do
  if ← check .rightParen then pure [] else commaList list item maxArguments

/-- Reads operators with operands behind them as long as they follow, and combines them to the
left. -/
def chain (operators : List TokenKind) (combine : Expr → Token → Expr → Expr)
    (operand : Parser Expr) : Nat → Expr → Parser Expr
  | 0, _ => throw .unfinished
  | n + 1, left => do
    match ← accept operators with
    | some op => do
      let right ← operand
      chain operators combine operand n (combine left op right)
    | none => pure left

/-- A **left-associative** level of the grammar: `operand (operator operand)*`. -/
def leftAssociative (n : Nat) (operators : List TokenKind)
    (combine : Expr → Token → Expr → Expr) (operand : Parser Expr) : Parser Expr := do
  let left ← operand
  chain operators combine operand n left

/-! ### Expressions, over the rule for expressions -/

section

variable (n : Nat) (expression : Parser Expr)

/-- `"true" | "false" | "nil" | NUMBER | STRING | IDENTIFIER | "(" expression ")"` -/
def primary : Parser Expr := do
  if let some _ ← accept [.keyword .false_] then pure (.literal (.bool false))
  else if let some _ ← accept [.keyword .true_] then pure (.literal (.bool true))
  else if let some _ ← accept [.keyword .nil_] then pure (.literal .nil)
  else if let some t ← accept [.number, .string] then pure (.literal t.literal)
  else if let some t ← accept [.identifier] then pure (.name t)
  else if let some _ ← accept [.leftParen] then
    let inner ← expression
    let _ ← symbol .afterExpression
    pure (.grouping inner)
  else error (← peek) .noExpression

/-- The argument lists behind a callee. -/
def callChain : Nat → Expr → Parser Expr
  | 0, _ => throw .unfinished
  | n + 1, callee => do
    match ← accept [.leftParen] with
    | some _ => do
      let arguments ← listed .arguments expression
      let paren ← symbol .afterArguments
      callChain n (.call callee paren arguments)
    | none => pure callee

/-- `primary ("(" arguments? ")")*` -/
def call : Parser Expr := do
  let callee ← primary expression
  callChain expression n callee

/-- `("!" | "-") unary | call` -/
def unary : Nat → Parser Expr
  | 0 => throw .unfinished
  | n + 1 => do
    match ← accept [.bang, .minus] with
    | some op => do
      let operand ← unary n
      pure (.unary op operand)
    | none => call (n + 1) expression

/-- `unary (("/" | "*") unary)*` -/
def factor : Parser Expr := leftAssociative n [.slash, .star] .binary (unary expression n)

/-- `factor (("-" | "+") factor)*` -/
def term : Parser Expr := leftAssociative n [.minus, .plus] .binary (factor n expression)

/-- `term ((">" | ">=" | "<" | "<=") term)*` -/
def comparison : Parser Expr :=
  leftAssociative n [.greater, .greaterEqual, .less, .lessEqual] .binary (term n expression)

/-- `comparison (("!=" | "==") comparison)*` -/
def equality : Parser Expr :=
  leftAssociative n [.bangEqual, .equalEqual] .binary (comparison n expression)

/-- `equality ("and" equality)*` -/
def conjunction : Parser Expr :=
  leftAssociative n [.keyword .and_] .logical (equality n expression)

/-- `conjunction ("or" conjunction)*` -/
def disjunction : Parser Expr :=
  leftAssociative n [.keyword .or_] .logical (conjunction n expression)

/-- `IDENTIFIER "=" expression | disjunction`. The target is read as a disjunction, and that it is
a name is found out when the value behind the equals sign has been read. -/
def assignment : Parser Expr := do
  let target ← disjunction n expression
  match ← accept [.equal] with
  | none => pure target
  | some equals => do
    let value ← expression
    match target with
    | .name t => pure (.assign t value)
    | _ => error equals .invalidTarget

end

/-- Reads the longest **expression** at the cursor. -/
def expression : Nat → Parser Expr
  | 0 => throw .unfinished
  | n + 1 => assignment (n + 1) (expression n)

/-! ### Parts of statements, over the rule for expressions -/

section

variable (expression : Parser Expr)

/-- `IDENTIFIER ("=" expression)? ";"`, behind `var`. -/
def variableDeclaration : Parser Stmt := do
  let target ← identifier .variable_
  let value ← do
    match ← accept [.equal] with
    | some _ => some <$> expression
    | none => pure none
  let _ ← symbol .afterDeclaration
  pure (.declare target value)

/-- `expression ";"` -/
def expressionStatement : Parser Stmt := do
  let value ← expression
  let _ ← symbol .afterValue
  pure (.expression value)

/-- `expression ";"`, behind `print`. -/
def printStatement : Parser Stmt := do
  let value ← expression
  let _ ← symbol .afterValue
  pure (.print value)

/-- An expression, unless the next token has the kind that may stand in its place. -/
def optionalExpression (instead : TokenKind) : Parser (Option Expr) := do
  if ← check instead then pure none else some <$> expression

/-- `expression? ";"`, behind `return`. -/
def returnStatement (keyword : Token) : Parser Stmt := do
  let value ← optionalExpression expression .semicolon
  let _ ← symbol .afterReturnValue
  pure (.returnValue keyword value)

/-- `"(" expression ")"`, behind `if` or `while`. -/
def condition (before after : Place) : Parser Expr := do
  let _ ← symbol before
  let value ← expression
  let _ ← symbol after
  pure value

/-- The first clause of a `for` loop: `";" | "var" variableDeclaration | expressionStatement` -/
def forStart : Parser (Option Stmt) := do
  if let some _ ← accept [.semicolon] then pure none
  else if let some _ ← accept [.keyword .var_] then some <$> variableDeclaration expression
  else some <$> expressionStatement expression

end

/-! ### Statements, over the rules for what they nest -/

section

variable (n : Nat) (expression : Parser Expr) (statement : Parser Stmt)
  (declaration : Parser (Option Stmt))

/-- Reads declarations until it `stops`, and keeps those that were not dropped. -/
def declarations (stops : Parser Bool) : Nat → Parser (List Stmt)
  | 0 => throw .unfinished
  | n + 1 => do
    if ← stops then pure []
    else
      let first ← declaration
      let others ← declarations stops n
      pure (first.toList ++ others)

/-- Whether a block ends here: at its closing brace, or at an end token. -/
def blockEnds : Parser Bool := do
  if ← check .rightBrace then pure true else isAtEnd

/-- `declaration* "}"`, behind the opening brace. -/
def block : Parser (List Stmt) := do
  let body ← declarations declaration blockEnds n
  let _ ← symbol .afterBlock
  pure body

/-- `IDENTIFIER "(" parameters? ")" "{" block`, behind `fun`. -/
def functionDeclaration : Parser Stmt := do
  let target ← identifier .function
  let _ ← symbol .afterFunctionName
  let parameters ← listed .parameters (identifier .parameter)
  let _ ← symbol .afterParameters
  let _ ← symbol .beforeFunctionBody
  let body ← block n declaration
  pure (.function target parameters body)

/-- `"(" expression ")" statement ("else" statement)?`, behind `if`. An `else` belongs to the
nearest `if`. -/
def ifStatement : Parser Stmt := do
  let value ← condition expression .afterIf .afterIfCondition
  let yes ← statement
  match ← accept [.keyword .else_] with
  | some _ => do
    let no ← statement
    pure (.branch value yes (some no))
  | none => pure (.branch value yes none)

/-- `"(" expression ")" statement`, behind `while`. -/
def whileStatement : Parser Stmt := do
  let value ← condition expression .afterWhile .afterCondition
  let body ← statement
  pure (.loop value body)

/-- `"(" start expression? ";" expression? ")" statement`, behind `for`. -/
def forStatement : Parser Stmt := do
  let _ ← symbol .afterFor
  let start ← forStart expression
  let value ← optionalExpression expression .semicolon
  let _ ← symbol .afterLoopCondition
  let step ← optionalExpression expression .rightParen
  let _ ← symbol .afterForClauses
  let body ← statement
  pure (.forLoop start value step body)

/-- One **statement**, by its first token. -/
def statementBody : Parser Stmt := do
  if let some _ ← accept [.keyword .for_] then forStatement expression statement
  else if let some _ ← accept [.keyword .if_] then ifStatement expression statement
  else if let some _ ← accept [.keyword .print_] then printStatement expression
  else if let some keyword ← accept [.keyword .return_] then returnStatement expression keyword
  else if let some _ ← accept [.keyword .while_] then whileStatement expression statement
  else if let some _ ← accept [.leftBrace] then .block <$> block n declaration
  else expressionStatement expression

/-- One **declaration**, by its first token. -/
def declarationBody : Parser Stmt := do
  if let some _ ← accept [.keyword .fun_] then functionDeclaration n declaration
  else if let some _ ← accept [.keyword .var_] then variableDeclaration expression
  else statementBody n expression statement declaration

end

mutual

/-- Reads a **statement** at the cursor. -/
def statement : Nat → Parser Stmt
  | 0 => throw .unfinished
  | n + 1 => statementBody (n + 1) (expression (n + 1)) (statement n) (declaration n)

/-- Reads a **declaration** at the cursor, or drops it. -/
def declaration : Nat → Parser (Option Stmt)
  | 0 => throw .unfinished
  | n + 1 => recover (n + 1)
      (declarationBody (n + 1) (expression (n + 1)) (statement n) (declaration n))

end

/-- Reads the declarations of a whole **program**, up to the first end token. -/
def program (n : Nat) : Parser (List Stmt) := declarations (declaration n) isAtEnd n

end Parser

/-! ### Parses -/

/-- What a token list says: the statements that were read, and what was reported. -/
structure Parse where
  statements : List Stmt
  diagnostics : List Diagnostic

namespace Parse

/-- Tokens with an end token: those that have none get one behind them. -/
def ended (tokens : List Token) : List Token :=
  if tokens.any fun t => t.kind = .eof then tokens else tokens ++ [.atEnd 1]

/-- **Parses** a token list from its first token on. -/
def ofTokens (tokens : List Token) : Parse :=
  let (result, cursor) :=
    (Parser.program (ended tokens).length).on (ended tokens).toArray ⟨0, #[]⟩
  { statements := match result with
      | .ok statements => statements
      | .error _ => []
    diagnostics := cursor.reported.toList }

/-- What a text says: its parse, with the lexical faults before the syntax errors. -/
def ofSource (source : String) : Parse :=
  let scanned := scan source
  let parsed := ofTokens scanned.tokens
  { parsed with
    diagnostics := scanned.faults.map LexicalFault.diagnostic ++ parsed.diagnostics }

end Parse

end LoxLang
