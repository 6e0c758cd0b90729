import LoxLang.Evaluation.Memory

/-!
# Evaluation

`evaluate` and `execute` walk the tree of a program. Both take a bound on the nesting of the
expressions, statements and calls in progress, and abort with an overflow where it is exceeded; a
larger bound changes nothing else. Loops do not nest: `repeatWhile` makes one round after another,
as many as the host allows.

A call evaluates its callee and then its arguments from left to right before it looks at any of
them. The body of a function runs in two frames on top of the globals, one for the parameters and
one for the block of the body.
-/

namespace LoxLang

section

variable {σ : Type} [Scoping σ]

namespace Eval

/-- Repeats `body` **while** `condition` holds, and aborts if that takes more than `n` rounds. -/
def repeatWhile (condition : Eval Bool) (body : Eval Unit) : Nat → Eval Unit
  | 0 => abort .unfinished
  | n + 1 => do
    if ← condition then
      body
      repeatWhile condition body n
    else pure ()

/-- Binds parameters to arguments in the innermost frame, in order. -/
def bindParameters (parameters : List Token) (arguments : List Value) : Eval Unit :=
  (parameters.zip arguments).forM fun (p, v) => define p.lexeme v

/-- **Calls** a function on as many arguments as it has parameters. `body` is how its body runs. -/
def call (parameters : List Token) (arguments : List Value) (body : Eval Unit) : Eval Value :=
  inCall (returned (do
    onScopes Scoping.enterBlock
    bindParameters parameters arguments
    inBlock body))

/-- Calls a value, located at the closing parenthesis of the call. `run` executes the body of a
function. -/
def apply (host : Host) (run : List Stmt → Eval Unit) (paren : Token) (callee : Value)
    (arguments : List Value) : Eval Value :=
  match callee.arity? with
  | none => ofResult (fail paren .notCallable)
  | some arity =>
    if arguments.length = arity then
      match callee with
      | .function f _ => call f.parameters arguments (run f.body)
      | _ => readClock host
    else ofResult (fail paren (.wrongArity arity arguments.length))

end Eval

open Eval

mutual

/-- **Evaluates** an expression, with at most `n` nested steps. -/
def evaluate (host : Host) : Nat → Expr → Eval Value
  | 0, _ => abort .overflow
  | _ + 1, .literal value => pure (.ofLiteral value)
  | n + 1, .grouping inner => evaluate host n inner
  | n + 1, .unary op operand => do
    let v ← evaluate host n operand
    ofResult (applyUnary op v)
  | n + 1, .binary left op right => do
    let v ← evaluate host n left
    let w ← evaluate host n right
    ofResult (applyBinary op v w)
  | n + 1, .logical left op right => do
    let v ← evaluate host n left
    if v.isTruthy = (op.kind = .keyword .or_ : Bool) then pure v else evaluate host n right
  | _ + 1, .name token => lookup token
  | n + 1, .assign target value => do
    let v ← evaluate host n value
    assign target v
    pure v
  | n + 1, .call callee paren arguments => do
    let f ← evaluate host n callee
    let vs ← arguments.mapM (evaluate host n)
    apply host (fun body => body.forM (execute host n)) paren f vs

/-- **Executes** a statement, with at most `n` nested steps. -/
def execute (host : Host) : Nat → Stmt → Eval Unit
  | 0, _ => abort .overflow
  | n + 1, .expression value => do
    let _ ← evaluate host n value
  | n + 1, .print value => do
    let v ← evaluate host n value
    print v.display
  | _ + 1, .declare target none => define target.lexeme .nil
  | n + 1, .declare target (some value) => do
    let v ← evaluate host n value
    define target.lexeme v
  | n + 1, .block body => inBlock (body.forM (execute host n))
  | n + 1, .branch condition yes no => do
    let v ← evaluate host n condition
    if v.isTruthy then execute host n yes
    else
      match no with
      | some s => execute host n s
      | none => pure ()
  | n + 1, .loop condition body =>
    repeatWhile (Value.isTruthy <$> evaluate host n condition) (execute host n body) host.rounds
  | _ + 1, .function target parameters body => do
    let f ← newFunction ⟨target, parameters, body⟩
    define target.lexeme f
  | _ + 1, .returnValue keyword none => throw (.returning keyword .nil)
  | n + 1, .returnValue keyword (some value) => do
    let v ← evaluate host n value
    throw (.returning keyword v)

end

/-- How deeply statements, expressions and calls may nest where nothing else is said. -/
def maxNesting : Nat := 4000

/-- What a program runs on: a host, and **how deeply** its statements, expressions and calls may
nest there. -/
structure Machine extends Host where
  nesting : Nat := maxNesting

instance : Coe Host Machine := ⟨fun host => { host with }⟩

/-- Executes statements in order. -/
def executeAll (host : Host) (n : Nat) (statements : List Stmt) : Eval Unit :=
  statements.forM (execute host n)

namespace Eval

/-- On any scopes, a call runs the body of the function in a block in a call. -/
theorem run_call_of {parameters : List Token} {arguments : List Value} {body : Eval Unit}
    {m m' : Memory} {r : Except Interrupt Value}
    (h : (returned (do bindParameters parameters arguments; inBlock body)).run
      { m with scopes := Scoping.enterBlock (Scoping.enterCall m.scopes) } = (r, m')) :
    (call parameters arguments body).run m =
      (r, { m' with scopes := Scoping.exitCall m'.scopes }) := run_inCall_of h

end Eval

end

namespace Eval

/-- A call runs the body of the function in a chain of the globals, a frame for the parameters and
a frame for the block of the body, and takes up the caller's chain behind it. -/
theorem run_call (parameters : List Token) (arguments : List Value) (body : Eval Unit)
    (m : Memory) :
    (call parameters arguments body).run m =
      let entered := (returned (do bindParameters parameters arguments; inBlock body)).run
        { m with scopes := m.scopes.enterCall.enterBlock }
      (entered.1, { entered.2 with scopes := entered.2.scopes.exitCall }) := rfl

theorem apply_function (host : Host) (run : List Stmt → Eval Unit) (paren : Token) (f : Function)
    (identity : Nat) (arguments : List Value) :
    apply host run paren (.function f identity) arguments =
      if arguments.length = f.parameters.length then call f.parameters arguments (run f.body)
      else ofResult (fail paren (.wrongArity f.parameters.length arguments.length)) := rfl

theorem apply_native (host : Host) (run : List Stmt → Eval Unit) (paren : Token) (f : Native)
    (identity : Nat) (arguments : List Value) :
    apply host run paren (.native f identity) arguments =
      if arguments.length = f.arity then readClock host
      else ofResult (fail paren (.wrongArity f.arity arguments.length)) := rfl

/-- What takes no arguments at all cannot be called. -/
theorem apply_of_arity?_eq_none (host : Host) (run : List Stmt → Eval Unit) (paren : Token)
    {callee : Value} (h : callee.arity? = none) (arguments : List Value) :
    apply host run paren callee arguments = ofResult (fail paren .notCallable) := by
  cases callee with
  | native f identity => cases h
  | function f identity => cases h
  | _ => rfl

end Eval

end LoxLang
