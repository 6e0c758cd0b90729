import LoxLang.Evaluation.Memory

/-!
# Reference semantics

The meaning of programs as rules, without scopes to enter and leave and without interrupts that
unwind. A **state** is what a program can tell apart: its local frames, the globals and what is
printed, and besides these how many functions were made and how often the clock was read.
Expressions have a value or an error as their result, statements an **outcome**. The rules say which
state, and which result or outcome, a program leads to from a state.

A block runs with one empty frame more, which is dropped whatever the outcome. The body of a
function runs over a frame for the block of the body and a frame of parameters, and nothing else:
what it leaves in its frames is dropped, and the caller has its own frames.
-/

namespace LoxLang

namespace Semantics

/-- The **state** of a program. -/
structure State where
  /-- The local frames, innermost first. -/
  locals : List Frame
  globals : Frame
  /-- The lines printed so far. -/
  printed : Array String
  /-- The number of functions made so far. -/
  created : Nat
  /-- The number of times the clock was read. -/
  readings : Nat

/-- How a statement ends. -/
inductive Outcome
  | normal
  /-- A `return` is on its way to the call it returns from. -/
  | returning (keyword : Token) (value : Value)
  | error (error : RuntimeError)

/-! ### Names -/

/-- The frames that a program sees, innermost first. -/
def State.frames (s : State) : List Frame := s.locals ++ [s.globals]

/-- The innermost frame that has the name `x` **binds** it to the value. -/
inductive Binds (x : String) (v : Value) : List Frame → Prop
  | here {frame : Frame} {frames : List Frame} :
    frame.get? x = some v → Binds x v (frame :: frames)
  | further {frame : Frame} {frames : List Frame} :
    frame.get? x = none → Binds x v frames → Binds x v (frame :: frames)

/-- The frames are the same but for the innermost one that has the name `x`, which binds it to `v`
afterwards. -/
inductive Rebinds (x : String) (v : Value) : List Frame → List Frame → Prop
  | here {frame : Frame} {frames : List Frame} {w : Value} :
    frame.get? x = some w → Rebinds x v (frame :: frames) (frame.bind x v :: frames)
  | further {frame : Frame} {frames frames' : List Frame} :
    frame.get? x = none → Rebinds x v frames frames' →
      Rebinds x v (frame :: frames) (frame :: frames')

/-- No frame has the name `x`. -/
def Unbound (x : String) (frames : List Frame) : Prop := ∀ frame ∈ frames, frame.get? x = none

/-- The state with a name bound in the innermost frame. -/
def State.define (x : String) (v : Value) (s : State) : State :=
  match s.locals with
  | [] => { s with globals := s.globals.bind x v }
  | frame :: frames => { s with locals := frame.bind x v :: frames }

/-- The frame of parameters of a call. -/
def parameterFrame (parameters : List Token) (arguments : List Value) : Frame :=
  (parameters.zip arguments).foldl (fun frame (p, v) => frame.bind p.lexeme v) []

/-! ### Operators -/

/-- Only `nil` and `false` are **falsy**. -/
def Falsy (v : Value) : Prop := v = .nil ∨ v = .bool false

/-- **Equal** values: no two values of different kinds are. -/
inductive Equal : Value → Value → Prop
  | nil : Equal .nil .nil
  | bool (b : Bool) : Equal (.bool b) (.bool b)
  | number {x y : Float} : (x == y) = true → Equal (.number x) (.number y)
  | string (s : String) : Equal (.string s) (.string s)
  | native (f g : Native) (i : Nat) : Equal (.native f i) (.native g i)
  | function (f g : Function) (i : Nat) : Equal (.function f i) (.function g i)

/-- The results of the operators on two numbers. -/
inductive Numeric (x y : Float) : TokenKind → Value → Prop
  | plus : Numeric x y .plus (.number (x + y))
  | minus : Numeric x y .minus (.number (x - y))
  | star : Numeric x y .star (.number (x * y))
  | slash : Numeric x y .slash (.number (x / y))
  | greater : Numeric x y .greater (.bool (decide (x > y)))
  | greaterEqual : Numeric x y .greaterEqual (.bool (decide (x ≥ y)))
  | less : Numeric x y .less (.bool (decide (x < y)))
  | lessEqual : Numeric x y .lessEqual (.bool (decide (x ≤ y)))

/-- The **result** of an expression: a value or an error. -/
abbrev Result (α : Type) := Except RuntimeError α

/-- The results of a **unary** operator. -/
inductive Unary (op : Token) : Value → Result Value → Prop
  | negative (x : Float) : op.kind = .minus → Unary op (.number x) (.ok (.number (-x)))
  | notNumber {v : Value} :
    op.kind = .minus → ¬ v.isNumber → Unary op v (.error ⟨op, .operandNotNumber⟩)
  | notFalsy {v : Value} : op.kind = .bang → Falsy v → Unary op v (.ok (.bool true))
  | notTruthy {v : Value} : op.kind = .bang → ¬ Falsy v → Unary op v (.ok (.bool false))

/-- The operators that take nothing but two numbers. -/
def numericOperators : List TokenKind :=
  [.minus, .star, .slash, .greater, .greaterEqual, .less, .lessEqual]

/-- The results of a **binary** operator. -/
inductive Binary (op : Token) : Value → Value → Result Value → Prop
  | numbers {x y : Float} {v : Value} :
    Numeric x y op.kind v → Binary op (.number x) (.number y) (.ok v)
  | strings (s t : String) :
    op.kind = .plus → Binary op (.string s) (.string t) (.ok (.string (s ++ t)))
  | notAddable {v w : Value} :
    op.kind = .plus → ¬ (v.isNumber ∧ w.isNumber) → ¬ (v.isString ∧ w.isString) →
      Binary op v w (.error ⟨op, .operandsNotAddable⟩)
  | notNumbers {v w : Value} :
    op.kind ∈ numericOperators → ¬ (v.isNumber ∧ w.isNumber) →
      Binary op v w (.error ⟨op, .operandsNotNumbers⟩)
  | equal {v w : Value} : op.kind = .equalEqual → Equal v w → Binary op v w (.ok (.bool true))
  | notEqual {v w : Value} :
    op.kind = .equalEqual → ¬ Equal v w → Binary op v w (.ok (.bool false))
  | different {v w : Value} :
    op.kind = .bangEqual → ¬ Equal v w → Binary op v w (.ok (.bool true))
  | notDifferent {v w : Value} :
    op.kind = .bangEqual → Equal v w → Binary op v w (.ok (.bool false))

/-- A value on the left **decides** a conjunction or a disjunction. -/
def Decides (op : Token) (v : Value) : Prop :=
  (op.kind = .keyword .and_ ∧ Falsy v) ∨ (op.kind = .keyword .or_ ∧ ¬ Falsy v)

/-- A value on the left leaves a conjunction or a disjunction to the right. -/
def Defers (op : Token) (v : Value) : Prop :=
  (op.kind = .keyword .and_ ∧ ¬ Falsy v) ∨ (op.kind = .keyword .or_ ∧ Falsy v)

/-! ### Expressions and statements -/

/-- The **result** of a call whose body had an outcome. -/
def Outcome.toResult : Outcome → Result Value
  | normal => .ok .nil
  | returning _ v => .ok v
  | error e => .error e

mutual

/-- `Evaluates clock e s r s'`: in the state `s`, the **expression** `e` has the result `r` and
leads to `s'`. -/
inductive Evaluates (clock : Nat → Float) : Expr → State → Result Value → State → Prop
  | literal (value : Literal) (s : State) :
    Evaluates clock (.literal value) s (.ok (.ofLiteral value)) s
  | grouping {inner : Expr} {s s' : State} {r : Result Value} :
    Evaluates clock inner s r s' → Evaluates clock (.grouping inner) s r s'
  | unary {op : Token} {operand : Expr} {s s' : State} {v : Value} {r : Result Value} :
    Evaluates clock operand s (.ok v) s' → Unary op v r →
      Evaluates clock (.unary op operand) s r s'
  | unaryError {op : Token} {operand : Expr} {s s' : State} {e : RuntimeError} :
    Evaluates clock operand s (.error e) s' → Evaluates clock (.unary op operand) s (.error e) s'
  | binary {left right : Expr} {op : Token} {s s₁ s' : State} {v w : Value} {r : Result Value} :
    Evaluates clock left s (.ok v) s₁ → Evaluates clock right s₁ (.ok w) s' → Binary op v w r →
      Evaluates clock (.binary left op right) s r s'
  | binaryLeft {left right : Expr} {op : Token} {s s' : State} {e : RuntimeError} :
    Evaluates clock left s (.error e) s' → Evaluates clock (.binary left op right) s (.error e) s'
  | binaryRight {left right : Expr} {op : Token} {s s₁ s' : State} {v : Value} {e : RuntimeError} :
    Evaluates clock left s (.ok v) s₁ → Evaluates clock right s₁ (.error e) s' →
      Evaluates clock (.binary left op right) s (.error e) s'
  | decided {left right : Expr} {op : Token} {s s' : State} {v : Value} :
    Evaluates clock left s (.ok v) s' → Decides op v →
      Evaluates clock (.logical left op right) s (.ok v) s'
  | deferred {left right : Expr} {op : Token} {s s₁ s' : State} {v : Value} {r : Result Value} :
    Evaluates clock left s (.ok v) s₁ → Defers op v → Evaluates clock right s₁ r s' →
      Evaluates clock (.logical left op right) s r s'
  | logicalError {left right : Expr} {op : Token} {s s' : State} {e : RuntimeError} :
    Evaluates clock left s (.error e) s' → Evaluates clock (.logical left op right) s (.error e) s'
  | name {token : Token} {s : State} {v : Value} :
    Binds token.lexeme v s.frames → Evaluates clock (.name token) s (.ok v) s
  | unbound {token : Token} {s : State} :
    Unbound token.lexeme s.frames →
      Evaluates clock (.name token) s (.error ⟨token, .undefinedVariable⟩) s
  | assign {target : Token} {value : Expr} {s s₁ s' : State} {v : Value} :
    Evaluates clock value s (.ok v) s₁ → Rebinds target.lexeme v s₁.frames s'.frames →
      s' = { s₁ with locals := s'.locals, globals := s'.globals } →
      Evaluates clock (.assign target value) s (.ok v) s'
  | assignUnbound {target : Token} {value : Expr} {s s' : State} {v : Value} :
    Evaluates clock value s (.ok v) s' → Unbound target.lexeme s'.frames →
      Evaluates clock (.assign target value) s (.error ⟨target, .undefinedVariable⟩) s'
  | assignError {target : Token} {value : Expr} {s s' : State} {e : RuntimeError} :
    Evaluates clock value s (.error e) s' → Evaluates clock (.assign target value) s (.error e) s'
  | call {callee : Expr} {paren : Token} {arguments : List Expr} {s s₁ s₂ s' : State} {f : Value}
      {vs : List Value} {r : Result Value} :
    Evaluates clock callee s (.ok f) s₁ → EvaluatesAll clock arguments s₁ (.ok vs) s₂ →
      Applies clock paren f vs s₂ r s' → Evaluates clock (.call callee paren arguments) s r s'
  | calleeError {callee : Expr} {paren : Token} {arguments : List Expr} {s s' : State}
      {e : RuntimeError} :
    Evaluates clock callee s (.error e) s' →
      Evaluates clock (.call callee paren arguments) s (.error e) s'
  | argumentError {callee : Expr} {paren : Token} {arguments : List Expr} {s s₁ s' : State}
      {f : Value} {e : RuntimeError} :
    Evaluates clock callee s (.ok f) s₁ → EvaluatesAll clock arguments s₁ (.error e) s' →
      Evaluates clock (.call callee paren arguments) s (.error e) s'

/-- The **arguments** of a call, from left to right up to the first error. -/
inductive EvaluatesAll (clock : Nat → Float) :
    List Expr → State → Result (List Value) → State → Prop
  | nil (s : State) : EvaluatesAll clock [] s (.ok []) s
  | cons {e : Expr} {es : List Expr} {s s₁ s' : State} {v : Value} {vs : List Value} :
    Evaluates clock e s (.ok v) s₁ → EvaluatesAll clock es s₁ (.ok vs) s' →
      EvaluatesAll clock (e :: es) s (.ok (v :: vs)) s'
  | first {e : Expr} {es : List Expr} {s s' : State} {error : RuntimeError} :
    Evaluates clock e s (.error error) s' → EvaluatesAll clock (e :: es) s (.error error) s'
  | later {e : Expr} {es : List Expr} {s s₁ s' : State} {v : Value} {error : RuntimeError} :
    Evaluates clock e s (.ok v) s₁ → EvaluatesAll clock es s₁ (.error error) s' →
      EvaluatesAll clock (e :: es) s (.error error) s'

/-- A **call** of a value on arguments, located at the closing parenthesis. -/
inductive Applies (clock : Nat → Float) :
    Token → Value → List Value → State → Result Value → State → Prop
  | notCallable {f : Value} (paren : Token) (vs : List Value) (s : State) :
    f.arity? = none → Applies clock paren f vs s (.error ⟨paren, .notCallable⟩) s
  | wrongArity {f : Value} {vs : List Value} {arity : Nat} (paren : Token) (s : State) :
    f.arity? = some arity → vs.length ≠ arity →
      Applies clock paren f vs s (.error ⟨paren, .wrongArity arity vs.length⟩) s
  | native {f : Native} {i : Nat} {vs : List Value} (paren : Token) (s : State) :
    vs.length = f.arity →
      Applies clock paren (.native f i) vs s (.ok (.number (clock s.readings)))
        { s with readings := s.readings + 1 }
  | function {f : Function} {i : Nat} {vs : List Value} {s s' : State} {o : Outcome}
      (paren : Token) :
    vs.length = f.parameters.length →
      ExecutesAll clock f.body { s with locals := [[], parameterFrame f.parameters vs] } o s' →
      Applies clock paren (.function f i) vs s o.toResult { s' with locals := s.locals }

/-- `Executes clock stmt s o s'`: in the state `s`, the **statement** `stmt` has the outcome `o` and
leads to `s'`. -/
inductive Executes (clock : Nat → Float) : Stmt → State → Outcome → State → Prop
  | expression {value : Expr} {s s' : State} {v : Value} :
    Evaluates clock value s (.ok v) s' → Executes clock (.expression value) s .normal s'
  | expressionError {value : Expr} {s s' : State} {e : RuntimeError} :
    Evaluates clock value s (.error e) s' → Executes clock (.expression value) s (.error e) s'
  | print {value : Expr} {s s' : State} {v : Value} :
    Evaluates clock value s (.ok v) s' →
      Executes clock (.print value) s .normal { s' with printed := s'.printed.push v.display }
  | printError {value : Expr} {s s' : State} {e : RuntimeError} :
    Evaluates clock value s (.error e) s' → Executes clock (.print value) s (.error e) s'
  | declare (target : Token) (s : State) :
    Executes clock (.declare target none) s .normal (s.define target.lexeme .nil)
  | declareValue {target : Token} {value : Expr} {s s' : State} {v : Value} :
    Evaluates clock value s (.ok v) s' →
      Executes clock (.declare target (some value)) s .normal (s'.define target.lexeme v)
  | declareError {target : Token} {value : Expr} {s s' : State} {e : RuntimeError} :
    Evaluates clock value s (.error e) s' →
      Executes clock (.declare target (some value)) s (.error e) s'
  | block {body : List Stmt} {s s' : State} {o : Outcome} :
    ExecutesAll clock body { s with locals := [] :: s.locals } o s' →
      Executes clock (.block body) s o { s' with locals := s'.locals.tail }
  | branchYes {condition : Expr} {yes : Stmt} {no : Option Stmt} {s s₁ s' : State} {v : Value}
      {o : Outcome} :
    Evaluates clock condition s (.ok v) s₁ → ¬ Falsy v → Executes clock yes s₁ o s' →
      Executes clock (.branch condition yes no) s o s'
  | branchNo {condition : Expr} {yes no : Stmt} {s s₁ s' : State} {v : Value} {o : Outcome} :
    Evaluates clock condition s (.ok v) s₁ → Falsy v → Executes clock no s₁ o s' →
      Executes clock (.branch condition yes (some no)) s o s'
  | branchNone {condition : Expr} {yes : Stmt} {s s' : State} {v : Value} :
    Evaluates clock condition s (.ok v) s' → Falsy v →
      Executes clock (.branch condition yes none) s .normal s'
  | branchError {condition : Expr} {yes : Stmt} {no : Option Stmt} {s s' : State}
      {e : RuntimeError} :
    Evaluates clock condition s (.error e) s' →
      Executes clock (.branch condition yes no) s (.error e) s'
  | loopEnd {condition : Expr} {body : Stmt} {s s' : State} {v : Value} :
    Evaluates clock condition s (.ok v) s' → Falsy v →
      Executes clock (.loop condition body) s .normal s'
  | loopRound {condition : Expr} {body : Stmt} {s s₁ s₂ s' : State} {v : Value} {o : Outcome} :
    Evaluates clock condition s (.ok v) s₁ → ¬ Falsy v → Executes clock body s₁ .normal s₂ →
      Executes clock (.loop condition body) s₂ o s' →
      Executes clock (.loop condition body) s o s'
  | loopStop {condition : Expr} {body : Stmt} {s s₁ s' : State} {v : Value} {o : Outcome} :
    Evaluates clock condition s (.ok v) s₁ → ¬ Falsy v → Executes clock body s₁ o s' →
      o ≠ .normal → Executes clock (.loop condition body) s o s'
  | loopError {condition : Expr} {body : Stmt} {s s' : State} {e : RuntimeError} :
    Evaluates clock condition s (.error e) s' →
      Executes clock (.loop condition body) s (.error e) s'
  | function (target : Token) (parameters : List Token) (body : List Stmt) (s : State) :
    Executes clock (.function target parameters body) s .normal
      ({ s with created := s.created + 1 }.define target.lexeme
        (.function ⟨target, parameters, body⟩ s.created))
  | returnNil (keyword : Token) (s : State) :
    Executes clock (.returnValue keyword none) s (.returning keyword .nil) s
  | returnValue {keyword : Token} {value : Expr} {s s' : State} {v : Value} :
    Evaluates clock value s (.ok v) s' →
      Executes clock (.returnValue keyword (some value)) s (.returning keyword v) s'
  | returnError {keyword : Token} {value : Expr} {s s' : State} {e : RuntimeError} :
    Evaluates clock value s (.error e) s' →
      Executes clock (.returnValue keyword (some value)) s (.error e) s'

/-- A **list of statements**, in order up to the first outcome that is not normal. -/
inductive ExecutesAll (clock : Nat → Float) : List Stmt → State → Outcome → State → Prop
  | nil (s : State) : ExecutesAll clock [] s .normal s
  | cons {stmt : Stmt} {stmts : List Stmt} {s s₁ s' : State} {o : Outcome} :
    Executes clock stmt s .normal s₁ → ExecutesAll clock stmts s₁ o s' →
      ExecutesAll clock (stmt :: stmts) s o s'
  | stop {stmt : Stmt} {stmts : List Stmt} {s s' : State} {o : Outcome} :
    Executes clock stmt s o s' → o ≠ .normal → ExecutesAll clock (stmt :: stmts) s o s'

end

end Semantics

end LoxLang
