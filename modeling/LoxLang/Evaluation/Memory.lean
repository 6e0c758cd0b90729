import LoxLang.Evaluation.Operator
import LoxLang.Scopes

/-!
# The state of evaluation

`Memory` is what evaluation reads and changes, and `Eval` the computations that do so. An interrupt
does not undo changes: the memory that a computation leaves is the same whether it ends with a value
or is interrupted.
-/

namespace LoxLang

/-- What evaluation takes from its surroundings. -/
structure Host where
  /-- The reading of the clock, in seconds since the epoch, when it is read for the `n`-th time. -/
  clock : Nat → Float
  /-- How many rounds one loop may make. -/
  rounds : Nat

/-- What evaluation asks of **scopes**. It knows nothing else of them, so that it runs on any scopes
that can do these things. Where nothing is said of them, they are `Scopes`. -/
class Scoping (σ : outParam Type) where
  /-- The value of a name. -/
  get? : String → σ → Option Value
  /-- Assigns to a name that has a value. -/
  assign? : String → Value → σ → Option σ
  /-- Binds a name in the innermost frame. -/
  define : String → Value → σ → σ
  enterBlock : σ → σ
  exitBlock : σ → σ
  enterCall : σ → σ
  exitCall : σ → σ

instance : Scoping Scopes where
  get? := Scopes.get?
  assign? := Scopes.assign?
  define := Scopes.define
  enterBlock := Scopes.enterBlock
  exitBlock := Scopes.exitBlock
  enterCall := Scopes.enterCall
  exitCall := Scopes.exitCall

/-- The state of a running program. -/
structure Memory {σ : Type} [Scoping σ] where
  scopes : σ
  /-- The lines printed so far. -/
  printed : Array String
  /-- The number of function values made so far, which is the identity of the next one. -/
  created : Nat
  /-- The number of times the clock was read. -/
  readings : Nat

/-- The memory a program starts from: the globals hold `clock`. -/
def Memory.fresh : Memory := ⟨Scopes.empty.define "clock" .clock, #[], 0, 0⟩

/-- A **computation** on the memory. -/
abbrev Eval {σ : Type} [Scoping σ] (α : Type) := ExceptT Interrupt (StateM Memory) α

namespace Eval

section

variable {σ : Type} [Scoping σ]

/-- Changes the scopes. -/
def onScopes (f : σ → σ) : Eval Unit :=
  modify fun m => { m with scopes := f m.scopes }

/-- Runs a computation and changes the scopes afterwards, **however it ended**. -/
def ensuring {α : Type} (body : Eval α) (f : σ → σ) : Eval α := fun m =>
  let (result, m) := body.run m
  (result, { m with scopes := f m.scopes })

/-- Runs a computation in a block of its own. -/
def inBlock {α : Type} (body : Eval α) : Eval α := do
  onScopes Scoping.enterBlock
  body.ensuring Scoping.exitBlock

/-- Runs a computation in the scopes of a call. -/
def inCall {α : Type} (body : Eval α) : Eval α := do
  onScopes Scoping.enterCall
  body.ensuring Scoping.exitCall

/-- The result of an operator. -/
def ofResult {α : Type} : Except Interrupt α → Eval α
  | .ok a => pure a
  | .error e => throw e

/-- Stops because the run cannot go on. -/
def abort {α : Type} (reason : Abort) : Eval α := throw (.abort reason)

/-- Binds a name in the innermost frame. -/
def define (x : String) (v : Value) : Eval Unit := onScopes (Scoping.define x v)

/-- The value of a variable. -/
def lookup (name : Token) : Eval Value := do
  match Scoping.get? name.lexeme (← get).scopes with
  | some v => pure v
  | none => ofResult (fail name .undefinedVariable)

/-- Assigns to a variable. -/
def assign (name : Token) (v : Value) : Eval Unit := do
  match Scoping.assign? name.lexeme v (← get).scopes with
  | some scopes => modify fun m => { m with scopes }
  | none => ofResult (fail name .undefinedVariable)

/-- Prints a line. -/
def print (line : String) : Eval Unit := modify fun m => { m with printed := m.printed.push line }

/-- A value of its own for one execution of a function declaration. -/
def newFunction (f : Function) : Eval Value := do
  let m ← get
  set { m with created := m.created + 1 }
  pure (.function f m.created)

/-- Reads the clock. -/
def readClock (host : Host) : Eval Value := do
  let m ← get
  set { m with readings := m.readings + 1 }
  pure (.number (host.clock m.readings))

/-- Ends a call: a `return` in its body gives the value of the call, and a body that ran to its end
gives `nil`. -/
def returned (body : Eval Unit) : Eval Value := fun m =>
  match body.run m with
  | (.ok (), m) => (.ok .nil, m)
  | (.error (.returning _ v), m) => (.ok v, m)
  | (.error e, m) => (.error e, m)

end

/-! ### Runs

What each computation comes to on a given memory. -/

section

variable {σ : Type} [Scoping σ] {α β : Type}

@[simp]
theorem run_pure (a : α) (m : Memory) : (pure a : Eval α).run m = (.ok a, m) := rfl

@[simp]
theorem run_throw (e : Interrupt) (m : Memory) : (throw e : Eval α).run m = (.error e, m) := rfl

/-- Two computations in a row: the second runs on what the first leaves, unless that was
interrupted. -/
theorem run_bind (p : Eval α) (f : α → Eval β) (m : Memory) :
    (p >>= f).run m = match p.run m with
      | (.ok a, m') => (f a).run m'
      | (.error e, m') => (.error e, m') := by
  change (StateT.bind p (ExceptT.bindCont f)) m = _
  rcases h : p.run m with ⟨_ | _, m'⟩
  · rw [StateT.bind, show p m = _ from h]
    rfl
  · rw [StateT.bind, show p m = _ from h]
    rfl

theorem run_map (f : α → β) (p : Eval α) (m : Memory) :
    (f <$> p).run m = ((p.run m).1.map f, (p.run m).2) := by
  rw [← bind_pure_comp, run_bind]
  rcases p.run m with ⟨_ | _, m'⟩ <;> rfl

@[simp]
theorem run_ofResult (r : Except Interrupt α) (m : Memory) : (ofResult r).run m = (r, m) := by
  cases r <;> rfl

/-- What a call comes to, given what its body came to. -/
def callResult : Except Interrupt Unit → Except Interrupt Value
  | .ok () => .ok .nil
  | .error (.returning _ v) => .ok v
  | .error e => .error e

theorem run_returned (body : Eval Unit) (m : Memory) :
    (returned body).run m = (callResult (body.run m).1, (body.run m).2) := by
  change returned body m = _
  rw [returned]
  rcases body.run m with ⟨(_ | _ | _) | _, m'⟩ <;> rfl

/-! On any scopes, a block and a call are what runs **between** two operations, and variables are
what the scopes say. -/

theorem run_inBlock_of {body : Eval α} {m m' : Memory} {r : Except Interrupt α}
    (h : body.run { m with scopes := Scoping.enterBlock m.scopes } = (r, m')) :
    (inBlock body).run m = (r, { m' with scopes := Scoping.exitBlock m'.scopes }) := by
  change (let entered := body.run { m with scopes := Scoping.enterBlock m.scopes }
    (entered.1, { entered.2 with scopes := Scoping.exitBlock entered.2.scopes })) = _
  rw [h]

theorem run_inCall_of {body : Eval α} {m m' : Memory} {r : Except Interrupt α}
    (h : body.run { m with scopes := Scoping.enterCall m.scopes } = (r, m')) :
    (inCall body).run m = (r, { m' with scopes := Scoping.exitCall m'.scopes }) := by
  change (let entered := body.run { m with scopes := Scoping.enterCall m.scopes }
    (entered.1, { entered.2 with scopes := Scoping.exitCall entered.2.scopes })) = _
  rw [h]

theorem run_lookup_of (name : Token) (m : Memory) :
    (lookup name).run m =
      (match Scoping.get? name.lexeme m.scopes with
        | some v => .ok v
        | none => .error (.failure ⟨name, .undefinedVariable⟩), m) := by
  have hget : (get : Eval Memory).run m = (.ok m, m) := rfl
  rw [lookup, run_bind, hget]
  dsimp only
  cases Scoping.get? name.lexeme m.scopes <;> rfl

theorem run_assign_of (name : Token) (v : Value) (m : Memory) :
    (assign name v).run m = match Scoping.assign? name.lexeme v m.scopes with
      | some scopes => (.ok (), { m with scopes })
      | none => (.error (.failure ⟨name, .undefinedVariable⟩), m) := by
  have hget : (get : Eval Memory).run m = (.ok m, m) := rfl
  rw [assign, run_bind, hget]
  dsimp only
  cases Scoping.assign? name.lexeme v m.scopes <;> rfl

end

section

variable {α : Type}

@[simp]
theorem run_onScopes (f : Scopes → Scopes) (m : Memory) :
    (onScopes f).run m = (.ok (), { m with scopes := f m.scopes }) := rfl

theorem run_inBlock (body : Eval α) (m : Memory) :
    (inBlock body).run m =
      let entered := body.run { m with scopes := m.scopes.enterBlock }
      (entered.1, { entered.2 with scopes := entered.2.scopes.exitBlock }) := rfl

theorem run_inCall (body : Eval α) (m : Memory) :
    (inCall body).run m =
      let entered := body.run { m with scopes := m.scopes.enterCall }
      (entered.1, { entered.2 with scopes := entered.2.scopes.exitCall }) := rfl

@[simp]
theorem run_define (x : String) (v : Value) (m : Memory) :
    (define x v).run m = (.ok (), { m with scopes := m.scopes.define x v }) := rfl

theorem run_lookup (name : Token) (m : Memory) :
    (lookup name).run m =
      (match m.scopes.get? name.lexeme with
        | some v => .ok v
        | none => .error (.failure ⟨name, .undefinedVariable⟩), m) := run_lookup_of name m

theorem run_assign (name : Token) (v : Value) (m : Memory) :
    (assign name v).run m = match m.scopes.assign? name.lexeme v with
      | some scopes => (.ok (), { m with scopes })
      | none => (.error (.failure ⟨name, .undefinedVariable⟩), m) := by
  rw [run_assign_of]
  dsimp only [Scoping.assign?]
  cases m.scopes.assign? name.lexeme v <;> rfl

@[simp]
theorem run_print (line : String) (m : Memory) :
    (print line).run m = (.ok (), { m with printed := m.printed.push line }) := rfl

@[simp]
theorem run_newFunction (f : Function) (m : Memory) :
    (newFunction f).run m = (.ok (.function f m.created), { m with created := m.created + 1 }) :=
  rfl

@[simp]
theorem run_readClock (host : Host) (m : Memory) :
    (readClock host).run m =
      (.ok (.number (host.clock m.readings)), { m with readings := m.readings + 1 }) := rfl

end

end Eval

end LoxLang
