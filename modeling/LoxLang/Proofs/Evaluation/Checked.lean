import LoxLang.Proofs.Semantics.Refinement

/-!
# Evaluation with checks

Evaluation relies on the shape of trees without looking at it. A unary operator that is no minus is
taken for a negation, a logical operator that is no disjunction for a conjunction, a binary operator
is looked up in tables, and parameters are paired with arguments up to the end of the shorter list.

Here is evaluation that looks first, and **panics** where something is not what evaluation takes it
for. Parsed programs do not panic, in no reachable memory and in no function they find there:
whatever it is that a panic does, they run as they do without the checks
(`executeAll_checked`). So `no_internal_error` says how they can end.
-/

namespace LoxLang

namespace Eval

variable {α : Type}

/-- Goes on if a check **holds**, and panics if it does not. -/
def guarded (panic : Interrupt) (holds : Prop) [Decidable holds] (body : Eval α) : Eval α :=
  if holds then body else throw panic

/-- Binds parameters to arguments **one to one**, and panics if one list is longer. -/
def bindOneToOne (panic : Interrupt) : List Token → List Value → Eval Unit
  | [], [] => pure ()
  | p :: parameters, v :: arguments => do
    define p.lexeme v
    bindOneToOne panic parameters arguments
  | _, _ => throw panic

/-- Calls a value as `Eval.apply` does, with its parameters bound one to one. -/
def applyChecked (panic : Interrupt) (host : Host) (run : List Stmt → Eval Unit) (paren : Token)
    (callee : Value) (arguments : List Value) : Eval Value :=
  match callee.arity? with
  | none => ofResult (fail paren .notCallable)
  | some arity =>
    if arguments.length = arity then
      match callee with
      | .function f _ => inCall (returned (do
          onScopes Scopes.enterBlock
          bindOneToOne panic f.parameters arguments
          inBlock (run f.body)))
      | _ => readClock host
    else ofResult (fail paren (.wrongArity arity arguments.length))

end Eval

open Eval Semantics

mutual

/-- Evaluates an expression as `evaluate` does, and **checks** its operators. -/
def evaluateChecked (panic : Interrupt) (host : Host) : Nat → Expr → Eval Value
  | 0, _ => abort .overflow
  | _ + 1, .literal value => pure (.ofLiteral value)
  | n + 1, .grouping inner => evaluateChecked panic host n inner
  | n + 1, .unary op operand => do
    let v ← evaluateChecked panic host n operand
    guarded panic (op.kind = .bang ∨ op.kind = .minus) (ofResult (applyUnary op v))
  | n + 1, .binary left op right => do
    let v ← evaluateChecked panic host n left
    let w ← evaluateChecked panic host n right
    guarded panic (op.kind ∈ binaryOperators) (ofResult (applyBinary op v w))
  | n + 1, .logical left op right => do
    let v ← evaluateChecked panic host n left
    guarded panic (op.kind = .keyword .and_ ∨ op.kind = .keyword .or_)
      (if v.isTruthy = (op.kind = .keyword .or_ : Bool) then pure v
        else evaluateChecked panic host n right)
  | _ + 1, .name token => lookup token
  | n + 1, .assign target value => do
    let v ← evaluateChecked panic host n value
    assign target v
    pure v
  | n + 1, .call callee paren arguments => do
    let f ← evaluateChecked panic host n callee
    let vs ← arguments.mapM (evaluateChecked panic host n)
    applyChecked panic host (fun body => body.forM (executeChecked panic host n)) paren f vs

/-- Executes a statement as `execute` does, and **checks** the operators of its expressions. -/
def executeChecked (panic : Interrupt) (host : Host) : Nat → Stmt → Eval Unit
  | 0, _ => abort .overflow
  | n + 1, .expression value => do
    let _ ← evaluateChecked panic host n value
  | n + 1, .print value => do
    let v ← evaluateChecked panic host n value
    print v.display
  | _ + 1, .declare target none => define target.lexeme .nil
  | n + 1, .declare target (some value) => do
    let v ← evaluateChecked panic host n value
    define target.lexeme v
  | n + 1, .block body => inBlock (body.forM (executeChecked panic host n))
  | n + 1, .branch condition yes no => do
    let v ← evaluateChecked panic host n condition
    if v.isTruthy then executeChecked panic host n yes
    else
      match no with
      | some s => executeChecked panic host n s
      | none => pure ()
  | n + 1, .loop condition body =>
    repeatWhile (Value.isTruthy <$> evaluateChecked panic host n condition)
      (executeChecked panic host n body) host.rounds
  | _ + 1, .function target parameters body => do
    let f ← newFunction ⟨target, parameters, body⟩
    define target.lexeme f
  | _ + 1, .returnValue keyword none => throw (.returning keyword .nil)
  | n + 1, .returnValue keyword (some value) => do
    let v ← evaluateChecked panic host n value
    throw (.returning keyword v)

end

/-- Executes statements in order, and **checks** the operators of their expressions. -/
def executeAllChecked (panic : Interrupt) (host : Host) (n : Nat) (statements : List Stmt) :
    Eval Unit := statements.forM (executeChecked panic host n)

/-! ### Computations that do the same -/

namespace Eval

/-- Computations are the **same** on every memory whose values are well-formed. -/
def Same {α : Type} (p q : Eval α) : Prop := ∀ m : Memory, m.WellFormed → p.run m = q.run m

namespace Same

variable {α β : Type}

theorem refl (p : Eval α) : p.Same p := fun _ _ => rfl

theorem bind {Q : α → Prop} {p q : Eval α} {f g : α → Eval β} (hp : p.Same q)
    (hgives : GivesWellFormed Q q) (hf : ∀ a, Q a → (f a).Same (g a)) :
    (p >>= f).Same (q >>= g) := by
  intro m hm
  obtain ⟨-, hevery, hresult⟩ := hgives m (Nat.zero_le _) hm
  rw [run_bind, run_bind, hp m hm]
  rcases h : q.run m with ⟨e | a, m'⟩
  · rfl
  · rw [h] at hevery hresult
    exact hf a hresult m' hevery

theorem forM {f g : α → Eval Unit} {as : List α} (hf : ∀ a ∈ as, (f a).Same (g a))
    (hgives : ∀ a ∈ as, GivesWellFormed (fun _ => True) (g a)) : (as.forM f).Same (as.forM g) := by
  induction as with
  | nil => exact refl _
  | cons a as ih =>
    obtain ⟨ha, has⟩ := List.forall_mem_cons.mp hf
    obtain ⟨hgive, hgives⟩ := List.forall_mem_cons.mp hgives
    exact ha.bind hgive fun _ _ => ih has hgives

/-- What comes behind the same may be anything. -/
theorem before {p q : Eval α} (hp : p.Same q) (f : α → Eval β) : (p >>= f).Same (q >>= f) := by
  intro m hm
  rw [run_bind, run_bind, hp m hm]

theorem mapM {Q : β → Prop} {f g : α → Eval β} {as : List α} (hf : ∀ a ∈ as, (f a).Same (g a))
    (hgives : ∀ a ∈ as, GivesWellFormed Q (g a)) : (as.mapM f).Same (as.mapM g) := by
  induction as with
  | nil => exact refl _
  | cons a as ih =>
    obtain ⟨ha, has⟩ := List.forall_mem_cons.mp hf
    obtain ⟨hgive, hgives⟩ := List.forall_mem_cons.mp hgives
    rw [List.mapM_cons, List.mapM_cons]
    exact ha.bind hgive fun b _ => (ih has hgives).before _

theorem repeatWhile {c d : Eval Bool} {p q : Eval Unit} (hc : c.Same d)
    (hcondition : GivesWellFormed (fun _ => True) d) (hp : p.Same q)
    (hbody : GivesWellFormed (fun _ => True) q) (k : Nat) :
    (Eval.repeatWhile c p k).Same (Eval.repeatWhile d q k) := by
  induction k with
  | zero => exact refl _
  | succ k ih =>
    refine hc.bind hcondition fun holds _ => ?_
    cases holds with
    | false => exact refl _
    | true => exact hp.bind hbody fun _ _ => ih

theorem inBlock {p q : Eval α} (hp : p.Same q) : (Eval.inBlock p).Same (Eval.inBlock q) := by
  intro m hm
  have hentered : Memory.WellFormed { m with scopes := m.scopes.enterBlock } := hm.enterBlock
  rw [run_inBlock, run_inBlock, hp _ hentered]

theorem call (parameters : List Token) {arguments : List Value} {p q : Eval Unit} (hp : p.Same q)
    (hv : ∀ v ∈ arguments, v.WellFormed) :
    (Eval.call parameters arguments p).Same (Eval.call parameters arguments q) := by
  intro m hm
  have hentered : Memory.WellFormed { m with scopes := m.scopes.enterCall.enterBlock } :=
    Scopes.Every.enterBlock (Scopes.Every.enterCall hm)
  have hbound : GivesWellFormed (fun _ => True) (bindParameters parameters arguments) :=
    Value.lasting_wellFormed.bindParameters parameters hv
  have hbody := (refl _).bind hbound (fun _ _ => hp.inBlock) _ hentered
  rw [run_call, run_call, run_returned, run_returned, hbody]

/-- A **check** that holds changes nothing. -/
theorem guarded {panic : Interrupt} {holds : Prop} [Decidable holds] (h : holds) (p : Eval α) :
    (Eval.guarded panic holds p).Same p := by
  rw [Eval.guarded, if_pos h]
  exact refl p

/-- As many parameters as arguments are bound **one to one**. -/
theorem bindOneToOne (panic : Interrupt) {parameters : List Token} {arguments : List Value}
    (h : arguments.length = parameters.length) :
    Eval.bindOneToOne panic parameters arguments = bindParameters parameters arguments := by
  induction parameters generalizing arguments with
  | nil =>
    rw [List.length_eq_zero_iff.mp h]
    rfl
  | cons p parameters ih =>
    obtain ⟨v, arguments, rfl⟩ := List.exists_cons_of_length_eq_add_one h
    rw [Eval.bindOneToOne, ih (Nat.succ.inj h)]
    rfl

/-- What is **called** does the same if its body does. -/
theorem applyChecked {panic : Interrupt} (host : Host) {run run' : List Stmt → Eval Unit}
    (paren : Token) {callee : Value} {arguments : List Value} (hcallee : callee.WellFormed)
    (hv : ∀ v ∈ arguments, v.WellFormed)
    (hrun : ∀ body : List Stmt, (∀ s ∈ body, s.WellFormed) → (run body).Same (run' body)) :
    (Eval.applyChecked panic host run paren callee arguments).Same
      (apply host run' paren callee arguments) := by
  cases callee with
  | function f identity =>
    rw [apply_function]
    change Eval.Same (if arguments.length = f.parameters.length then _ else _) _
    split
    · next harity =>
      rw [bindOneToOne panic harity]
      exact (hrun f.body (hcallee f identity rfl)).call f.parameters hv
    · exact refl _
  | native f identity => exact refl _
  | _ => exact refl _

end Same

/-! ### Expressions and statements -/

section

variable (panic : Interrupt) (host : Host) {n : Nat}

/-- One more level of nesting, for **expressions**. -/
private theorem same_evaluateChecked
    (he : ∀ e : Expr, e.WellFormed → (evaluateChecked panic host n e).Same (evaluate host n e))
    (hs : ∀ s : Stmt, s.WellFormed → (executeChecked panic host n s).Same (execute host n s))
    {e : Expr} (h : e.WellFormed) :
    (evaluateChecked panic host (n + 1) e).Same (evaluate host (n + 1) e) := by
  have hgives := gives_evaluate host n
  cases h with
  | literal value => rw [evaluateChecked, evaluate]; exact .refl _
  | grouping hinner => rw [evaluateChecked, evaluate]; exact he _ hinner
  | unary hop hoperand =>
    rw [evaluateChecked, evaluate]
    exact (he _ hoperand).bind (hgives _) fun v _ => .guarded hop _
  | binary hleft hop hright =>
    rw [evaluateChecked, evaluate]
    refine (he _ hleft).bind (hgives _) fun v _ => ?_
    exact (he _ hright).bind (hgives _) fun w _ => .guarded hop _
  | logical hleft hop hright =>
    rw [evaluateChecked, evaluate]
    refine (he _ hleft).bind (hgives _) fun v _ => ?_
    rw [guarded, if_pos hop]
    split
    · exact .refl _
    · exact he _ hright
  | name _ => rw [evaluateChecked, evaluate]; exact .refl _
  | assign _ hvalue =>
    rw [evaluateChecked, evaluate]
    exact (he _ hvalue).before _
  | @call callee paren arguments hcallee _ harguments _ =>
    rw [evaluateChecked, evaluate]
    refine (he _ hcallee).bind (hgives _) fun f hf => ?_
    refine Same.bind (.mapM (fun e hmem => he e (harguments e hmem)) fun e _ => hgives e)
      (gives_mapM host n arguments) fun vs hvs => ?_
    -- The body that runs is that of a function in sight, so it is well-formed as well.
    refine .applyChecked host paren hf hvs fun body hbody => ?_
    refine .forM (fun s hmem => hs s (hbody s hmem)) fun s hmem => ?_
    exact gives_execute host n (hbody s hmem)

/-- One more level of nesting, for **statements**. -/
private theorem same_executeChecked
    (he : ∀ e : Expr, e.WellFormed → (evaluateChecked panic host n e).Same (evaluate host n e))
    (hs : ∀ s : Stmt, s.WellFormed → (executeChecked panic host n s).Same (execute host n s))
    {s : Stmt} (h : s.WellFormed) :
    (executeChecked panic host (n + 1) s).Same (execute host (n + 1) s) := by
  have hgives := gives_evaluate host n
  cases h with
  | expression hvalue => rw [executeChecked, execute]; exact (he _ hvalue).before _
  | print hvalue => rw [executeChecked, execute]; exact (he _ hvalue).before _
  | @declare target value _ hvalue =>
    cases value with
    | none => rw [executeChecked, execute]; exact .refl _
    | some value => rw [executeChecked, execute]; exact (he _ (hvalue value rfl)).before _
  | @block body hbody =>
    rw [executeChecked, execute]
    refine .inBlock (.forM (fun s hmem => hs s (hbody s hmem)) fun s hmem => ?_)
    exact gives_execute host n (hbody s hmem)
  | @branch condition yes no hcondition hyes _ hno _ =>
    cases no with
    | none =>
      rw [executeChecked, execute]
      refine (he _ hcondition).bind (hgives _) fun v _ => ?_
      split
      · exact hs yes hyes
      · exact .refl _
    | some no =>
      rw [executeChecked, execute]
      refine (he _ hcondition).bind (hgives _) fun v _ => ?_
      split
      · exact hs yes hyes
      · exact hs no (hno no rfl)
  | @loop condition body hcondition hbody _ =>
    rw [executeChecked, execute]
    have htruth : GivesWellFormed (fun _ => True)
        (Value.isTruthy <$> evaluate host n condition) :=
      Value.Lasting.map (hgives condition) fun _ _ _ => trivial
    rw [← bind_pure_comp] at htruth
    rw [← bind_pure_comp, ← bind_pure_comp]
    refine .repeatWhile ((he condition hcondition).before _) htruth (hs body hbody) ?_ _
    exact gives_execute host n hbody
  | function _ _ _ _ => rw [executeChecked, execute]; exact .refl _
  | @returnValue keyword value hvalue =>
    cases value with
    | none => rw [executeChecked, execute]; exact .refl _
    | some value => rw [executeChecked, execute]; exact (he _ (hvalue value rfl)).before _

/-- **Checks change nothing** about well-formed expressions and statements. -/
private theorem same_checked (n : Nat) :
    (∀ e : Expr, e.WellFormed → (evaluateChecked panic host n e).Same (evaluate host n e)) ∧
      ∀ s : Stmt, s.WellFormed → (executeChecked panic host n s).Same (execute host n s) := by
  induction n with
  | zero =>
    refine ⟨fun e _ => ?_, fun s _ => ?_⟩
    · rw [evaluateChecked, evaluate]; exact .refl _
    · rw [executeChecked, execute]; exact .refl _
  | succ n ih =>
    exact ⟨fun _ => same_evaluateChecked panic host ih.1 ih.2,
      fun _ => same_executeChecked panic host ih.1 ih.2⟩

/-- **Checks change nothing** about a parsed program. -/
theorem executeAll_checked (n : Nat) {statements : List Stmt}
    (h : ∀ s ∈ statements, s.WellFormed) :
    (executeAllChecked panic host n statements).Same (executeAll host n statements) :=
  .forM (fun s hs => (same_checked panic host n).2 s (h s hs))
    fun s hs => gives_execute host n (h s hs)

end

end Eval

/-- **No program gets into an internal error.** Whatever text was parsed, with faults or without,
and whatever programs were run before:

- Its statements are well-formed, and so are all functions that the memory holds.
- Evaluation that checks its operators, and that a call has one argument for each parameter, runs
  them as evaluation does that does not check. So it never panics.
- They run to their end, or are ended by a runtime error, by a `return` outside of all calls or by
  an overflow, unless they have not ended in the rounds that the host allows. -/
theorem no_internal_error (host : Host) (n : Nat) (source : String) {m : Memory}
    (hm : m.Reachable) :
    let program := (Parse.ofSource source).statements
    let run := (executeAll host n program).run m
    (∀ s ∈ program, s.WellFormed) ∧
      (m.Every fun _ v => ∀ f i, v = .function f i → f.WellFormed) ∧
      (∀ panic, (executeAllChecked panic host n program).run m = run) ∧
      (run.1 = .ok () ∨ (∃ e, run.1 = .error (.failure e)) ∨
        (∃ keyword v, run.1 = .error (.returning keyword v)) ∨
        run.1 = .error (.abort .overflow) ∨ run.1 = .error (.abort .unfinished)) := by
  intro program run
  have hprogram : ∀ s ∈ program, s.WellFormed := parse_wellFormed (scan source).tokens
  refine ⟨hprogram, hm.every Value.lasting_function fun _ hf => hf, fun panic => ?_, ?_⟩
  · exact executeAll_checked panic host n hprogram m hm.every_wellFormed
  · rcases hend : run.1 with (e | ⟨keyword, v⟩ | reason) | _
    · exact .inr (.inl ⟨e, rfl⟩)
    · exact .inr (.inr (.inl ⟨keyword, v, rfl⟩))
    · have hbound := isBound_of_executeAll host n (scan source).tokens hm hend
      cases reason with
      | overflow => exact .inr (.inr (.inr (.inl rfl)))
      | unfinished => exact .inr (.inr (.inr (.inr rfl)))
      | unknownOperator op => exact hbound.elim
    · exact .inl rfl

/-- A function of one parameter that is called on two arguments. -/
theorem no_internal_error_of_arity :
    let host : Host := ⟨fun _ => 0, 1⟩
    let program := (Parse.ofSource "fun f(a) \x7b return !a; \x7d f(f, 1);").statements
    ∀ panic, ∃ e, ((executeAllChecked panic host 9 program).run .fresh).1 = .error (.failure e) ∧
      e.message = "Expected 1 arguments but got 2." := by
  intro host program panic
  have hsafe := no_internal_error host 9 "fun f(a) \x7b return !a; \x7d f(f, 1);" .fresh
  have hchecked : (executeAllChecked panic host 9 program).run .fresh =
      (executeAll host 9 program).run .fresh := hsafe.2.2.1 panic
  have hmessage : (match ((executeAll host 9 program).run .fresh).1 with
      | .error (.failure e) => e.message
      | _ => "") = "Expected 1 arguments but got 2." := by decide +kernel
  rw [hchecked]
  split at hmessage
  · next e he => exact ⟨e, he, hmessage⟩
  · exact absurd hmessage (by decide)

end LoxLang
