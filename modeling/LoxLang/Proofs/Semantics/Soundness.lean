import LoxLang.Proofs.Evaluation.Bounds
import LoxLang.Proofs.Evaluation.Reachability
import LoxLang.Proofs.Semantics.Operations

/-!
# Runs follow the rules

What evaluation comes to is what the reference semantics derives, unless a bound cuts it off. A
run **follows** the rules if it is cut off, or if it answers with a result and leaves a state that
the rules lead to. The main statements are `evaluate_follows` and `execute_follows`. The
induction is on the bound on nesting, since a call runs a body that is no part of the expression;
inside of it there is one on the rounds of a loop.

The programs are well-formed and so are the bodies of all functions in sight. This is where
operators that are none are ruled out, for which there is no rule.
-/

namespace LoxLang

namespace Semantics

open Eval

variable {α β ρ σ : Type} {callers : List (List Frame)}

/-- The answer of a run **follows** the rules, which lead to the results and the states with `D`. -/
def Follows (encode : ρ → Except Interrupt α) (D : ρ → State → Prop)
    (callers : List (List Frame)) (answer : Except Interrupt α × Memory) : Prop :=
  CutOff answer.1 ∨ ∃ r s', answer = (encode r, s'.memory callers) ∧ D r s'

/-- The computation keeps all values well-formed, and gives a value with `Q`. -/
abbrev GivesWellFormed (Q : α → Prop) (p : Eval α) : Prop :=
  p.Gives (fun _ v => v.WellFormed) 0 fun _ => Q

/-! ### Computations built from others -/

namespace Follows

variable {encode : ρ → Except Interrupt α} {D : ρ → State → Prop}

theorem of_run {answer : Except Interrupt α × Memory} {r : ρ} {s' : State}
    (h : answer = (encode r, s'.memory callers)) (hD : D r s') : Follows encode D callers answer :=
  .inr ⟨r, s', h, hD⟩

theorem imp {D' : ρ → State → Prop} {answer : Except Interrupt α × Memory}
    (h : Follows encode D callers answer) (hD : ∀ r s', D r s' → D' r s') :
    Follows encode D' callers answer :=
  Or.imp_right (fun ⟨r, s', hrun, hr⟩ => ⟨r, s', hrun, hD r s' hr⟩) h

/-- Two computations in a row follow the rules if the first does, if the second does where the first
has a value, and if the rules stop where the first is interrupted. -/
theorem bind {decode : σ → Except Interrupt β} {D' : σ → State → Prop} {Q : β → Prop} {p : Eval β}
    {f : β → Eval α} {m : Memory} (hp : Follows decode D' callers (p.run m))
    (hgives : GivesWellFormed Q p) (hm : m.WellFormed)
    (hstop : ∀ r s' i, D' r s' → decode r = .error i → ∃ r', encode r' = .error i ∧ D r' s')
    (hgo : ∀ r s' v, D' r s' → decode r = .ok v → (s'.memory callers).WellFormed → Q v →
      Follows encode D callers ((f v).run (s'.memory callers))) :
    Follows encode D callers ((p >>= f).run m) := by
  obtain ⟨-, hevery, hresult⟩ := hgives m (Nat.zero_le _) hm
  rw [run_bind]
  rcases hp with ⟨reason, hbound, hcut⟩ | ⟨r, s', hrun, hD⟩
  · rcases hrun : p.run m with ⟨e | v, m'⟩
    · rw [hrun] at hcut
      cases hcut
      exact .inl ⟨reason, hbound, rfl⟩
    · rw [hrun] at hcut
      cases hcut
  · rw [hrun] at hevery hresult ⊢
    cases hr : decode r with
    | error i =>
      obtain ⟨r', hr', hD'⟩ := hstop r s' i hD hr
      exact .of_run (by rw [hr']) hD'
    | ok v =>
      rw [hr] at hresult
      exact hgo r s' v hD hr hevery hresult

end Follows

/-- To go on with the value of an expression: an error ends what it is part of. -/
theorem Follows.bindResult {encode : ρ → Except Interrupt α} {D : ρ → State → Prop}
    {D' : Result β → State → Prop} {Q : β → Prop} {p : Eval β} {f : β → Eval α} {m : Memory}
    (hp : Follows Result.toExcept D' callers (p.run m)) (hgives : GivesWellFormed Q p)
    (hm : m.WellFormed)
    (herror : ∀ e s', D' (.error e) s' → ∃ r, encode r = .error (.failure e) ∧ D r s')
    (hgo : ∀ v s', D' (.ok v) s' → (s'.memory callers).WellFormed → Q v →
      Follows encode D callers ((f v).run (s'.memory callers))) :
    Follows encode D callers ((p >>= f).run m) := by
  refine hp.bind hgives hm (fun r s' i hD hr => ?_) fun r s' v hD hr => ?_
  · cases r with
    | error e =>
      cases hr
      exact herror e s' hD
    | ok v => cases hr
  · cases r with
    | error e => cases hr
    | ok w =>
      cases hr
      exact hgo v s' hD

/-- To go on behind a statement: every outcome but the normal one ends what it is part of. -/
theorem Follows.bindOutcome {D D' : Outcome → State → Prop} {p q : Eval Unit} {m : Memory}
    (hp : Follows Outcome.toExcept D' callers (p.run m))
    (hgives : GivesWellFormed (fun _ => True) p) (hm : m.WellFormed)
    (hstop : ∀ o s', D' o s' → o ≠ .normal → D o s')
    (hgo : ∀ s', D' .normal s' → (s'.memory callers).WellFormed →
      Follows Outcome.toExcept D callers (q.run (s'.memory callers))) :
    Follows Outcome.toExcept D callers ((p >>= fun _ => q).run m) := by
  refine hp.bind hgives hm (fun o s' i hD ho => ⟨o, ho, hstop o s' hD ?_⟩) ?_
  · rintro rfl
    cases ho
  · intro o s' v hD ho hm' _
    cases o with
    | normal => exact hgo s' hD hm'
    | returning keyword v => cases ho
    | error e => cases ho

/-! ### Calls -/

section

variable {clock : Nat → Float} {rounds n : Nat}

/-- The **expressions** that nest less deeply than `n` follow the rules. -/
def ExpressionsFollow (clock : Nat → Float) (rounds n : Nat) : Prop :=
  ∀ ⦃e s callers⦄, e.WellFormed → (s.memory callers).WellFormed →
    Follows Result.toExcept (Evaluates clock e s) callers
      ((evaluate ⟨clock, rounds⟩ n e).run (s.memory callers))

/-- The **statements** that nest less deeply than `n` follow the rules. -/
def StatementsFollow (clock : Nat → Float) (rounds n : Nat) : Prop :=
  ∀ ⦃stmt s callers⦄, stmt.WellFormed → (s.memory callers).WellFormed →
    Follows Outcome.toExcept (Executes clock stmt s) callers
      ((execute ⟨clock, rounds⟩ n stmt).run (s.memory callers))

theorem gives_evaluate (host : Host) (n : Nat) (e : Expr) :
    GivesWellFormed Value.WellFormed (evaluate host n e) :=
  Value.lasting_wellFormed.evaluate host n e 0

theorem gives_mapM (host : Host) (n : Nat) (es : List Expr) :
    GivesWellFormed (fun vs => ∀ v ∈ vs, v.WellFormed) (es.mapM (evaluate host n)) :=
  Value.lasting_wellFormed.mapM fun e _ c _ => Value.lasting_wellFormed.evaluate host n e c

theorem gives_execute (host : Host) (n : Nat) {stmt : Stmt} (h : stmt.WellFormed) :
    GivesWellFormed (fun _ => True) (execute host n stmt) :=
  Value.lasting_wellFormed.execute host n (fun _ hf => h.of_declares hf) 0

theorem StatementsFollow.all (hs : StatementsFollow clock rounds n) {stmts : List Stmt}
    (hstmts : ∀ stmt ∈ stmts, stmt.WellFormed) {s : State} (hm : (s.memory callers).WellFormed) :
    Follows Outcome.toExcept (ExecutesAll clock stmts s) callers
      ((executeAll ⟨clock, rounds⟩ n stmts).run (s.memory callers)) := by
  induction stmts generalizing s with
  | nil => exact .of_run (r := .normal) rfl (.nil s)
  | cons stmt stmts ih =>
    obtain ⟨hstmt, hrest⟩ := List.forall_mem_cons.mp hstmts
    refine (hs hstmt hm).bindOutcome (gives_execute _ n hstmt) hm ?_ fun s₁ hnormal hm₁ => ?_
    · exact fun o s' hstop ho => .stop hstop ho
    · exact (ih hrest hm₁).imp fun o s' => .cons hnormal

theorem ExpressionsFollow.all (he : ExpressionsFollow clock rounds n) {es : List Expr}
    (hes : ∀ e ∈ es, e.WellFormed) {s : State} (hm : (s.memory callers).WellFormed) :
    Follows Result.toExcept (EvaluatesAll clock es s) callers
      ((es.mapM (evaluate ⟨clock, rounds⟩ n)).run (s.memory callers)) := by
  induction es generalizing s with
  | nil => exact .of_run (r := .ok []) rfl (.nil s)
  | cons e es ih =>
    obtain ⟨hfirst, hrest⟩ := List.forall_mem_cons.mp hes
    rw [List.mapM_cons]
    refine (he hfirst hm).bindResult (gives_evaluate _ n e) hm ?_ fun v s₁ hv hm₁ _ => ?_
    · exact fun error s' h => ⟨.error error, rfl, .first h⟩
    · refine (ih hrest hm₁).bindResult (gives_mapM _ n es) hm₁ ?_ fun vs s' hvs _ _ => ?_
      · exact fun error s' h => ⟨.error error, rfl, .later hv h⟩
      · exact .of_run (r := .ok (v :: vs)) rfl (.cons hv hvs)

/-- The memory that the body of a function starts from is well-formed. -/
private theorem wellFormed_call (parameters : List Token) {arguments : List Value} {s : State}
    (hm : (s.memory callers).WellFormed) (hv : ∀ v ∈ arguments, v.WellFormed) :
    ({ s with locals := [[], parameterFrame parameters arguments] }.memory
      (s.locals :: callers)).WellFormed := by
  have hentered : ({ s with locals := [[]] }.memory (s.locals :: callers)).WellFormed :=
    Scopes.Every.enterBlock (Scopes.Every.enterCall hm)
  have hbound := (Value.lasting_wellFormed.bindParameters (c := 0) parameters hv _
    (Nat.zero_le _) hentered).2.1
  rw [run_bindParameters] at hbound
  exact Scopes.Every.enterBlock hbound

/-- What is called follows the rules if bodies do. -/
theorem StatementsFollow.called (hs : StatementsFollow clock rounds n) (paren : Token) {f : Value}
    {arguments : List Value} {s : State} (hf : f.WellFormed)
    (hv : ∀ v ∈ arguments, v.WellFormed) (hm : (s.memory callers).WellFormed) :
    Follows Result.toExcept (Applies clock paren f arguments s) callers
      ((apply ⟨clock, rounds⟩ (executeAll ⟨clock, rounds⟩ n) paren f arguments).run
        (s.memory callers)) := by
  cases f with
  | function f identity =>
    rw [apply_function]
    split
    · next harity =>
      rw [run_call]
      have hbody := hs.all (hf f identity rfl) (wellFormed_call f.parameters hm hv)
      rcases hbody with ⟨reason, hbound, hcut⟩ | ⟨o, s', hrun, hall⟩
      -- A body that is cut off cuts off the call.
      · refine .inl ⟨reason, hbound, ?_⟩
        dsimp only
        rw [hcut]
        rfl
      · rw [hrun]
        refine .of_run (r := o.toResult) ?_ (.function paren harity hall)
        rw [← callResult_toExcept]
        rfl
    · next harity => exact .of_run (run_ofResult _ _) (.wrongArity paren s rfl harity)
  | native f identity =>
    rw [apply_native]
    split
    · next harity => exact .of_run (r := .ok _) (run_readClock _ _) (.native paren s harity)
    · next harity => exact .of_run (run_ofResult _ _) (.wrongArity paren s rfl harity)
  | _ =>
    rw [apply_of_arity?_eq_none _ _ paren rfl]
    exact .of_run (run_ofResult _ _) (.notCallable paren arguments s rfl)

/-! ### Expressions -/

variable {s : State}

/-- The result of an operator, as a run. -/
private theorem follows_ofResult {D : Result Value → State → Prop} {r : Result Value}
    {answer : Except Interrupt Value} (h : answer = r.toExcept) (hD : D r s) :
    Follows Result.toExcept D callers ((ofResult answer).run (s.memory callers)) :=
  .of_run (by rw [run_ofResult, h]) hD

/-- What evaluates one operand first: an error of the operand is an error of the whole. -/
private theorem ExpressionsFollow.operand (he : ExpressionsFollow clock rounds n) {operand : Expr}
    (hoperand : operand.WellFormed) (hm : (s.memory callers).WellFormed)
    {D : Result Value → State → Prop} {f : Value → Eval Value}
    (herror : ∀ e s', Evaluates clock operand s (.error e) s' → D (.error e) s')
    (hgo : ∀ v s', Evaluates clock operand s (.ok v) s' → (s'.memory callers).WellFormed →
      v.WellFormed → Follows Result.toExcept D callers ((f v).run (s'.memory callers))) :
    Follows Result.toExcept D callers
      ((evaluate ⟨clock, rounds⟩ n operand >>= f).run (s.memory callers)) :=
  (he hoperand hm).bindResult (gives_evaluate _ n operand) hm
    (fun e s' h => ⟨.error e, rfl, herror e s' h⟩) hgo

/-- One more level of nesting, for **expressions**. -/
private theorem ExpressionsFollow.succ (he : ExpressionsFollow clock rounds n)
    (hs : StatementsFollow clock rounds n) : ExpressionsFollow clock rounds (n + 1) := by
  intro e s callers hwf hm
  cases hwf with
  | literal value =>
    rw [evaluate]
    exact .of_run (r := .ok _) rfl (.literal value s)
  | grouping hinner =>
    rw [evaluate]
    exact (he hinner hm).imp fun _ _ => .grouping
  | unary hop hoperand =>
    rw [evaluate]
    refine he.operand hoperand hm (fun _ _ => .unaryError) fun v s' hv _ _ => ?_
    obtain ⟨r, hr⟩ := unary_total hop v
    exact follows_ofResult hr.applyUnary (.unary hv hr)
  | binary hleft hop hright =>
    rw [evaluate]
    refine he.operand hleft hm (fun _ _ => .binaryLeft) fun v s₁ hv hm₁ _ => ?_
    refine he.operand hright hm₁ (fun _ _ => .binaryRight hv) fun w s' hw _ _ => ?_
    obtain ⟨r, hr⟩ := binary_total hop v w
    exact follows_ofResult hr.applyBinary (.binary hv hw hr)
  | logical hleft hop hright =>
    rw [evaluate]
    refine he.operand hleft hm (fun _ _ => .logicalError) fun v s₁ hv hm₁ _ => ?_
    rcases decides_or_defers hop v with hdecides | hdefers
    · rw [if_pos hdecides.isTruthy_eq]
      exact .of_run (r := .ok v) rfl (.decided hv hdecides)
    · rw [if_neg hdefers.isTruthy_ne]
      exact (he hright hm₁).imp fun _ _ => .deferred hv hdefers
  | @name t hkind =>
    rw [evaluate]
    rcases binds_or_unbound t.lexeme s.frames with ⟨v, hv⟩ | hnone
    · exact .of_run (r := .ok v) hv.run_lookup (.name hv)
    · exact .of_run (r := .error _) hnone.run_lookup (.unbound hnone)
  | @assign target value hkind hvalue =>
    rw [evaluate]
    refine he.operand hvalue hm (fun _ _ => .assignError) fun v s₁ hv _ _ => ?_
    rw [run_bind]
    rcases rebinds_or_unbound target.lexeme v s₁.frames with ⟨frames, hframes⟩ | hnone
    · obtain ⟨s', rfl, hs'⟩ := hframes.exists_state
      rw [hframes.run_assign hs']
      exact .of_run (r := .ok v) rfl (.assign hv hframes hs')
    · rw [hnone.run_assign v]
      exact .of_run (r := .error _) rfl (.assignUnbound hv hnone)
  | @call callee paren arguments hcallee hkind harguments hlength =>
    rw [evaluate]
    refine he.operand hcallee hm (fun _ _ => .calleeError) fun f s₁ hf hm₁ hwf => ?_
    refine (he.all harguments hm₁).bindResult (gives_mapM _ n arguments) hm₁ ?_ ?_
    · exact fun e s' h => ⟨.error e, rfl, .argumentError hf h⟩
    · intro vs s₂ hvs hm₂ hwfs
      exact (hs.called paren hwf hwfs hm₂).imp fun _ _ => .call hf hvs

/-! ### Statements -/

/-- What executes a statement evaluates an expression first: its error is the outcome. -/
private theorem ExpressionsFollow.head (he : ExpressionsFollow clock rounds n) {value : Expr}
    (hvalue : value.WellFormed) (hm : (s.memory callers).WellFormed)
    {D : Outcome → State → Prop} {f : Value → Eval Unit}
    (herror : ∀ e s', Evaluates clock value s (.error e) s' → D (.error e) s')
    (hgo : ∀ v s', Evaluates clock value s (.ok v) s' → (s'.memory callers).WellFormed →
      Follows Outcome.toExcept D callers ((f v).run (s'.memory callers))) :
    Follows Outcome.toExcept D callers
      ((evaluate ⟨clock, rounds⟩ n value >>= f).run (s.memory callers)) :=
  (he hvalue hm).bindResult (gives_evaluate _ n value) hm
    (fun e s' h => ⟨.error e, rfl, herror e s' h⟩) fun v s' hv hm' _ => hgo v s' hv hm'

/-- The rounds of a **loop** follow the rules: by induction on how many it may make. -/
private theorem follows_loop (he : ExpressionsFollow clock rounds n)
    (hs : StatementsFollow clock rounds n) {condition : Expr} {body : Stmt}
    (hcondition : condition.WellFormed) (hbody : body.WellFormed) (k : Nat)
    (hm : (s.memory callers).WellFormed) :
    Follows Outcome.toExcept (Executes clock (.loop condition body) s) callers
      ((repeatWhile (Value.isTruthy <$> evaluate ⟨clock, rounds⟩ n condition)
        (execute ⟨clock, rounds⟩ n body) k).run (s.memory callers)) := by
  -- Each round is one rule, applied in front of the derivation for the rounds behind it.
  induction k generalizing s with
  | zero => exact .inl ⟨.unfinished, trivial, rfl⟩
  | succ k ih =>
    rw [repeatWhile, bind_map_left]
    refine he.head hcondition hm (fun _ _ => .loopError) fun v s₁ hv hm₁ => ?_
    by_cases hfalsy : Falsy v
    · rw [falsy_iff.mp hfalsy]
      exact .of_run (r := .normal) rfl (.loopEnd hv hfalsy)
    · rw [truthy_of_not_falsy hfalsy]
      refine (hs hbody hm₁).bindOutcome (gives_execute _ n hbody) hm₁ ?_ fun s₂ hround hm₂ => ?_
      · exact fun o s' hstop ho => .loopStop hv hfalsy hstop ho
      · exact (ih hm₂).imp fun _ _ => .loopRound hv hfalsy hround

/-- One more level of nesting, for **statements**. -/
private theorem StatementsFollow.succ (he : ExpressionsFollow clock rounds n)
    (hs : StatementsFollow clock rounds n) : StatementsFollow clock rounds (n + 1) := by
  intro stmt s callers hwf hm
  cases hwf with
  | expression hvalue =>
    rw [execute]
    refine he.head hvalue hm (fun _ _ => .expressionError) fun v s' hv _ => ?_
    exact .of_run (r := .normal) rfl (.expression hv)
  | print hvalue =>
    rw [execute]
    refine he.head hvalue hm (fun _ _ => .printError) fun v s' hv _ => ?_
    exact .of_run (r := .normal) rfl (.print hv)
  | @declare target value hkind hvalue =>
    cases value with
    | none =>
      rw [execute]
      exact .of_run (r := .normal) (run_define _ _ s callers) (.declare target s)
    | some value =>
      rw [execute]
      refine he.head (hvalue value rfl) hm (fun _ _ => .declareError) fun v s' hv _ => ?_
      exact .of_run (r := .normal) (run_define _ _ s' callers) (.declareValue hv)
  | @block body hbody =>
    rw [execute]
    change Follows _ _ _ ((inBlock (executeAll ⟨clock, rounds⟩ n body)).run (s.memory callers))
    have hentered : ({ s with locals := [] :: s.locals }.memory callers).WellFormed :=
      Scopes.Every.enterBlock hm
    rw [run_inBlock]
    -- The frame of the block is dropped in the rule as in the run.
    rcases hs.all hbody hentered with hcut | ⟨o, s', hrun, hall⟩
    · exact .inl hcut
    · rw [hrun]
      exact .of_run rfl (.block hall)
  | @branch condition yes no hcondition hyes _ hno _ =>
    cases no with
    | none =>
      rw [execute]
      refine he.head hcondition hm (fun _ _ => .branchError) fun v s₁ hv hm₁ => ?_
      by_cases hfalsy : Falsy v
      · rw [falsy_iff.mp hfalsy]
        exact .of_run (r := .normal) rfl (.branchNone hv hfalsy)
      · rw [truthy_of_not_falsy hfalsy]
        exact (hs hyes hm₁).imp fun _ _ => .branchYes hv hfalsy
    | some no =>
      rw [execute]
      refine he.head hcondition hm (fun _ _ => .branchError) fun v s₁ hv hm₁ => ?_
      by_cases hfalsy : Falsy v
      · rw [falsy_iff.mp hfalsy]
        exact (hs (hno no rfl) hm₁).imp fun _ _ => .branchNo hv hfalsy
      · rw [truthy_of_not_falsy hfalsy]
        exact (hs hyes hm₁).imp fun _ _ => .branchYes hv hfalsy
  | loop hcondition hbody _ =>
    rw [execute]
    exact follows_loop he hs hcondition hbody rounds hm
  | @function target parameters body _ _ _ _ =>
    rw [execute, run_bind, run_newFunction]
    exact .of_run (r := .normal) (run_define _ _ { s with created := s.created + 1 } callers)
      (.function target parameters body s)
  | @returnValue keyword value hvalue =>
    cases value with
    | none =>
      rw [execute]
      exact .of_run (r := .returning keyword .nil) rfl (.returnNil keyword s)
    | some value =>
      rw [execute]
      refine he.head (hvalue value rfl) hm (fun _ _ => .returnError) fun v s' hv _ => ?_
      exact .of_run (r := .returning keyword v) rfl (.returnValue hv)

/-! ### Runs -/

private theorem follow (clock : Nat → Float) (rounds n : Nat) :
    ExpressionsFollow clock rounds n ∧ StatementsFollow clock rounds n := by
  induction n with
  | zero =>
    -- Without any nesting everything is cut off.
    refine ⟨fun e s callers _ _ => .inl ⟨.overflow, trivial, ?_⟩,
      fun stmt s callers _ _ => .inl ⟨.overflow, trivial, ?_⟩⟩
    · rw [evaluate]
      rfl
    · rw [execute]
      rfl
  | succ n ih => exact ⟨ih.1.succ ih.2, .succ ih.1 ih.2⟩

/-- **Expressions** follow the rules. -/
theorem evaluate_follows (clock : Nat → Float) (rounds n : Nat) :
    ExpressionsFollow clock rounds n := (follow clock rounds n).1

/-- **Statements** follow the rules. -/
theorem execute_follows (clock : Nat → Float) (rounds n : Nat) :
    StatementsFollow clock rounds n := (follow clock rounds n).2

end

end Semantics

end LoxLang
