import LoxLang.Proofs.Semantics.ForLoops
import LoxLang.Proofs.Semantics.Refinement
import LoxLang.Proofs.Syntax.Following

/-!
# Rules for `for` loops

The reference semantics has rules for the statements of a tree, and so none for a `for` loop. Here
are such rules, over those for expressions and statements: the start in a frame of the loop, and
then round after round the condition, the body and the step in that frame. A run of the loop itself
follows them (`executeFor_follows`), and what they derive is reached (`ExecutesFor.reaches`).

The main statement is `parsed_forLoop_direct`: the tree of a `for` statement that is parsed does
what the loop does, and the semantics of the tree is what these rules say.
-/

namespace LoxLang

open Eval

namespace Semantics

/-! ### The rules -/

/-- The **start** of a loop, if there is one. -/
inductive ForStart (clock : Nat → Float) : Option Stmt → State → Outcome → State → Prop
  | missing (s : State) : ForStart clock none s .normal s
  | executes {start : Stmt} {s s' : State} {o : Outcome} :
    Executes clock start s o s' → ForStart clock (some start) s o s'

/-- The **condition** of a loop, which holds if it is missing. -/
inductive ForCondition (clock : Nat → Float) : Option Expr → State → Result Bool → State → Prop
  | missing (s : State) : ForCondition clock none s (.ok true) s
  | holds {condition : Expr} {s s' : State} {v : Value} :
    Evaluates clock condition s (.ok v) s' → ¬ Falsy v →
      ForCondition clock (some condition) s (.ok true) s'
  | fails {condition : Expr} {s s' : State} {v : Value} :
    Evaluates clock condition s (.ok v) s' → Falsy v →
      ForCondition clock (some condition) s (.ok false) s'
  | error {condition : Expr} {s s' : State} {e : RuntimeError} :
    Evaluates clock condition s (.error e) s' →
      ForCondition clock (some condition) s (.error e) s'

/-- The **step** of a loop, if there is one. -/
inductive ForStep (clock : Nat → Float) : Option Expr → State → Outcome → State → Prop
  | missing (s : State) : ForStep clock none s .normal s
  | value {step : Expr} {s s' : State} {v : Value} :
    Evaluates clock step s (.ok v) s' → ForStep clock (some step) s .normal s'
  | error {step : Expr} {s s' : State} {e : RuntimeError} :
    Evaluates clock step s (.error e) s' → ForStep clock (some step) s (.error e) s'

/-- The **rounds** of a loop, in its own frame. -/
inductive ForRounds (clock : Nat → Float) (condition step : Option Expr) (body : Stmt) :
    State → Outcome → State → Prop
  | finished {s s' : State} :
    ForCondition clock condition s (.ok false) s' →
      ForRounds clock condition step body s .normal s'
  | round {s s₁ s₂ s₃ s' : State} {o : Outcome} :
    ForCondition clock condition s (.ok true) s₁ → Executes clock body s₁ .normal s₂ →
      ForStep clock step s₂ .normal s₃ → ForRounds clock condition step body s₃ o s' →
      ForRounds clock condition step body s o s'
  | conditionError {s s' : State} {e : RuntimeError} :
    ForCondition clock condition s (.error e) s' →
      ForRounds clock condition step body s (.error e) s'
  | bodyStop {s s₁ s' : State} {o : Outcome} :
    ForCondition clock condition s (.ok true) s₁ → Executes clock body s₁ o s' → o ≠ .normal →
      ForRounds clock condition step body s o s'
  | stepStop {s s₁ s₂ s' : State} {o : Outcome} :
    ForCondition clock condition s (.ok true) s₁ → Executes clock body s₁ .normal s₂ →
      ForStep clock step s₂ o s' → o ≠ .normal → ForRounds clock condition step body s o s'

/-- A **`for` loop**, with a frame of its own. -/
inductive ExecutesFor (clock : Nat → Float) (start : Option Stmt) (condition step : Option Expr)
    (body : Stmt) : State → Outcome → State → Prop
  | loop {s s₁ s' : State} {o : Outcome} :
    ForStart clock start { s with locals := [] :: s.locals } .normal s₁ →
      ForRounds clock condition step body s₁ o s' →
      ExecutesFor clock start condition step body s o { s' with locals := s'.locals.tail }
  | startStop {s s' : State} {o : Outcome} :
    ForStart clock start { s with locals := [] :: s.locals } o s' → o ≠ .normal →
      ExecutesFor clock start condition step body s o { s' with locals := s'.locals.tail }

variable {clock : Nat → Float} {callers : List (List Frame)} {start : Option Stmt}
  {condition step : Option Expr} {body : Stmt} {s s' : State} {o : Outcome}

/-! ### Loops follow the rules -/

theorem gives_evaluateCondition (host : Host) (n : Nat) (condition : Option Expr) :
    GivesWellFormed (fun _ => True) (evaluateCondition host n condition) := by
  cases condition with
  | none => exact Value.Lasting.pure fun _ _ => trivial
  | some e => exact Value.Lasting.map (gives_evaluate host n e) fun _ _ _ => trivial

theorem gives_evaluateStep (host : Host) (n : Nat) (step : Option Expr) :
    GivesWellFormed (fun _ => True) (evaluateStep host n step) := by
  cases step with
  | none => exact Value.Lasting.pure fun _ _ => trivial
  | some e =>
    exact Value.Lasting.bind (Value.lasting_wellFormed.evaluate host n e 0) fun _ _ _ _ =>
      Value.Lasting.pure fun _ _ => trivial

theorem gives_executeStart (host : Host) (n : Nat) (hstart : ∀ stmt ∈ start, stmt.WellFormed) :
    GivesWellFormed (fun _ => True) (executeStart host n start) := by
  cases start with
  | none => exact Value.Lasting.pure fun _ _ => trivial
  | some stmt => exact gives_execute host n (hstart stmt rfl)

section

variable (rounds n : Nat) (hm : (s.memory callers).WellFormed)

include hm

theorem start_follows (hstart : ∀ stmt ∈ start, stmt.WellFormed) :
    Follows Outcome.toExcept (ForStart clock start s) callers
      ((executeStart ⟨clock, rounds⟩ n start).run (s.memory callers)) := by
  cases start with
  | none => exact .of_run (r := .normal) rfl (.missing s)
  | some stmt =>
    exact (execute_follows clock rounds n (hstart stmt rfl) hm).imp fun _ _ => .executes

theorem condition_follows (hcondition : ∀ e ∈ condition, e.WellFormed) :
    Follows Result.toExcept (ForCondition clock condition s) callers
      ((evaluateCondition ⟨clock, rounds⟩ n condition).run (s.memory callers)) := by
  cases condition with
  | none => exact .of_run (r := .ok true) rfl (.missing s)
  | some e =>
    rw [evaluateCondition, ← bind_pure_comp]
    refine (evaluate_follows clock rounds n (hcondition e rfl) hm).bindResult
      (gives_evaluate _ n e) hm (fun e s' h => ⟨.error e, rfl, .error h⟩) fun v s' hv _ _ => ?_
    by_cases hfalsy : Falsy v
    · rw [falsy_iff.mp hfalsy]
      exact .of_run (r := .ok false) rfl (.fails hv hfalsy)
    · rw [truthy_of_not_falsy hfalsy]
      exact .of_run (r := .ok true) rfl (.holds hv hfalsy)

theorem step_follows (hstep : ∀ e ∈ step, e.WellFormed) :
    Follows Outcome.toExcept (ForStep clock step s) callers
      ((evaluateStep ⟨clock, rounds⟩ n step).run (s.memory callers)) := by
  cases step with
  | none => exact .of_run (r := .normal) rfl (.missing s)
  | some e =>
    refine (evaluate_follows clock rounds n (hstep e rfl) hm).bindResult
      (gives_evaluate _ n e) hm (fun e s' h => ⟨.error e, rfl, .error h⟩) fun v s' hv _ _ => ?_
    exact .of_run (r := .normal) rfl (.value hv)

variable (hcondition : ∀ e ∈ condition, e.WellFormed) (hstep : ∀ e ∈ step, e.WellFormed)
  (hbody : body.WellFormed)

include hcondition hstep hbody

/-- The **rounds** follow the rules: by induction on how many there may be. -/
theorem rounds_follow (k : Nat) :
    Follows Outcome.toExcept (ForRounds clock condition step body s) callers
      ((repeatWhile (evaluateCondition ⟨clock, rounds⟩ n condition)
        (do execute ⟨clock, rounds⟩ n body; evaluateStep ⟨clock, rounds⟩ n step) k).run
        (s.memory callers)) := by
  induction k generalizing s with
  | zero => exact .inl ⟨.unfinished, trivial, rfl⟩
  | succ k ih =>
    rw [repeatWhile]
    refine (condition_follows rounds n hm hcondition).bindResult
      (gives_evaluateCondition _ n condition) hm
      (fun e s' h => ⟨.error e, rfl, .conditionError h⟩) fun holds s₁ hholds hm₁ _ => ?_
    cases holds with
    | false => exact .of_run (r := .normal) rfl (.finished hholds)
    | true =>
      rw [if_pos rfl, bind_assoc]
      refine (execute_follows clock rounds n hbody hm₁).bindOutcome (gives_execute _ n hbody) hm₁
        (fun o s' h ho => .bodyStop hholds h ho) fun s₂ hround hm₂ => ?_
      refine (step_follows rounds n hm₂ hstep).bindOutcome (gives_evaluateStep _ n step) hm₂
        (fun o s' h ho => .stepStop hholds hround h ho) fun s₃ hnext hm₃ => ?_
      exact (ih hm₃).imp fun _ _ => .round hholds hround hnext

/-- What a `for` loop comes to is what its **rules** derive, unless a bound cuts it off. -/
theorem executeFor_follows (hstart : ∀ stmt ∈ start, stmt.WellFormed) :
    Follows Outcome.toExcept (ExecutesFor clock start condition step body s) callers
      ((executeFor ⟨clock, rounds⟩ n start condition step body).run (s.memory callers)) := by
  have hentered : ({ s with locals := [] :: s.locals }.memory callers).WellFormed :=
    Scopes.Every.enterBlock hm
  have hinside : Follows Outcome.toExcept
      (fun o s' => ExecutesFor clock start condition step body s o
        { s' with locals := s'.locals.tail }) callers
      ((do
        executeStart ⟨clock, rounds⟩ n start
        repeatWhile (evaluateCondition ⟨clock, rounds⟩ n condition)
          (do execute ⟨clock, rounds⟩ n body; evaluateStep ⟨clock, rounds⟩ n step) rounds).run
        ({ s with locals := [] :: s.locals }.memory callers)) := by
    refine (start_follows rounds n hentered hstart).bindOutcome
      (gives_executeStart _ n hstart) hentered
      (fun o s' h ho => .startStop h ho) fun s₁ hstarted hm₁ => ?_
    exact (rounds_follow rounds n hm₁ hcondition hstep hbody rounds).imp fun _ _ => .loop hstarted
  rw [executeFor, Eval.forLoop, run_inBlock]
  rcases hinside with hcut | ⟨o, s', hrun, hfor⟩
  · exact .inl hcut
  · rw [hrun]
    exact .of_run rfl hfor

end

/-! ### What the rules derive is reached -/

theorem ForStart.reaches (h : ForStart clock start s o s') (callers : List (List Frame)) :
    Reaches (fun rounds n => executeStart ⟨clock, rounds⟩ n start) (s.memory callers)
      (o.toExcept, s'.memory callers) := by
  cases h with
  | missing => exact .of_run fun _ _ => rfl
  | executes hstart => exact hstart.reaches callers

theorem ForCondition.reaches {r : Result Bool} (h : ForCondition clock condition s r s')
    (callers : List (List Frame)) :
    Reaches (fun rounds n => evaluateCondition ⟨clock, rounds⟩ n condition) (s.memory callers)
      (r.toExcept, s'.memory callers) := by
  cases h with
  | missing => exact .of_run fun _ _ => rfl
  | holds hv hfalsy =>
    simp only [evaluateCondition, ← bind_pure_comp]
    refine (hv.reaches callers).bind (.of_run fun _ _ => ?_)
    rw [truthy_of_not_falsy hfalsy]
    rfl
  | fails hv hfalsy =>
    simp only [evaluateCondition, ← bind_pure_comp]
    refine (hv.reaches callers).bind (.of_run fun _ _ => ?_)
    rw [falsy_iff.mp hfalsy]
    rfl
  | error he =>
    simp only [evaluateCondition, ← bind_pure_comp]
    exact (he.reaches callers).bind_error

theorem ForStep.reaches (h : ForStep clock step s o s') (callers : List (List Frame)) :
    Reaches (fun rounds n => evaluateStep ⟨clock, rounds⟩ n step) (s.memory callers)
      (o.toExcept, s'.memory callers) := by
  cases h with
  | missing => exact .of_run fun _ _ => rfl
  | value hv => exact (hv.reaches callers).bind (.of_run fun _ _ => rfl)
  | error he => exact (he.reaches callers).bind_error

theorem ForRounds.reaches (h : ForRounds clock condition step body s o s')
    (callers : List (List Frame)) :
    Reaches (fun rounds n => repeatWhile (evaluateCondition ⟨clock, rounds⟩ n condition)
        (do execute ⟨clock, rounds⟩ n body; evaluateStep ⟨clock, rounds⟩ n step) rounds)
      (s.memory callers) (o.toExcept, s'.memory callers) := by
  induction h with
  | finished hcondition =>
    exact .repeatWhile ((hcondition.reaches callers).bind (.of_run fun _ _ => rfl))
  | round hcondition hbody hstep _ ih =>
    refine .repeatWhile ((hcondition.reaches callers).bind ?_)
    simp only [if_true, bind_assoc]
    refine (hbody.reaches callers).bind ((hstep.reaches callers).bind ?_)
    -- One round is done: the rounds to come are one less than the bound.
    refine ih.fewerRounds (fun r n => ?_) fun r n => ?_
    · exact continues_evaluateCondition clock trivial (oneRoundMore r) (Nat.le_refl n) condition
    · exact continues_round clock trivial (oneRoundMore r) (Nat.le_refl n) step body
  | conditionError hcondition => exact .repeatWhile (hcondition.reaches callers).bind_error
  | bodyStop hcondition hbody ho =>
    refine .repeatWhile ((hcondition.reaches callers).bind ?_)
    simp only [if_true, bind_assoc]
    exact (hbody.reaches callers).stop ho
  | stepStop hcondition hbody hstep ho =>
    refine .repeatWhile ((hcondition.reaches callers).bind ?_)
    simp only [if_true, bind_assoc]
    exact (hbody.reaches callers).bind ((hstep.reaches callers).stop ho)

/-- What the **rules** of a `for` loop derive, the loop comes to with large enough bounds. -/
theorem ExecutesFor.reaches (h : ExecutesFor clock start condition step body s o s')
    (callers : List (List Frame)) :
    Reaches (fun rounds n => executeFor ⟨clock, rounds⟩ n start condition step body)
      (s.memory callers) (o.toExcept, s'.memory callers) := by
  cases h with
  | loop hstart hrounds =>
    exact ((hstart.reaches callers).bind (hrounds.reaches callers)).inBlock
  | startStop hstart ho => exact ((hstart.reaches callers).stop ho).inBlock

/-! ### The tree of a loop -/

/-- A run with an outcome is not cut off. -/
theorem not_cutOff (o : Outcome) : ¬ CutOff o.toExcept := by
  rintro ⟨reason, -, h⟩
  cases o <;> cases h

/-- A run that follows the rules and has an outcome is what they derive. -/
theorem Follows.of_eq {D : Outcome → State → Prop} {answer : Except Interrupt Unit × Memory}
    (h : Follows Outcome.toExcept D callers answer)
    (hanswer : answer = (o.toExcept, s'.memory callers)) : D o s' := by
  rw [hanswer] at h
  obtain ⟨o', s'', heq, hD⟩ := h.resolve_left (not_cutOff o)
  obtain ⟨houtcome, hmemory⟩ := Prod.mk.inj heq
  rwa [Outcome.toExcept_injective houtcome, State.memory_injective hmemory]

/-- The semantics of the **tree** of a `for` loop is what the rules of the loop say. -/
theorem executes_forLoop_iff (hstart : ∀ stmt ∈ start, stmt.WellFormed)
    (hcondition : ∀ e ∈ condition, e.WellFormed) (hstep : ∀ e ∈ step, e.WellFormed)
    (hbody : body.WellFormed) (hplain : ¬ body.IsDeclaration)
    (hm : (s.memory callers).WellFormed) :
    Executes clock (.forLoop start condition step body) s o s' ↔
      ExecutesFor clock start condition step body s o s' := by
  have htree := (Stmt.WellFormed.forLoop hstart hcondition hstep hbody hplain).1
  have hno : ∀ o : Outcome, o.toExcept ≠ .error (.abort .overflow) :=
    fun o h => not_cutOff o ⟨.overflow, trivial, h⟩
  -- What one side derives is reached with some bounds, and a little deeper the other does the same,
  -- which follows its rules.
  constructor
  · intro h
    obtain ⟨N, hN⟩ := h.reaches callers
    have hrun := hN N N (Nat.le_refl N) (Nat.le_refl N)
    refine (executeFor_follows N (N + 4) hm hcondition hstep hbody hstart).of_eq ?_
    rw [run_executeFor_of_execute _ N start condition step hbody hplain (by rw [hrun]; exact hno o)]
    exact hrun
  · intro h
    obtain ⟨N, hN⟩ := h.reaches callers
    have hrun := hN N N (Nat.le_refl N) (Nat.le_refl N)
    refine (execute_follows clock N (N + 4) htree hm).of_eq ?_
    rw [run_execute_of_executeFor _ N start condition step hbody hplain (by rw [hrun]; exact hno o)]
    exact hrun

end Semantics

/-! ### Loops that are parsed -/

namespace Grammar

/-- The tokens derive the **clauses** of a `for` loop:

```
"(" start expression? ";" expression? ")"
```
-/
inductive ForClauses : List Token → Option Stmt → Option Expr → Option Expr → Prop
  | mk {opening semicolon closing : Token} {starts conditions steps : List Token}
      {start : Option Stmt} {condition step : Option Expr} :
    opening.kind = .leftParen → Start starts start →
      Optional (Expression .assignment) conditions condition → semicolon.kind = .semicolon →
      Optional (Expression .assignment) steps step → closing.kind = .rightParen →
      ForClauses (opening :: starts ++ conditions ++ semicolon :: steps ++ [closing]) start
        condition step

end Grammar

open Grammar Rule Semantics

/-- Behind `for`, clauses are read and a body. -/
theorem exists_forClauses {keyword : Token} (hkeyword : keyword.kind = .keyword .for_) {n : Nat}
    {ts rest : List Token} {faults : List SyntaxFault} {s : Stmt}
    (h : Answers (statement n) (keyword :: ts) faults s rest) :
    ∃ clauses behind start condition step kept dangling body,
      ts = clauses ++ behind ∧ ForClauses clauses start condition step ∧
        Keeps behind faults kept rest ∧ Statement (.statement dangling) kept body ∧
        s = .forLoop start condition step body := by
  cases n with
  | zero => cases h
  | succ n =>
    have he := Phrase.expression_sound (n + 1)
    rw [statement, Answers] at h
    simp only [statementBody, hkeyword] at h
    obtain ⟨opening, ts₁, rfl, hopening, h₁⟩ := answers_expect_bind_iff.mp h
    obtain ⟨start, ts₂, hread, h₂⟩ := answers_liftM_bind_iff.mp h₁
    obtain ⟨starts, rfl, hstart⟩ := forStart_sound he hread
    obtain ⟨condition, ts₃, hread, h₃⟩ := answers_liftM_bind_iff.mp h₂
    obtain ⟨conditions, rfl, hcondition⟩ := optionalExpression_sound he _ hread
    obtain ⟨semicolon, ts₄, rfl, hsemicolon, h₄⟩ := answers_expect_bind_iff.mp h₃
    obtain ⟨step, ts₅, hread, h₅⟩ := answers_liftM_bind_iff.mp h₄
    obtain ⟨steps, rfl, hstep⟩ := optionalExpression_sound he _ hread
    obtain ⟨closing, behind, rfl, hclosing, h₆⟩ := answers_expect_bind_iff.mp h₅
    obtain ⟨body, hbody, rfl⟩ := answers_map_iff.mp h₆
    obtain ⟨kept, dangling, hkeeps, hs, -⟩ := statement_sound n hbody
    refine ⟨_, behind, start, condition, step, kept, dangling, body, ?_,
      .mk hopening hstart hcondition hsemicolon hstep hclosing, hkeeps, hs, rfl⟩
    simp

/-- The clauses of a loop are **well-formed**. -/
theorem wellFormed_of_forClauses {clauses : List Token} {start : Option Stmt}
    {condition step : Option Expr} (h : ForClauses clauses start condition step) :
    (∀ stmt ∈ start, stmt.WellFormed) ∧ (∀ e ∈ condition, e.WellFormed) ∧
      ∀ e ∈ step, e.WellFormed := by
  cases h with
  | mk _ hstart hcondition _ hstep _ =>
    exact ⟨hstart.wellFormed, hcondition.wellFormed, hstep.wellFormed⟩

section

variable {tokens : List Token} (hend : ∃ t ∈ tokens, t.kind = .eof) {i j n : Nat}
  (hi : i < Parse.last tokens) (hn : Parse.last tokens - i < n) {keyword : Token}
  (hat : tokens[i]? = some keyword) (hkeyword : keyword.kind = .keyword .for_)
  {reported reported' : Array Diagnostic} {s : Stmt}
  (hread : (Parser.statement n).on tokens.toArray ⟨i, reported⟩ = (.ok s, ⟨j, reported'⟩))

include hend hi hn hat hkeyword hread

/-- **A `for` loop means what it says.** Where the parser reads a `for` statement, its tree is that
of a start, a condition, a step and a body, which derive from the tokens behind the `for`. On every
memory, the tree and the loop itself do the same (`executeFor`): they print the same lines, end in
the same way and leave the same memory, unless nesting a little more deeply overflows. When the step
is evaluated, no frame has a name that the body has declared. And the semantics of the tree is what
the rules of the loop say, round by round. -/
theorem parsed_forLoop_direct :
    ∃ clauses behind start condition step faults kept dangling body,
      Parse.ahead tokens (i + 1) = clauses ++ behind ∧ ForClauses clauses start condition step ∧
      Keeps behind faults kept (Parse.ahead tokens j) ∧
      reported' = reported ++ Parser.shown tokens faults ∧
      Statement (.statement dangling) kept body ∧ s = .forLoop start condition step body ∧
      (∀ (host : Host) (d : Nat) (m : Memory),
        (((execute host d s).run m).1 ≠ .error (.abort .overflow) →
          (executeFor host (d + 4) start condition step body).run m =
            (execute host d s).run m) ∧
        (((executeFor host d start condition step body).run m).1 ≠ .error (.abort .overflow) →
          (execute host (d + 4) s).run m =
            (executeFor host d start condition step body).run m) ∧
        Scopes.Gained none m.scopes ((execute host d body).run m).2.scopes) ∧
      ∀ clock state outcome state' callers, (State.memory callers state).WellFormed →
        (Executes clock s state outcome state' ↔
          ExecutesFor clock start condition step body state outcome state') := by
  obtain ⟨faults, hanswers, hreported⟩ :=
    (Parser.FollowsAt.statement hend (Nat.le_of_lt hi) hn).exists_answers hread
  obtain ⟨t, ht, -, hahead⟩ := Parse.exists_ahead_eq_cons hi
  obtain rfl : t = keyword := Option.some.inj (ht.symm.trans hat)
  rw [hahead] at hanswers
  obtain ⟨clauses, behind, start, condition, step, kept, dangling, body, hts, hclauses, hkeeps, hs,
    rfl⟩ := exists_forClauses hkeyword hanswers
  obtain ⟨hbody, hplain⟩ := hs.wellFormed
  have hplain : ¬ body.IsDeclaration := hplain.resolve_left nofun
  obtain ⟨hstart, hcondition, hstep⟩ := wellFormed_of_forClauses hclauses
  refine ⟨clauses, behind, start, condition, step, faults, kept, dangling, body, hts, hclauses,
    hkeeps, hreported, hs, rfl, fun host d m => ⟨fun h => ?_, fun h => ?_, ?_⟩, ?_⟩
  · exact run_executeFor_of_execute host d start condition step hbody hplain h
  · exact run_execute_of_executeFor host d start condition step hbody hplain h
  · exact sameNames_execute host d hbody hplain m
  · exact fun clock state outcome state' callers hm =>
      executes_forLoop_iff hstart hcondition hstep hbody hplain hm

end

/-- `for (var i = nil; i != true; i = i != nil) print i;` -/
private def forTokens : List Token :=
  let i := Token.of .identifier "i"
  let semicolon := Token.of .semicolon ";"
  let equals := Token.of .equal "="
  let different := Token.of .bangEqual "!="
  let nothing := Token.of (.keyword .nil_) "nil"
  [.of (.keyword .for_) "for", .of .leftParen "(", .of (.keyword .var_) "var", i, equals, nothing,
    semicolon, i, different, .of (.keyword .true_) "true", semicolon, i, equals, i, different,
    nothing, .of .rightParen ")", .of (.keyword .print_) "print", i, semicolon, .atEnd 1]

/-- `for (var i = nil; i != true; i = i != nil) print i;` is parsed to a block around a `while`
loop. In two rounds, it prints what the loop prints, and that is what the rules derive. -/
theorem parsed_forLoop_direct_of_print :
    let i := Token.of .identifier "i"
    let different := Token.of .bangEqual "!="
    let s := Stmt.block [.declare i (some (.literal .nil)),
      .loop (.binary (.name i) different (.literal (.bool true)))
        (.block [.print (.name i),
          .expression (.assign i (.binary (.name i) different (.literal .nil)))])]
    let host : Host := ⟨fun _ => 0, 3⟩
    (Parser.statement 21).on forTokens.toArray ⟨0, #[]⟩ = (.ok s, ⟨20, #[]⟩) ∧
      ((execute host 7 s).run .fresh).1 = .ok () ∧
      ((execute host 7 s).run .fresh).2.printed = #["nil", "false"] ∧
      ∃ start condition step body, s = .forLoop start condition step body ∧
        (executeFor host 11 start condition step body).run .fresh =
          (execute host 7 s).run .fresh ∧
        ∃ outcome s',
          ExecutesFor (fun _ => 0) start condition step body (.ofMemory .fresh) outcome s' ∧
          (execute host 7 s).run .fresh = (outcome.toExcept, s'.memory []) := by
  intro i different s host
  have hend : ∃ t ∈ forTokens, t.kind = .eof := ⟨.atEnd 1, by simp [forTokens], rfl⟩
  have hanswers : Answers (statement 20) (Parse.ahead forTokens 0) [] s
      (Parse.ahead forTokens 20) := rfl
  have hread : (Parser.statement 21).on forTokens.toArray ⟨0, #[]⟩ = (.ok s, ⟨20, #[]⟩) :=
    (Parser.FollowsAt.statement hend (Nat.zero_le _) (by decide)).on_of_answers (by decide)
      hanswers #[]
  have hrun : ((execute host 7 s).run .fresh).1 = .ok () := rfl
  obtain ⟨_, _, start, condition, step, _, _, _, body, -, hclauses, -, -, hs, htree, hdirect,
    hrules⟩ := parsed_forLoop_direct hend (by decide) (by decide) rfl rfl hread
  have hne : ((execute host 7 s).run .fresh).1 ≠ .error (.abort .overflow) := by
    rw [hrun]
    nofun
  have hfresh : ((State.ofMemory .fresh).memory []).WellFormed :=
    Memory.Reachable.fresh.every_wellFormed
  obtain ⟨hbody, hplain⟩ := hs.wellFormed
  obtain ⟨hstart, hcondition, hstep⟩ := wellFormed_of_forClauses hclauses
  have hwf : s.WellFormed := by
    rw [htree]
    exact (Stmt.WellFormed.forLoop hstart hcondition hstep hbody (hplain.resolve_left nofun)).1
  obtain ⟨outcome, s', hfollows, hderived⟩ :=
    (execute_follows (fun _ => 0) 3 7 hwf hfresh).resolve_left fun ⟨reason, _, h⟩ => by cases h
  exact ⟨hread, hrun, rfl, start, condition, step, body, htree, (hdirect host 7 .fresh).1 hne,
    outcome, s', (hrules _ _ _ _ [] hfresh).mp hderived, hfollows⟩

end LoxLang
