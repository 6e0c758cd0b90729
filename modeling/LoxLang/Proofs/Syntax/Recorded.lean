import LoxLang.Proofs.Syntax.Termination

/-!
# Recorded rules

The rule for declarations calls itself: in the blocks of a program, and in those blocks again. A
**recorded** rule keeps a record of all these calls, each with what it answered, in the order in
which they return. But for the record it is the rule itself (`Recorded.forget_program`), and the
faults of the rule are those of the calls that answered nothing. Every call in a record is one of
the rule for declarations, and begins in front of a token (`Recorded.isDeclaration_of_mem_calls`).
-/

namespace LoxLang

/-- A **call** of the rule for declarations: the tokens it began with, what it read or why it read
nothing, and the tokens it left. -/
structure Call where
  tokens : List Token
  outcome : Except SyntaxFault Stmt
  rest : List Token

namespace Call

/-- What the call **answers**: a statement, or nothing if it dropped the declaration. -/
def answer? (c : Call) : Option Stmt :=
  match c.outcome with
  | .ok s => some s
  | .error _ => none

/-- The fault for which the call dropped the declaration, if it did. -/
def fault? (c : Call) : Option SyntaxFault :=
  match c.outcome with
  | .ok _ => none
  | .error φ => some φ

end Call

/-- What a recorded rule answers: the calls that have returned, and its value or its own reject as
without the record. -/
structure Record (α : Type) where
  calls : List Call
  result : Except Reject (α × List Token)

/-- A **recorded** rule. -/
def Recorded (α : Type) := List Token → Record α

namespace Recorded

variable {α β : Type}

instance : Monad Recorded where
  pure a := fun ts => ⟨[], .ok (a, ts)⟩
  bind r f := fun ts =>
    match r ts with
    | ⟨calls, .ok (a, rest)⟩ =>
      let record := f a rest
      ⟨calls ++ record.calls, record.result⟩
    | ⟨calls, .error e⟩ => ⟨calls, .error e⟩

/-- No phrase calls the rule for declarations. -/
instance : MonadLift Phrase Recorded where
  monadLift p := fun ts => ⟨[], p ts⟩

/-- **Recovers** from a reject as a rule does, and records this as a call. -/
def call (r : Recorded Stmt) : Recorded (Option Stmt) := fun ts =>
  match r ts with
  | ⟨calls, .ok (s, rest)⟩ => ⟨calls ++ [⟨ts, .ok s, rest⟩], .ok (some s, rest)⟩
  | ⟨calls, .error e⟩ =>
    let rest := Rule.synchronize e.rest
    ⟨calls ++ [⟨ts, .error e.fault, rest⟩], .ok (none, rest)⟩

/-! ### The rules, with a record -/

section

variable (expression : Phrase Expr) (statement : Recorded Stmt)
  (declaration : Recorded (Option Stmt))

/-- Declarations until `stop` holds of the tokens left, at most `n` of them. -/
def declarations (stop : List Token → Bool) : Nat → Recorded (List Stmt)
  | 0 => pure []
  | n + 1 => fun ts =>
    if stop ts then ⟨[], .ok ([], ts)⟩
    else
      (do
        let first ← declaration
        let others ← declarations stop n
        pure (first.toList ++ others) : Recorded (List Stmt)) ts

theorem declarations_of_stop {stop : List Token → Bool} {ts : List Token} (h : stop ts) (n : Nat) :
    declarations declaration stop (n + 1) ts = ⟨[], .ok ([], ts)⟩ := if_pos h

theorem declarations_of_not_stop {stop : List Token → Bool} {ts : List Token} (h : ¬ stop ts)
    (n : Nat) :
    declarations declaration stop (n + 1) ts = (do
      let first ← declaration
      let others ← declarations declaration stop n
      pure (first.toList ++ others) : Recorded (List Stmt)) ts := if_neg h

/-- A block, behind its opening brace. -/
def block (n : Nat) : Recorded (List Stmt) := do
  let body ← declarations declaration Rule.blockEnds n
  let _ ← Phrase.symbol .afterBlock
  pure body

/-- A function declaration, behind its keyword. -/
def functionDeclaration (n : Nat) : Recorded Stmt := do
  let target ← Phrase.identifier .function
  let _ ← Phrase.symbol .afterFunctionName
  let parameters ← Phrase.listed .parameters (Phrase.identifier .parameter)
  let _ ← Phrase.symbol .afterParameters
  let _ ← Phrase.symbol .beforeFunctionBody
  let body ← block declaration n
  pure (.function target parameters body)

/-- An `if`, behind its keyword. -/
def ifStatement : Recorded Stmt := do
  let value ← Rule.condition expression .afterIf .afterIfCondition
  let yes ← statement
  match ← Phrase.accept? (· = .keyword .else_) with
  | some _ => do
    let no ← statement
    pure (.branch value yes (some no))
  | none => pure (.branch value yes none)

/-- A `while` loop, behind its keyword. -/
def whileStatement : Recorded Stmt := do
  let value ← Rule.condition expression .afterWhile .afterCondition
  let body ← statement
  pure (.loop value body)

/-- A `for` loop, behind its keyword. -/
def forStatement : Recorded Stmt := do
  let _ ← Phrase.symbol .afterFor
  let start ← Rule.forStart expression
  let value ← Rule.optionalExpression expression .semicolon
  let _ ← Phrase.symbol .afterLoopCondition
  let step ← Rule.optionalExpression expression .rightParen
  let _ ← Phrase.symbol .afterForClauses
  let body ← statement
  pure (.forLoop start value step body)

/-- One statement, by its first token. -/
def statementBody (n : Nat) : Recorded Stmt
  | [] => (liftM (Rule.expressionStatement expression) : Recorded Stmt) []
  | t :: ts =>
    match t.kind with
    | .keyword .for_ => forStatement expression statement ts
    | .keyword .if_ => ifStatement expression statement ts
    | .keyword .print_ => (liftM (Rule.printStatement expression) : Recorded Stmt) ts
    | .keyword .return_ => (liftM (Rule.returnStatement expression t) : Recorded Stmt) ts
    | .keyword .while_ => whileStatement expression statement ts
    | .leftBrace => (.block <$> block declaration n : Recorded Stmt) ts
    | _ => (liftM (Rule.expressionStatement expression) : Recorded Stmt) (t :: ts)

/-- One declaration, by its first token. -/
def declarationBody (n : Nat) : Recorded Stmt
  | [] => statementBody expression statement declaration n []
  | t :: ts =>
    match t.kind with
    | .keyword .fun_ => functionDeclaration declaration n ts
    | .keyword .var_ => (liftM (Rule.variableDeclaration expression) : Recorded Stmt) ts
    | _ => statementBody expression statement declaration n (t :: ts)

end

/-- What the rules answer where no token is left. -/
def outOfTokens : Recorded Stmt := liftM (Phrase.reject .noExpression : Phrase Stmt)

mutual

/-- **Statements**, with a record. -/
def statement : Nat → Recorded Stmt
  | 0 => outOfTokens
  | n + 1 => statementBody (Phrase.expression (n + 1)) (statement n) (declaration n) n

/-- **Declarations**, with a record in which the declaration itself is the last call. -/
def declaration : Nat → Recorded (Option Stmt)
  | 0 => call outOfTokens
  | n + 1 => call (declarationBody (Phrase.expression (n + 1)) (statement n) (declaration n) n)

end

/-- **Programs**, with a record. -/
def program : Recorded (List Stmt) := fun ts =>
  declarations (declaration ts.length) List.isEmpty ts.length ts

/-! ### Without the record -/

/-- The rule **without the record**, but for the faults of the calls in it. -/
def forget (r : Recorded α) : Rule α := fun ts =>
  ⟨(r ts).calls.filterMap Call.fault?, (r ts).result⟩

@[simp]
theorem forget_pure (a : α) : forget (pure a) = pure a := rfl

@[simp]
theorem forget_liftM (p : Phrase α) : forget (liftM p) = liftM p := rfl

@[simp]
theorem forget_bind (r : Recorded α) (f : α → Recorded β) :
    forget (r >>= f) = forget r >>= fun a => forget (f a) := by
  funext ts
  rcases h : r ts with ⟨calls, e | ⟨a, rest⟩⟩
  · have hforget : forget r ts = ⟨calls.filterMap Call.fault?, .error e⟩ := by rw [forget, h]
    rw [Rule.bind_of_error hforget]
    simp [bind, forget, h]
  · have hforget : forget r ts = ⟨calls.filterMap Call.fault?, .ok (a, rest)⟩ := by rw [forget, h]
    rw [Rule.bind_of_ok hforget]
    simp [bind, forget, h]

@[simp]
theorem forget_map (f : α → β) (r : Recorded α) : forget (f <$> r) = f <$> forget r :=
  forget_bind r fun a => pure (f a)

/-- A call has the fault from which the rule recovers. -/
@[simp]
theorem forget_call (r : Recorded Stmt) : forget (call r) = Rule.recover (forget r) := by
  funext ts
  rcases h : r ts with ⟨calls, e | ⟨s, rest⟩⟩ <;>
    simp [call, forget, Rule.recover, h, Call.fault?]

section

variable (expression : Phrase Expr) (statement : Recorded Stmt)
  (declaration : Recorded (Option Stmt))

theorem forget_declarations (stop : List Token → Bool) (n : Nat) :
    forget (declarations declaration stop n) =
      Rule.declarations (forget declaration) stop n := by
  induction n with
  | zero => rfl
  | succ n ih =>
    funext ts
    by_cases hstop : stop ts
    · rw [Rule.declarations_of_stop _ hstop, forget, declarations_of_stop _ hstop]
      rfl
    · rw [Rule.declarations_of_not_stop _ hstop, ← ih, forget, declarations_of_not_stop _ hstop]
      have hothers : ∀ first : Option Stmt, forget (do
            let others ← declarations declaration stop n
            pure (first.toList ++ others)) = (do
            let others ← forget (declarations declaration stop n)
            pure (first.toList ++ others)) :=
        fun first => forget_bind _ _
      exact congrFun ((forget_bind _ _).trans (congrArg _ (funext hothers))) ts

theorem forget_block (n : Nat) :
    forget (block declaration n) = Rule.block (forget declaration) n := by
  simp only [block, Rule.block, forget_bind, forget_declarations]
  rfl

theorem forget_functionDeclaration (n : Nat) :
    forget (functionDeclaration declaration n) =
      Rule.functionDeclaration (forget declaration) n := by
  simp only [functionDeclaration, Rule.functionDeclaration, forget_bind, forget_block]
  rfl

theorem forget_ifStatement :
    forget (ifStatement expression statement) =
      Rule.ifStatement expression (forget statement) := by
  simp only [ifStatement, Rule.ifStatement, forget_bind]
  refine congrArg _ (funext fun value => congrArg _ (funext fun yes => congrArg _ ?_))
  funext otherwise?
  cases otherwise? with
  | none => rfl
  | some otherwise => exact forget_bind _ _

theorem forget_whileStatement :
    forget (whileStatement expression statement) =
      Rule.whileStatement expression (forget statement) := by
  simp only [whileStatement, Rule.whileStatement, forget_bind]
  rfl

theorem forget_forStatement :
    forget (forStatement expression statement) =
      Rule.forStatement expression (forget statement) := by
  simp only [forStatement, Rule.forStatement, forget_bind]
  rfl

theorem forget_statementBody (n : Nat) :
    forget (statementBody expression statement declaration n) =
      Rule.statementBody expression (forget statement) (forget declaration) n := by
  funext ts
  cases ts with
  | nil => rfl
  | cons t ts =>
    rw [forget, statementBody, Rule.statementBody]
    split <;> try simp only [*]
    · exact congrFun (forget_forStatement expression statement) ts
    · exact congrFun (forget_ifStatement expression statement) ts
    · rfl
    · rfl
    · exact congrFun (forget_whileStatement expression statement) ts
    · rw [← forget_block]
      exact congrFun (forget_map _ _) ts
    · rfl

theorem forget_declarationBody (n : Nat) :
    forget (declarationBody expression statement declaration n) =
      Rule.declarationBody expression (forget statement) (forget declaration) n := by
  funext ts
  cases ts with
  | nil => exact congrFun (forget_statementBody expression statement declaration n) []
  | cons t ts =>
    rw [forget, declarationBody, Rule.declarationBody]
    split <;> try simp only [*]
    · exact congrFun (forget_functionDeclaration declaration n) ts
    · rfl
    · exact congrFun (forget_statementBody expression statement declaration n) (t :: ts)

end

private theorem forget_rules (n : Nat) :
    forget (statement n) = Rule.statement n ∧ forget (declaration n) = Rule.declaration n := by
  induction n with
  | zero => exact ⟨rfl, forget_call outOfTokens⟩
  | succ n ih =>
    rw [statement, declaration, Rule.statement, Rule.declaration, forget_call,
      forget_statementBody, forget_declarationBody, ih.1, ih.2]
    exact ⟨rfl, rfl⟩

/-- The rule for **programs** and its record: the faults are those of the calls that dropped a
declaration, in their order. -/
theorem forget_program : forget program = Rule.program := by
  funext ts
  have hdeclarations := forget_declarations (declaration ts.length) List.isEmpty ts.length
  rw [(forget_rules ts.length).2] at hdeclarations
  exact congrFun hdeclarations ts

end Recorded

/-! ### The calls in a record -/

/-- It is a call of the rule for **declarations**, in front of a token. The bound that the rule has
does not matter. -/
def Call.IsDeclaration (c : Call) : Prop :=
  c.tokens ≠ [] ∧ ∀ n, c.tokens.length ≤ n →
    ∃ faults, Rule.Answers (Rule.declaration n) c.tokens faults c.answer? c.rest

/-- What a recorded rule answers for tokens stays in them, and so do its calls, which are calls of
the rule for declarations. -/
def Record.MadeOf {α : Type} (record : Record α) (ts : List Token) : Prop :=
  StaysIn ts record.result ∧ ∀ c ∈ record.calls, c.tokens <:+ ts ∧ c.IsDeclaration

theorem Record.MadeOf.mono {α : Type} {record : Record α} {ts us : List Token}
    (h : record.MadeOf us) (hsuffix : us <:+ ts) : record.MadeOf ts :=
  ⟨h.1.mono hsuffix, fun c hc => ⟨(h.2 c hc).1.trans hsuffix, (h.2 c hc).2⟩⟩

namespace Recorded

variable {α β : Type} {n m : Nat}

/-- On no more than `n` tokens, the recorded rule **makes** calls of the rule for declarations. -/
def Makes (n : Nat) (r : Recorded α) : Prop := ∀ ts, ts.length ≤ n → (r ts).MadeOf ts

theorem makes_liftM {p : Phrase α} (h : p.Forward) : Makes n (liftM p) :=
  fun ts _ => ⟨h ts, fun _ hc => absurd hc List.not_mem_nil⟩

theorem makes_pure (a : α) : Makes n (pure a) := makes_liftM (Phrase.forward_pure a)

theorem Makes.mono {r : Recorded α} (hr : Makes m r) (hle : n ≤ m) : Makes n r :=
  fun ts hts => hr ts (Nat.le_trans hts hle)

theorem madeOf_bind {r : Recorded α} {f : α → Recorded β} {ts : List Token}
    (hr : (r ts).MadeOf ts)
    (hf : ∀ a rest, rest <:+ ts → (r ts).result = .ok (a, rest) → (f a rest).MadeOf rest) :
    ((r >>= f) ts).MadeOf ts := by
  rcases hread : r ts with ⟨calls, e | ⟨a, rest⟩⟩
  · rw [hread] at hr
    have hbind : (r >>= f) ts = ⟨calls, .error e⟩ := by simp only [bind, hread]
    rw [hbind]
    exact hr
  · rw [hread] at hr hf
    have hbind : (r >>= f) ts = ⟨calls ++ (f a rest).calls, (f a rest).result⟩ := by
      simp only [bind, hread]
    obtain ⟨hresult, hcalls⟩ := (hf a rest hr.1 rfl).mono hr.1
    rw [hbind]
    refine ⟨hresult, fun c hc => ?_⟩
    rcases List.mem_append.mp hc with hfirst | hsecond
    · exact hr.2 c hfirst
    · exact hcalls c hsecond

theorem Makes.bind {r : Recorded α} {f : α → Recorded β} (hr : Makes n r)
    (hf : ∀ a, Makes n (f a)) : Makes n (r >>= f) :=
  fun ts hts => madeOf_bind (hr ts hts) fun a rest hsuffix _ =>
    hf a rest (Nat.le_trans hsuffix.length_le hts)

theorem Makes.map {r : Recorded α} (hr : Makes n r) (f : α → β) : Makes n (f <$> r) :=
  hr.bind fun a => makes_pure (f a)

/-- What begins behind a token has one token less. -/
theorem Makes.behind {r : Recorded α} (hr : Makes n r) {t : Token} {ts : List Token}
    (h : (t :: ts).length ≤ n + 1) : (r ts).MadeOf (t :: ts) :=
  (hr ts (Nat.le_of_succ_le_succ h)).mono (List.suffix_cons t ts)

/-- A rule that records itself answers what its own call does. -/
theorem exists_call_eq {r : Recorded Stmt} {ts : List Token} (h : StaysIn ts (r ts).result) :
    ∃ c : Call, c.tokens = ts ∧ c.rest <:+ ts ∧
      call r ts = ⟨(r ts).calls ++ [c], .ok (c.answer?, c.rest)⟩ := by
  rcases hread : r ts with ⟨calls, e | ⟨s, rest⟩⟩
  · rw [hread] at h
    refine ⟨⟨ts, .error e.fault, Rule.synchronize e.rest⟩, rfl, ?_, by rw [call, hread]; rfl⟩
    exact (Rule.synchronize_suffix e.rest).trans h.1
  · rw [hread] at h
    exact ⟨⟨ts, .ok s, rest⟩, rfl, h, by rw [call, hread]; rfl⟩

/-- If it is the rule for declarations, that is such a call. -/
theorem madeOf_call {r : Recorded Stmt} {ts : List Token} (hne : ts ≠ [])
    (hlength : ts.length ≤ n) (hforget : forget (call r) = Rule.declaration n)
    (h : (r ts).MadeOf ts) : (call r ts).MadeOf ts := by
  obtain ⟨c, rfl, hrest, hcall⟩ := exists_call_eq h.1
  -- The record has one bound, and the call answers alike with any other that is large enough.
  have hdeclaration : c.IsDeclaration := by
    refine ⟨hne, fun m hm => ⟨(forget (call r) c.tokens).faults, ?_⟩⟩
    rw [Rule.Answers, ← Rule.declaration_agree hm (Nat.le_refl _),
      Rule.declaration_agree hlength (Nat.le_refl _), ← hforget, forget, hcall]
  rw [hcall]
  refine ⟨hrest, fun c' hc => ?_⟩
  rcases List.mem_append.mp hc with hearlier | hlast
  · exact h.2 c' hearlier
  · rw [List.mem_singleton.mp hlast]
    exact ⟨List.suffix_refl _, hdeclaration⟩

section

variable {expression : Phrase Expr} {statement : Recorded Stmt}
  {declaration : Recorded (Option Stmt)} (he : expression.Forward) (hs : Makes n statement)
  (hd : ∀ ts, ts ≠ [] → ts.length ≤ n → (declaration ts).MadeOf ts)

include hd in
/-- Declarations are only read where a token is left. -/
theorem makes_declarations {stop : List Token → Bool} (hnil : stop []) (k : Nat) :
    Makes n (declarations declaration stop k) := by
  induction k with
  | zero => exact makes_pure []
  | succ k ih =>
    intro ts hts
    by_cases hstop : stop ts
    · rw [declarations_of_stop _ hstop]
      exact makes_pure [] ts hts
    · have hne : ts ≠ [] := by
        rintro rfl
        exact hstop hnil
      rw [declarations_of_not_stop _ hstop]
      refine madeOf_bind (hd ts hne hts) fun first rest hsuffix _ => ?_
      exact ih.bind (fun others => makes_pure (first.toList ++ others)) rest
        (Nat.le_trans hsuffix.length_le hts)

include hd in
theorem makes_block (k : Nat) : Makes n (block declaration k) :=
  (makes_declarations hd rfl k).bind fun body =>
    (makes_liftM (Phrase.forward_expect _ _)).bind fun _ => makes_pure body

include hd in
theorem makes_functionDeclaration (k : Nat) : Makes n (functionDeclaration declaration k) :=
  (makes_liftM (Phrase.forward_expect _ _)).bind fun _ =>
    (makes_liftM (Phrase.forward_expect _ _)).bind fun _ =>
    (makes_liftM (Phrase.forward_listed (Phrase.forward_expect _ _) _)).bind fun _ =>
    (makes_liftM (Phrase.forward_expect _ _)).bind fun _ =>
    (makes_liftM (Phrase.forward_expect _ _)).bind fun _ =>
    (makes_block hd k).bind fun _ => makes_pure _

include he hs in
theorem makes_ifStatement : Makes n (ifStatement expression statement) := by
  refine (makes_liftM (Rule.forward_condition he _ _)).bind fun value => hs.bind fun yes => ?_
  refine (makes_liftM (Phrase.forward_accept? _)).bind fun otherwise? => ?_
  cases otherwise? with
  | none => exact makes_pure _
  | some otherwise => exact hs.bind fun no => makes_pure _

include he hs in
theorem makes_whileStatement : Makes n (whileStatement expression statement) :=
  (makes_liftM (Rule.forward_condition he _ _)).bind fun _ => hs.bind fun _ => makes_pure _

include he hs in
theorem makes_forStatement : Makes n (forStatement expression statement) :=
  (makes_liftM (Phrase.forward_expect _ _)).bind fun _ =>
    (makes_liftM (Rule.forward_forStart he)).bind fun _ =>
    (makes_liftM (Rule.forward_optionalExpression he _)).bind fun _ =>
    (makes_liftM (Phrase.forward_expect _ _)).bind fun _ =>
    (makes_liftM (Rule.forward_optionalExpression he _)).bind fun _ =>
    (makes_liftM (Phrase.forward_expect _ _)).bind fun _ =>
    hs.bind fun _ => makes_pure _

include he hs hd in
theorem makes_statementBody (k : Nat) :
    Makes (n + 1) (statementBody expression statement declaration k) := by
  have hexpression : Makes (n + 1) (liftM (Rule.expressionStatement expression)) :=
    makes_liftM (Rule.forward_expressionStatement he)
  intro ts hts
  cases ts with
  | nil => exact hexpression [] hts
  | cons t ts =>
    rw [statementBody]
    split
    · exact (makes_forStatement he hs).behind hts
    · exact (makes_ifStatement he hs).behind hts
    · exact (makes_liftM (Rule.forward_printStatement he)).behind hts
    · exact (makes_liftM (Rule.forward_returnStatement he t)).behind hts
    · exact (makes_whileStatement he hs).behind hts
    · exact ((makes_block hd k).map Stmt.block).behind hts
    · exact hexpression (t :: ts) hts

include he hs hd in
theorem makes_declarationBody (k : Nat) :
    Makes (n + 1) (declarationBody expression statement declaration k) := by
  intro ts hts
  cases ts with
  | nil => exact makes_statementBody he hs hd k [] hts
  | cons t ts =>
    rw [declarationBody]
    split
    · exact (makes_functionDeclaration hd k).behind hts
    · exact (makes_liftM (Rule.forward_variableDeclaration he)).behind hts
    · exact makes_statementBody he hs hd k (t :: ts) hts

end

private theorem makes_rules (n : Nat) :
    Makes n (statement n) ∧ ∀ ts, ts ≠ [] → ts.length ≤ n → (declaration n ts).MadeOf ts := by
  -- By induction on the bound. A call is claimed to be one of the rule for declarations only in
  -- front of a token, so that with a bound of zero there is none.
  induction n with
  | zero =>
    refine ⟨makes_liftM (Phrase.forward_reject _), fun ts hne hts => ?_⟩
    exact absurd (List.length_eq_zero_iff.mp (Nat.le_zero.mp hts)) hne
  | succ n ih =>
    have he := Phrase.forward_expression (n + 1)
    refine ⟨makes_statementBody he ih.1 ih.2 n, fun ts hne hts => ?_⟩
    exact madeOf_call hne hts (forget_rules (n + 1)).2 (makes_declarationBody he ih.1 ih.2 n ts hts)

/-- The calls that the rule for programs makes are calls of the rule for **declarations**. -/
theorem isDeclaration_of_mem_calls {ts : List Token} {c : Call} (hc : c ∈ (program ts).calls) :
    c.tokens <:+ ts ∧ c.IsDeclaration :=
  (makes_declarations (makes_rules ts.length).2 rfl ts.length ts (Nat.le_refl _)).2 c hc

end Recorded

end LoxLang
