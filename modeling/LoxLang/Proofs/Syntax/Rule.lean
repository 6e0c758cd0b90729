import LoxLang.Proofs.Syntax.Phrase

/-!
# Programs at the front of a list

Statements are read like phrases, but a malformed declaration inside a block or at the top does not
stop the reading: its fault is recorded, tokens are skipped up to a likely statement boundary, and
the next declaration follows. A **rule** therefore answers with the faults of the declarations that
were dropped on its way, whether it succeeds or rejects.

The tokens that a program is read from are those in front of the first end token (`Parse.body`).
-/

namespace LoxLang

/-- What a rule answers: the faults recovered from, and its value with the tokens behind it or its
own reject. -/
structure Reply (α : Type) where
  faults : List SyntaxFault
  result : Except Reject (α × List Token)

/-- Reads an `α` from the front of a token list, with recovery inside. -/
def Rule (α : Type) := List Token → Reply α

namespace Rule

instance : Monad Rule where
  pure a := fun ts => ⟨[], .ok (a, ts)⟩
  bind r f := fun ts =>
    match r ts with
    | ⟨faults, .ok (a, rest)⟩ =>
      let reply := f a rest
      ⟨faults ++ reply.faults, reply.result⟩
    | ⟨faults, .error e⟩ => ⟨faults, .error e⟩

/-- A phrase is a rule that recovers from nothing. -/
instance : MonadLift Phrase Rule where
  monadLift p := fun ts => ⟨[], p ts⟩

/-- Behind a rule that succeeds, the next one goes on, and the faults add up. -/
theorem bind_of_ok {α β : Type} {r : Rule α} {f : α → Rule β} {ts rest : List Token} {a : α}
    {faults : List SyntaxFault} (h : r ts = ⟨faults, .ok (a, rest)⟩) :
    (r >>= f) ts = ⟨faults ++ (f a rest).faults, (f a rest).result⟩ := by
  simp [bind, h]

/-- Behind a rule that rejects, nothing is read. -/
theorem bind_of_error {α β : Type} {r : Rule α} {f : α → Rule β} {ts : List Token}
    {faults : List SyntaxFault} {e : Reject} (h : r ts = ⟨faults, .error e⟩) :
    (r >>= f) ts = ⟨faults, .error e⟩ := by
  simp [bind, h]

/-- Behind a phrase that has read, the next rule goes on. -/
theorem liftM_bind_of_ok {α β : Type} {p : Phrase α} {f : α → Rule β} {ts rest : List Token} {a : α}
    (h : p ts = .ok (a, rest)) : (liftM p >>= f) ts = f a rest := by
  have hread : (liftM p : Rule α) ts = ⟨[], .ok (a, rest)⟩ := congrArg (Reply.mk []) h
  exact bind_of_ok hread

/-- Two phrases in a row are two rules in a row. -/
theorem liftM_bind {α β : Type} (p : Phrase α) (f : α → Phrase β) (ts : List Token) :
    (liftM (p >>= f) : Rule β) ts = ((liftM p : Rule α) >>= fun a => liftM (f a)) ts := by
  change (⟨[], (p >>= f) ts⟩ : Reply β) = _
  rcases h : p ts with e | ⟨a, rest⟩
  · have hreply : (liftM p : Rule α) ts = ⟨[], .error e⟩ := congrArg (Reply.mk []) h
    rw [Phrase.bind_of_error h, bind_of_error hreply]
  · rw [Phrase.bind_of_ok h, liftM_bind_of_ok h]
    rfl

/-! ### Recovery -/

/-- Skips tokens behind `previous` up to a statement boundary: just behind a semicolon, or in front
of a keyword that opens a statement. -/
def skipPast (previous : Token) : List Token → List Token
  | [] => []
  | t :: ts =>
    if previous.kind = .semicolon || Parser.opensStatement t.kind then t :: ts else skipPast t ts

/-- The tokens at which reading goes on after a reject. The first token left is always skipped. -/
def synchronize : List Token → List Token
  | [] => []
  | t :: ts => skipPast t ts

/-- **Recovers** from a reject: the fault is recorded, nothing is read, and tokens are skipped. -/
def recover {α : Type} (r : Rule α) : Rule (Option α) := fun ts =>
  match r ts with
  | ⟨faults, .ok (a, rest)⟩ => ⟨faults, .ok (some a, rest)⟩
  | ⟨faults, .error e⟩ => ⟨faults ++ [e.fault], .ok (none, synchronize e.rest)⟩

/-! ### Answers -/

section

variable {α β : Type} {r : Rule α} {f : α → Rule β} {ts rest : List Token}
  {faults : List SyntaxFault}

/-- The rule **answers** `a` at the front of `ts`, recovering from faults inside, and leaves
`rest`. -/
def Answers (r : Rule α) (ts : List Token) (faults : List SyntaxFault) (a : α)
    (rest : List Token) : Prop :=
  r ts = ⟨faults, .ok (a, rest)⟩

theorem answers_liftM_iff {p : Phrase α} {a : α} :
    Answers (liftM p) ts faults a rest ↔ faults = [] ∧ p ts = .ok (a, rest) := by
  change (⟨[], p ts⟩ : Reply α) = ⟨faults, .ok (a, rest)⟩ ↔ _
  rw [Reply.mk.injEq, eq_comm]

theorem answers_pure_iff {a b : α} :
    Answers (pure a) ts faults b rest ↔ faults = [] ∧ a = b ∧ ts = rest :=
  answers_liftM_iff.trans (and_congr_right fun _ => Phrase.pure_eq_ok_iff)

/-- Two rules in a row answer when the first does and the second does on what it leaves, and the
faults add up. -/
theorem answers_bind_iff {b : β} :
    Answers (r >>= f) ts faults b rest ↔ ∃ φ a middle φ', Answers r ts φ a middle ∧
      Answers (f a) middle φ' b rest ∧ faults = φ ++ φ' := by
  rw [Answers]
  rcases h : r ts with ⟨φ, e | ⟨a, middle⟩⟩
  · rw [bind_of_error h]
    simp [Answers, h]
  · rw [bind_of_ok h]
    constructor
    · intro hr
      obtain ⟨rfl, hresult⟩ := Reply.mk.inj hr
      refine ⟨φ, a, middle, (f a middle).faults, h, ?_, rfl⟩
      rw [Answers, ← hresult]
    · rintro ⟨φ₁, a₁, middle₁, φ', hr, hf, rfl⟩
      cases h.symm.trans hr
      rw [hf]

/-- Behind a phrase, the next rule goes on, and it makes all the faults. -/
theorem answers_liftM_bind_iff {p : Phrase α} {b : β} :
    Answers (liftM p >>= f) ts faults b rest ↔
      ∃ a middle, p ts = .ok (a, middle) ∧ Answers (f a) middle faults b rest := by
  rw [answers_bind_iff]
  constructor
  · rintro ⟨φ, a, middle, φ', hp, hf, rfl⟩
    obtain ⟨rfl, hread⟩ := answers_liftM_iff.mp hp
    exact ⟨a, middle, hread, hf⟩
  · rintro ⟨a, middle, hread, hf⟩
    exact ⟨[], a, middle, faults, answers_liftM_iff.mpr ⟨rfl, hread⟩, hf, rfl⟩

/-- Behind a token of a kind, the next rule goes on. -/
theorem answers_expect_bind_iff {kind : TokenKind} {e : SyntaxError} {f : Token → Rule β} {b : β} :
    Answers (liftM (Phrase.expect kind e) >>= f) ts faults b rest ↔
      ∃ t us, ts = t :: us ∧ t.kind = kind ∧ Answers (f t) us faults b rest := by
  rw [answers_liftM_bind_iff]
  constructor
  · rintro ⟨t, us, hread, hf⟩
    obtain ⟨rfl, ht⟩ := Phrase.expect_eq_ok_iff.mp hread
    exact ⟨t, us, rfl, ht, hf⟩
  · rintro ⟨t, us, rfl, ht, hf⟩
    exact ⟨t, us, Phrase.expect_eq_ok_iff.mpr ⟨rfl, ht⟩, hf⟩

/-- A rule that recovers answers like the rule, or has skipped what that rejects. -/
theorem answers_recover_iff {o : Option α} :
    Answers (recover r) ts faults o rest ↔ (∃ a, o = some a ∧ Answers r ts faults a rest) ∨
      ∃ φ e, r ts = ⟨φ, .error e⟩ ∧ o = none ∧ faults = φ ++ [e.fault] ∧
        rest = synchronize e.rest := by
  rw [Answers, recover]
  rcases h : r ts with ⟨φ, e | ⟨a, middle⟩⟩
  · constructor
    · rintro ⟨⟩
      exact .inr ⟨φ, e, rfl, rfl, rfl, rfl⟩
    · rintro (⟨a, -, hread⟩ | ⟨φ', e', ⟨⟩, rfl, rfl, rfl⟩)
      · cases h.symm.trans hread
      · rfl
  · constructor
    · rintro ⟨⟩
      exact .inl ⟨a, rfl, h⟩
    · rintro (⟨a', rfl, hread⟩ | ⟨φ', e', ⟨⟩, -⟩)
      cases h.symm.trans hread
      rfl

/-- What is done with an answer makes no faults. -/
theorem answers_map_iff {g : α → β} {b : β} :
    Answers (g <$> r) ts faults b rest ↔ ∃ a, Answers r ts faults a rest ∧ g a = b := by
  change Answers (r >>= fun a => pure (g a)) ts faults b rest ↔ _
  rw [answers_bind_iff]
  constructor
  · rintro ⟨φ, a, middle, φ', hr, hpure, rfl⟩
    obtain ⟨rfl, rfl, rfl⟩ := answers_pure_iff.mp hpure
    exact ⟨a, by rwa [List.append_nil], rfl⟩
  · rintro ⟨a, hr, rfl⟩
    exact ⟨faults, a, rest, [], hr, answers_pure_iff.mpr ⟨rfl, rfl, rfl⟩, (List.append_nil _).symm⟩

end

/-! ### Reading without faults -/

section

variable {α β : Type} {r : Rule α} {f : α → Rule β} {ts rest : List Token}

/-- The rule **reads** `a` at the front of `ts` without any fault, and leaves `rest`. -/
def Reads (r : Rule α) (ts : List Token) (a : α) (rest : List Token) : Prop :=
  r ts = ⟨[], .ok (a, rest)⟩

theorem reads_liftM_iff {p : Phrase α} {a : α} :
    Reads (liftM p) ts a rest ↔ p ts = .ok (a, rest) :=
  answers_liftM_iff.trans (and_iff_right rfl)

theorem reads_pure_iff {a b : α} : Reads (pure a) ts b rest ↔ a = b ∧ ts = rest :=
  answers_pure_iff.trans (and_iff_right rfl)

/-- Two rules in a row read without faults when the first does and the second does on what it
leaves. -/
theorem reads_bind_iff {b : β} :
    Reads (r >>= f) ts b rest ↔ ∃ a middle, Reads r ts a middle ∧ Reads (f a) middle b rest := by
  refine answers_bind_iff.trans ⟨?_, ?_⟩
  · rintro ⟨φ, a, middle, φ', hr, hf, hnone⟩
    obtain ⟨rfl, rfl⟩ := List.append_eq_nil_iff.mp hnone.symm
    exact ⟨a, middle, hr, hf⟩
  · rintro ⟨a, middle, hr, hf⟩
    exact ⟨[], a, middle, [], hr, hf, rfl⟩

/-- Behind a token of a kind, the next rule goes on. -/
theorem reads_expect_bind_iff {kind : TokenKind} {e : SyntaxError} {f : Token → Rule β} {b : β} :
    Reads (liftM (Phrase.expect kind e) >>= f) ts b rest ↔
      ∃ t us, ts = t :: us ∧ t.kind = kind ∧ Reads (f t) us b rest :=
  answers_expect_bind_iff

theorem reads_map_iff {g : α → β} {b : β} :
    Reads (g <$> r) ts b rest ↔ ∃ a, Reads r ts a rest ∧ g a = b :=
  answers_map_iff

/-- Where a rule recovered, it did not read without faults. -/
theorem reads_recover_iff {o : Option α} :
    Reads (recover r) ts o rest ↔ ∃ a, o = some a ∧ Reads r ts a rest := by
  refine answers_recover_iff.trans (or_iff_left ?_)
  rintro ⟨φ, e, -, -, hnone, -⟩
  simp at hnone

end

/-! ### Parts of statements, over the rule for expressions -/

section

variable (expression : Phrase Expr)

/-- `IDENTIFIER ("=" expression)? ";"`, behind `var`. -/
def variableDeclaration : Phrase Stmt := do
  let target ← Phrase.identifier .variable_
  let value ← do
    match ← Phrase.accept? (· = .equal) with
    | some _ => some <$> expression
    | none => pure none
  let _ ← Phrase.symbol .afterDeclaration
  pure (.declare target value)

/-- `expression ";"` -/
def expressionStatement : Phrase Stmt := do
  let value ← expression
  let _ ← Phrase.symbol .afterValue
  pure (.expression value)

/-- `expression ";"`, behind `print`. -/
def printStatement : Phrase Stmt := do
  let value ← expression
  let _ ← Phrase.symbol .afterValue
  pure (.print value)

/-- An expression, unless the next token has the kind that may stand in its place. -/
def optionalExpression (instead : TokenKind) : Phrase (Option Expr) := do
  if ← Phrase.ahead (· = instead) then pure none else some <$> expression

/-- `expression? ";"`, behind `return`. -/
def returnStatement (keyword : Token) : Phrase Stmt := do
  let value ← optionalExpression expression .semicolon
  let _ ← Phrase.symbol .afterReturnValue
  pure (.returnValue keyword value)

/-- `"(" expression ")"`, behind `if` or `while`. -/
def condition (before after : Place) : Phrase Expr := do
  let _ ← Phrase.symbol before
  let value ← expression
  let _ ← Phrase.symbol after
  pure value

/-- The first clause of a `for` loop: `"var" variableDeclaration | expressionStatement | ";"` -/
def forStart : Phrase (Option Stmt) := do
  match ← Phrase.accept? (fun kind => kind = .semicolon || kind = .keyword .var_) with
  | some t =>
    if t.kind = .semicolon then pure none else some <$> variableDeclaration expression
  | none => some <$> expressionStatement expression

end

/-! ### Statements, over the rules for what they nest -/

section

variable (expression : Phrase Expr) (statement : Rule Stmt) (declaration : Rule (Option Stmt))

/-- Reads declarations until `stop` holds of the tokens left, at most `n` of them, and keeps those
that were not dropped. -/
def declarations (stop : List Token → Bool) : Nat → Rule (List Stmt)
  | 0 => pure []
  | n + 1 => fun ts =>
    if stop ts then ⟨[], .ok ([], ts)⟩
    else
      (do
        let first ← declaration
        let others ← declarations stop n
        pure (first.toList ++ others) : Rule (List Stmt)) ts

theorem declarations_of_stop {stop : List Token → Bool} {ts : List Token} (h : stop ts) (n : Nat) :
    declarations declaration stop (n + 1) ts = ⟨[], .ok ([], ts)⟩ := if_pos h

/-- Where the tokens run out, there is nothing to read. -/
theorem declarations_nil (n : Nat) :
    declarations declaration List.isEmpty n [] = ⟨[], .ok ([], [])⟩ := by
  cases n <;> rfl

theorem declarations_of_not_stop {stop : List Token → Bool} {ts : List Token} (h : ¬ stop ts)
    (n : Nat) :
    declarations declaration stop (n + 1) ts = (do
      let first ← declaration
      let others ← declarations declaration stop n
      pure (first.toList ++ others) : Rule (List Stmt)) ts := if_neg h

/-- Whether a block ends here: at its closing brace, or where the tokens run out. -/
def blockEnds (ts : List Token) : Bool := ts.head?.all fun t => t.kind = .rightBrace

/-- `declaration* "}"`, behind the opening brace, with at most `n` declarations. -/
def block (n : Nat) : Rule (List Stmt) := do
  let body ← declarations declaration blockEnds n
  let _ ← Phrase.symbol .afterBlock
  pure body

/-- `IDENTIFIER "(" parameters? ")" "{" block`, behind `fun`. -/
def functionDeclaration (n : Nat) : Rule Stmt := do
  let target ← Phrase.identifier .function
  let _ ← Phrase.symbol .afterFunctionName
  let parameters ← Phrase.listed .parameters (Phrase.identifier .parameter)
  let _ ← Phrase.symbol .afterParameters
  let _ ← Phrase.symbol .beforeFunctionBody
  let body ← block declaration n
  pure (.function target parameters body)

/-- `"(" expression ")" statement ("else" statement)?`, behind `if`. An `else` belongs to the
nearest `if`. -/
def ifStatement : Rule Stmt := do
  let value ← condition expression .afterIf .afterIfCondition
  let yes ← statement
  match ← Phrase.accept? (· = .keyword .else_) with
  | some _ => do
    let no ← statement
    pure (.branch value yes (some no))
  | none => pure (.branch value yes none)

/-- `"(" expression ")" statement`, behind `while`. -/
def whileStatement : Rule Stmt := do
  let value ← condition expression .afterWhile .afterCondition
  let body ← statement
  pure (.loop value body)

/-- `"(" start expression? ";" expression? ")" statement`, behind `for`. -/
def forStatement : Rule Stmt := do
  let _ ← Phrase.symbol .afterFor
  let start ← forStart expression
  let value ← optionalExpression expression .semicolon
  let _ ← Phrase.symbol .afterLoopCondition
  let step ← optionalExpression expression .rightParen
  let _ ← Phrase.symbol .afterForClauses
  let body ← statement
  pure (.forLoop start value step body)

/-- One **statement**, by its first token. -/
def statementBody (n : Nat) : Rule Stmt
  | [] => (liftM (expressionStatement expression) : Rule Stmt) []
  | t :: ts =>
    match t.kind with
    | .keyword .for_ => forStatement expression statement ts
    | .keyword .if_ => ifStatement expression statement ts
    | .keyword .print_ => (liftM (printStatement expression) : Rule Stmt) ts
    | .keyword .return_ => (liftM (returnStatement expression t) : Rule Stmt) ts
    | .keyword .while_ => whileStatement expression statement ts
    | .leftBrace => (.block <$> block declaration n : Rule Stmt) ts
    | _ => (liftM (expressionStatement expression) : Rule Stmt) (t :: ts)

/-- One **declaration**, by its first token. -/
def declarationBody (n : Nat) : Rule Stmt
  | [] => statementBody expression statement declaration n []
  | t :: ts =>
    match t.kind with
    | .keyword .fun_ => functionDeclaration declaration n ts
    | .keyword .var_ => (liftM (variableDeclaration expression) : Rule Stmt) ts
    | _ => statementBody expression statement declaration n (t :: ts)

end

/-! ### Closing the circle -/

/-- What the rules for statements and declarations answer where no token is left. -/
def outOfTokens : Rule Stmt := liftM (Phrase.reject .noExpression : Phrase Stmt)

mutual

/-- Reads a **statement** at the front of a list of at most `n` tokens. -/
def statement : Nat → Rule Stmt
  | 0 => outOfTokens
  | n + 1 => statementBody (Phrase.expression (n + 1)) (statement n) (declaration n) n

/-- Reads a **declaration** at the front of a list of at most `n` tokens, or drops it. -/
def declaration : Nat → Rule (Option Stmt)
  | 0 => recover outOfTokens
  | n + 1 => recover (declarationBody (Phrase.expression (n + 1)) (statement n) (declaration n) n)

end

/-- Reads the declarations of a whole **program**. -/
def program : Rule (List Stmt) := fun ts =>
  declarations (declaration ts.length) List.isEmpty ts.length ts

end Rule

/-! ### Tokens up to the first end token -/

/-- The tokens in front of the first end token. -/
def Parse.body (tokens : List Token) : List Token := tokens.takeWhile fun t => t.kind != .eof

/-- The first end token. -/
def Parse.ending (tokens : List Token) : Token :=
  (tokens.find? fun t => t.kind = .eof).getD (.atEnd 1)

namespace Parse

theorem kind_ending (tokens : List Token) : (ending tokens).kind = .eof := by
  rw [ending]
  rcases h : tokens.find? fun t => t.kind = .eof with _ | t
  · simp [h, Token.atEnd]
  · simpa [h] using List.find?_some h

theorem kind_ne_eof_of_mem_body {tokens : List Token} {t : Token} (h : t ∈ body tokens) :
    t.kind ≠ .eof := bne_iff_ne.mp (List.all_eq_true.mp List.all_takeWhile t h)

theorem body_append_cons {ts : List Token} (hts : ∀ t ∈ ts, t.kind ≠ .eof) {end_ : Token}
    (hend : end_.kind = .eof) (behind : List Token) : body (ts ++ end_ :: behind) = ts := by
  rw [body, List.takeWhile_append_of_pos fun t ht => bne_iff_ne.mpr (hts t ht)]
  simp [hend]

theorem ending_append_cons {ts : List Token} (hts : ∀ t ∈ ts, t.kind ≠ .eof) {end_ : Token}
    (hend : end_.kind = .eof) (behind : List Token) : ending (ts ++ end_ :: behind) = end_ := by
  have hnone : ts.find? (fun t => t.kind = .eof) = none :=
    List.find?_eq_none.mpr fun t ht => by simpa using hts t ht
  simp [ending, List.find?_append, hnone, hend]

/-- Tokens with an end token among them are those in front of the first one, that one, and those
behind it. -/
theorem eq_body_append {tokens : List Token} (h : ∃ t ∈ tokens, t.kind = .eof) :
    ∃ behind, tokens = body tokens ++ ending tokens :: behind := by
  obtain ⟨t, ht, hkind⟩ := h
  have hsome : (tokens.find? fun t => t.kind = .eof).isSome :=
    List.find?_isSome.mpr ⟨t, ht, decide_eq_true hkind⟩
  obtain ⟨end_, hfind⟩ := Option.isSome_iff_exists.mp hsome
  obtain ⟨hend, front, behind, rfl, hfront⟩ := List.find?_eq_some_iff_append.mp hfind
  have hfront : ∀ t ∈ front, t.kind ≠ .eof := fun t ht => by simpa using hfront t ht
  have hend : end_.kind = .eof := of_decide_eq_true hend
  exact ⟨behind, by rw [body_append_cons hfront hend, ending_append_cons hfront hend]⟩

end Parse

end LoxLang
