import LoxLang.Proofs.Syntax.Rule

/-!
# Parsing goes forward

A rule of the parser is given the tokens from its cursor on, and answers with the tokens from where
it got to. Whether it reads or rejects, these are a suffix of the tokens it was given: a rule never
goes back, and never leaves the tokens. A fault blames one of these tokens, or the end behind them.
The main statements are `Phrase.forward_expression`, `Rule.forward_statement` and
`Rule.forward_declaration`.
-/

namespace LoxLang

/-- What a rule answers **stays in** the tokens it was given: the tokens it leaves are a suffix of
them, and so is the token it blames one of them, unless that is none. -/
def StaysIn {α : Type} (ts : List Token) : Except Reject (α × List Token) → Prop
  | .ok (_, rest) => rest <:+ ts
  | .error e => e.rest <:+ ts ∧ ∀ t ∈ e.fault.blame, t ∈ ts

/-- What stays in the last tokens stays in all of them. -/
theorem StaysIn.mono {α : Type} {ts us : List Token} {x : Except Reject (α × List Token)}
    (h : StaysIn us x) (hsuffix : us <:+ ts) : StaysIn ts x := by
  rcases x with e | ⟨a, rest⟩
  · exact ⟨h.1.trans hsuffix, fun t ht => hsuffix.subset (h.2 t ht)⟩
  · exact List.IsSuffix.trans h hsuffix

namespace Phrase

variable {α β : Type}

/-- The phrase only goes **forward**, on all tokens. -/
def Forward (p : Phrase α) : Prop := ∀ ts, StaysIn ts (p ts)

theorem forward_pure (a : α) : Forward (pure a) := fun ts => List.suffix_refl ts

theorem Forward.bind {p : Phrase α} {f : α → Phrase β} (hp : p.Forward) (hf : ∀ a, (f a).Forward) :
    (p >>= f).Forward := by
  intro ts
  have hfirst := hp ts
  rcases hread : p ts with e | ⟨a, rest⟩
  · rw [hread] at hfirst
    rw [bind_of_error hread]
    exact hfirst
  · rw [hread] at hfirst
    rw [bind_of_ok hread]
    exact (hf a rest).mono hfirst

theorem Forward.map {p : Phrase α} (hp : p.Forward) (f : α → β) : (f <$> p).Forward := by
  rw [← bind_pure_comp]
  exact hp.bind fun a => forward_pure (f a)

/-! ### Single tokens -/

theorem forward_reject (e : SyntaxError) : (reject e : Phrase α).Forward :=
  fun ts => ⟨List.suffix_refl ts, fun _ ht => List.mem_of_mem_head? ht⟩

theorem forward_ahead (p : TokenKind → Bool) : (ahead p).Forward := fun ts => List.suffix_refl ts

theorem forward_accept? (p : TokenKind → Bool) : (accept? p).Forward := by
  intro ts
  cases ts with
  | nil => exact List.suffix_refl []
  | cons t ts =>
    rw [accept?]
    split
    · exact List.suffix_cons t ts
    · exact List.suffix_refl (t :: ts)

theorem forward_expect (kind : TokenKind) (e : SyntaxError) : (expect kind e).Forward :=
  (forward_accept? _).bind fun o =>
    match o with
    | some t => forward_pure t
    | none => forward_reject e

/-! ### Lists -/

theorem forward_commaList {item : Phrase α} (h : item.Forward) (list : Listed) (limit : Nat) :
    (commaList list item limit).Forward := by
  induction limit with
  | zero => exact forward_reject _
  | succ limit ih =>
    refine h.bind fun first => (forward_accept? _).bind fun comma? => ?_
    cases comma? with
    | none => exact forward_pure [first]
    | some comma => exact ih.bind fun others => forward_pure (first :: others)

theorem forward_listed {item : Phrase α} (h : item.Forward) (list : Listed) :
    (listed list item).Forward := by
  refine (forward_ahead _).bind fun closes => ?_
  split
  · exact forward_pure []
  · exact forward_commaList h list maxArguments

/-! ### Levels of binary operators -/

section

variable {operators : TokenKind → Bool} {combine : Expr → Token → Expr → Expr}
  {operand : Phrase Expr} (h : operand.Forward)

include h

theorem forward_chain (n : Nat) (left : Expr) :
    (chain operators combine operand n left).Forward := by
  induction n generalizing left with
  | zero => exact forward_pure left
  | succ n ih =>
    refine (forward_accept? _).bind fun op? => ?_
    cases op? with
    | none => exact forward_pure left
    | some op => exact h.bind fun right => ih (combine left op right)

theorem forward_leftAssociative (n : Nat) :
    (leftAssociative n operators combine operand).Forward :=
  h.bind fun left => forward_chain h n left

end

/-! ### The other levels -/

section

variable {expression : Phrase Expr} (h : expression.Forward)

include h

theorem forward_primary : (primary expression).Forward := by
  intro ts
  cases ts with
  | nil => exact forward_reject _ []
  | cons t ts =>
    rw [primary]
    split
    case h_7 =>
      have hgrouping : (do
          let inner ← expression
          let _ ← symbol .afterExpression
          pure (.grouping inner) : Phrase Expr).Forward :=
        h.bind fun inner => (forward_expect _ _).bind fun _ => forward_pure _
      exact (hgrouping ts).mono (List.suffix_cons t ts)
    case h_8 => exact forward_reject _ (t :: ts)
    all_goals exact List.suffix_cons t ts

theorem forward_callChain (n : Nat) (callee : Expr) : (callChain expression n callee).Forward := by
  induction n generalizing callee with
  | zero => exact forward_pure callee
  | succ n ih =>
    refine (forward_accept? _).bind fun opening? => ?_
    cases opening? with
    | none => exact forward_pure callee
    | some opening =>
      refine (forward_listed h _).bind fun arguments => (forward_expect _ _).bind fun paren => ?_
      exact ih (.call callee paren arguments)

theorem forward_call (n : Nat) : (call n expression).Forward :=
  (forward_primary h).bind fun callee => forward_callChain h n callee

theorem forward_unary (n : Nat) : (unary n expression).Forward := by
  intro ts
  induction ts with
  | nil => exact forward_call h n []
  | cons t ts ih =>
    rw [unary]
    split
    · rcases hread : unary n expression ts with e | ⟨operand, rest⟩
      · rw [hread] at ih
        exact ih.mono (List.suffix_cons t ts)
      · rw [hread] at ih
        exact ih.mono (List.suffix_cons t ts)
    · exact forward_call h n (t :: ts)

theorem forward_disjunction (n : Nat) : (disjunction n expression).Forward := by
  -- From the loosest of these levels to the tightest.
  refine forward_leftAssociative (forward_leftAssociative (forward_leftAssociative ?_ n) n) n
  refine forward_leftAssociative (forward_leftAssociative (forward_leftAssociative ?_ n) n) n
  exact forward_unary h n

/-- The token that is blamed for an invalid target is the equals sign behind it. -/
theorem forward_assignment (n : Nat) : (assignment n expression).Forward := by
  intro ts
  have htarget := forward_disjunction h n ts
  rcases hread : disjunction n expression ts with e | ⟨target, middle⟩
  · rw [hread] at htarget
    rw [assignment, bind_of_error hread]
    exact htarget
  · rw [hread] at htarget
    rw [assignment, bind_of_ok hread]
    refine StaysIn.mono ?_ htarget
    rcases hequals : accept? (· = .equal) middle with e | ⟨_ | equals, behind⟩
    · have hstays := forward_accept? (· = .equal) middle
      rw [hequals] at hstays
      rw [bind_of_error hequals]
      exact hstays
    · obtain ⟨rfl, -⟩ := accept?_eq_none_iff.mp hequals
      rw [bind_of_ok hequals]
      exact List.suffix_refl _
    · obtain ⟨rfl, -⟩ := accept?_eq_some_iff.mp hequals
      rw [bind_of_ok hequals]
      have hvalue := h behind
      rcases hread : expression behind with e | ⟨value, rest⟩
      · rw [hread] at hvalue
        refine StaysIn.mono ?_ (List.suffix_cons equals behind)
        simp only [bind_of_error hread]
        exact hvalue
      · rw [hread] at hvalue
        have hrest : rest <:+ equals :: behind :=
          List.IsSuffix.trans hvalue (List.suffix_cons equals behind)
        simp only [bind_of_ok hread]
        cases target with
        | name t => exact hrest
        | _ => exact ⟨hrest, fun t ht => Option.mem_some.mp ht ▸ List.mem_cons_self ..⟩

end

/-- Reading an **expression** goes forward. -/
theorem forward_expression (n : Nat) : (expression n).Forward := by
  induction n with
  | zero => exact forward_reject _
  | succ n ih => exact forward_assignment ih n

end Phrase

namespace Rule

variable {α β : Type}

/-- The rule only goes **forward**, on all tokens, and so did the declarations that it dropped. -/
def Forward (r : Rule α) : Prop :=
  ∀ ts, StaysIn ts (r ts).result ∧ ∀ f ∈ (r ts).faults, ∀ t ∈ f.blame, t ∈ ts

theorem forward_liftM {p : Phrase α} (h : p.Forward) : Forward (liftM p) :=
  fun ts => ⟨h ts, fun _ hf => absurd hf List.not_mem_nil⟩

theorem forward_pure (a : α) : Forward (pure a) := forward_liftM (Phrase.forward_pure a)

theorem Forward.bind {r : Rule α} {f : α → Rule β} (hr : Forward r) (hf : ∀ a, Forward (f a)) :
    Forward (r >>= f) := by
  intro ts
  obtain ⟨hresult, hfaults⟩ := hr ts
  rcases hread : r ts with ⟨faults, e | ⟨a, rest⟩⟩
  · rw [hread] at hresult hfaults
    rw [bind_of_error hread]
    exact ⟨hresult, hfaults⟩
  · rw [hread] at hresult hfaults
    rw [bind_of_ok hread]
    have hsuffix : rest <:+ ts := hresult
    obtain ⟨hresult', hfaults'⟩ := hf a rest
    refine ⟨hresult'.mono hsuffix, fun f hf t ht => ?_⟩
    rcases List.mem_append.mp hf with hfirst | hsecond
    · exact hfaults f hfirst t ht
    · exact hsuffix.subset (hfaults' f hsecond t ht)

theorem Forward.map {r : Rule α} (hr : Forward r) (f : α → β) : Forward (f <$> r) :=
  hr.bind fun a => forward_pure (f a)

/-- What begins behind the first token goes forward from there. -/
theorem Forward.behind {r : Rule α} (hr : Forward r) (t : Token) (ts : List Token) :
    StaysIn (t :: ts) (r ts).result ∧ ∀ f ∈ (r ts).faults, ∀ u ∈ f.blame, u ∈ t :: ts :=
  ⟨(hr ts).1.mono (List.suffix_cons t ts),
    fun f hf u hu => List.mem_cons_of_mem t ((hr ts).2 f hf u hu)⟩

/-! ### Recovery -/

theorem skipPast_suffix (previous : Token) (ts : List Token) : skipPast previous ts <:+ ts := by
  induction ts generalizing previous with
  | nil => exact List.suffix_refl []
  | cons t ts ih =>
    rw [skipPast]
    split
    · exact List.suffix_refl (t :: ts)
    · exact (ih t).trans (List.suffix_cons t ts)

theorem synchronize_suffix (ts : List Token) : synchronize ts <:+ ts := by
  cases ts with
  | nil => exact List.suffix_refl []
  | cons t ts => exact (skipPast_suffix t ts).trans (List.suffix_cons t ts)

/-- Skipping stops just behind a semicolon, in front of a keyword that opens a statement, or where
the tokens run out. -/
theorem exists_eq_append_skipPast (previous : Token) (ts : List Token) :
    ∃ skipped before, previous :: ts = skipped ++ before :: skipPast previous ts ∧
      (before.kind = .semicolon ∨
        ∀ t ∈ (skipPast previous ts).head?, Parser.opensStatement t.kind) := by
  induction ts generalizing previous with
  | nil => exact ⟨[], previous, rfl, .inr nofun⟩
  | cons t ts ih =>
    rw [skipPast]
    split
    · next h =>
      refine ⟨[], previous, rfl, ?_⟩
      rcases Bool.or_eq_true_iff.mp h with hsemicolon | hopens
      · exact .inl (of_decide_eq_true hsemicolon)
      · exact .inr fun u hu => Option.mem_some.mp hu ▸ hopens
    · obtain ⟨skipped, before, hcons, hstop⟩ := ih t
      exact ⟨previous :: skipped, before, congrArg (List.cons previous) hcons, hstop⟩

/-- Recovery skips a token, where there is one. -/
theorem length_synchronize_lt {ts : List Token} (h : ts ≠ []) :
    (synchronize ts).length < ts.length := by
  cases ts with
  | nil => exact absurd rfl h
  | cons t ts => exact Nat.lt_succ_of_le (skipPast_suffix t ts).length_le

theorem Forward.recover {r : Rule α} (hr : Forward r) : Forward (recover r) := by
  intro ts
  obtain ⟨hresult, hfaults⟩ := hr ts
  rw [Rule.recover]
  split
  · next faults a rest hread =>
    rw [hread] at hresult hfaults
    exact ⟨hresult, hfaults⟩
  · next faults e hread =>
    rw [hread] at hresult hfaults
    refine ⟨(synchronize_suffix e.rest).trans hresult.1, fun f hf => ?_⟩
    rcases List.mem_append.mp hf with hearlier | hlast
    · exact hfaults f hearlier
    · rw [List.mem_singleton.mp hlast]
      exact hresult.2

/-! ### Parts of statements -/

section

variable {expression : Phrase Expr} (h : expression.Forward)

include h

theorem forward_variableDeclaration : (variableDeclaration expression).Forward := by
  refine (Phrase.forward_expect _ _).bind fun target => (Phrase.forward_accept? _).bind fun o => ?_
  have hend : ∀ value, (do
      let _ ← Phrase.symbol .afterDeclaration
      pure (.declare target value) : Phrase Stmt).Forward :=
    fun value => (Phrase.forward_expect _ _).bind fun _ => Phrase.forward_pure _
  cases o with
  | none => exact (Phrase.forward_pure none).bind hend
  | some equals => exact (h.map some).bind hend

/-- An expression, and the semicolon behind it. -/
private theorem forward_untilSemicolon (place : Place) (f : Expr → Stmt) : (do
    let value ← expression
    let _ ← Phrase.symbol place
    pure (f value) : Phrase Stmt).Forward :=
  h.bind fun _ => (Phrase.forward_expect _ _).bind fun _ => Phrase.forward_pure _

theorem forward_expressionStatement : (expressionStatement expression).Forward :=
  forward_untilSemicolon h _ _

theorem forward_printStatement : (printStatement expression).Forward :=
  forward_untilSemicolon h _ _

theorem forward_optionalExpression (instead : TokenKind) :
    (optionalExpression expression instead).Forward := by
  refine (Phrase.forward_ahead _).bind fun absent => ?_
  split
  · exact Phrase.forward_pure none
  · exact h.map some

theorem forward_returnStatement (keyword : Token) : (returnStatement expression keyword).Forward :=
  (forward_optionalExpression h _).bind fun _ => (Phrase.forward_expect _ _).bind fun _ =>
    Phrase.forward_pure _

theorem forward_condition (before after : Place) : (condition expression before after).Forward :=
  (Phrase.forward_expect _ _).bind fun _ => h.bind fun value =>
    (Phrase.forward_expect _ _).bind fun _ => Phrase.forward_pure value

theorem forward_forStart : (forStart expression).Forward := by
  refine (Phrase.forward_accept? _).bind fun o => ?_
  cases o with
  | none => exact (forward_expressionStatement h).map some
  | some t =>
    dsimp only
    split
    · exact Phrase.forward_pure none
    · exact (forward_variableDeclaration h).map some

end

/-! ### Statements -/

section

variable {expression : Phrase Expr} {statement : Rule Stmt} {declaration : Rule (Option Stmt)}
  (he : expression.Forward) (hs : Forward statement) (hd : Forward declaration)

include hd in
theorem forward_declarations (stop : List Token → Bool) (n : Nat) :
    Forward (declarations declaration stop n) := by
  induction n with
  | zero => exact forward_pure []
  | succ n ih =>
    intro ts
    by_cases hstop : stop ts
    · rw [declarations_of_stop _ hstop]
      exact forward_pure [] ts
    · rw [declarations_of_not_stop _ hstop]
      exact (hd.bind fun first => ih.bind fun others => forward_pure (first.toList ++ others)) ts

include hd in
theorem forward_block (n : Nat) : Forward (block declaration n) :=
  (forward_declarations hd _ n).bind fun body =>
    (forward_liftM (Phrase.forward_expect _ _)).bind fun _ => forward_pure body

include hd in
theorem forward_functionDeclaration (n : Nat) : Forward (functionDeclaration declaration n) :=
  (forward_liftM (Phrase.forward_expect _ _)).bind fun _ =>
    (forward_liftM (Phrase.forward_expect _ _)).bind fun _ =>
    (forward_liftM (Phrase.forward_listed (Phrase.forward_expect _ _) _)).bind fun _ =>
    (forward_liftM (Phrase.forward_expect _ _)).bind fun _ =>
    (forward_liftM (Phrase.forward_expect _ _)).bind fun _ =>
    (forward_block hd n).bind fun _ => forward_pure _

include he hs in
theorem forward_ifStatement : Forward (ifStatement expression statement) := by
  refine (forward_liftM (forward_condition he _ _)).bind fun value => hs.bind fun yes => ?_
  refine (forward_liftM (Phrase.forward_accept? _)).bind fun otherwise? => ?_
  cases otherwise? with
  | none => exact forward_pure _
  | some otherwise => exact hs.bind fun no => forward_pure _

include he hs in
theorem forward_whileStatement : Forward (whileStatement expression statement) :=
  (forward_liftM (forward_condition he _ _)).bind fun _ => hs.bind fun _ => forward_pure _

include he hs in
theorem forward_forStatement : Forward (forStatement expression statement) :=
  (forward_liftM (Phrase.forward_expect _ _)).bind fun _ =>
    (forward_liftM (forward_forStart he)).bind fun _ =>
    (forward_liftM (forward_optionalExpression he _)).bind fun _ =>
    (forward_liftM (Phrase.forward_expect _ _)).bind fun _ =>
    (forward_liftM (forward_optionalExpression he _)).bind fun _ =>
    (forward_liftM (Phrase.forward_expect _ _)).bind fun _ =>
    hs.bind fun _ => forward_pure _

include he hs hd in
theorem forward_statementBody (n : Nat) :
    Forward (statementBody expression statement declaration n) := by
  have hexpression : Forward (liftM (expressionStatement expression)) :=
    forward_liftM (forward_expressionStatement he)
  intro ts
  cases ts with
  | nil => exact hexpression []
  | cons t ts =>
    rw [statementBody]
    split
    · exact (forward_forStatement he hs).behind t ts
    · exact (forward_ifStatement he hs).behind t ts
    · exact (forward_liftM (forward_printStatement he)).behind t ts
    · exact (forward_liftM (forward_returnStatement he t)).behind t ts
    · exact (forward_whileStatement he hs).behind t ts
    · exact ((forward_block hd n).map Stmt.block).behind t ts
    · exact hexpression (t :: ts)

include he hs hd in
theorem forward_declarationBody (n : Nat) :
    Forward (declarationBody expression statement declaration n) := by
  intro ts
  cases ts with
  | nil => exact forward_statementBody he hs hd n []
  | cons t ts =>
    rw [declarationBody]
    split
    · exact (forward_functionDeclaration hd n).behind t ts
    · exact (forward_liftM (forward_variableDeclaration he)).behind t ts
    · exact forward_statementBody he hs hd n (t :: ts)

end

private theorem rules_forward (n : Nat) : Forward (statement n) ∧ Forward (declaration n) := by
  have hout : Forward outOfTokens := forward_liftM (Phrase.forward_reject _)
  induction n with
  | zero => exact ⟨hout, hout.recover⟩
  | succ n ih =>
    have he := Phrase.forward_expression (n + 1)
    exact ⟨forward_statementBody he ih.1 ih.2 n, (forward_declarationBody he ih.1 ih.2 n).recover⟩

/-- Reading a **statement** goes forward. -/
theorem forward_statement (n : Nat) : Forward (statement n) := (rules_forward n).1

/-- Reading a **declaration** goes forward, also where it is dropped. -/
theorem forward_declaration (n : Nat) : Forward (declaration n) := (rules_forward n).2

end Rule

end LoxLang
