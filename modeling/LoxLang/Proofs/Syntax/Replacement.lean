import LoxLang.Proofs.Syntax.Shift

/-!
# Parsing other tokens

What the parser does depends on the kinds of the tokens and on what literals denote. So it does the
same on tokens that are **replaced** by others with the same kinds and values: it reads the same
trees, drops the same declarations and blames the tokens in the same places, with the new tokens
for the old ones (`Rule.carries_program`). In particular it does not look at lines.
-/

namespace LoxLang

/-- The fault with its token replaced. -/
def SyntaxFault.mapTokens (f : Token → Token) (φ : SyntaxFault) : SyntaxFault :=
  ⟨φ.blame.map f, φ.error⟩

/-- The reject with every token replaced. -/
def Reject.mapTokens (f : Token → Token) (e : Reject) : Reject :=
  ⟨e.fault.mapTokens f, e.rest.map f⟩

/-- What a phrase answers, with every token replaced; `g` does so in what was read. -/
def mapAnswer {α : Type} (f : Token → Token) (g : α → α) :
    Except Reject (α × List Token) → Except Reject (α × List Token)
  | .ok (a, rest) => .ok (g a, rest.map f)
  | .error e => .error (e.mapTokens f)

/-- What a rule answers, with every token replaced. -/
def Reply.mapTokens {α : Type} (f : Token → Token) (g : α → α) (reply : Reply α) : Reply α :=
  ⟨reply.faults.map (SyntaxFault.mapTokens f), mapAnswer f g reply.result⟩

variable {α β : Type} {f : Token → Token}

namespace Phrase

/-- The phrase `q` **carries** `p`: it does on the new tokens what `p` does on the old ones. -/
def Carries (f : Token → Token) (g : α → α) (p q : Phrase α) : Prop :=
  ∀ ts, q (ts.map f) = mapAnswer f g (p ts)

theorem carries_pure {g : α → α} {a b : α} (h : g a = b) : Carries f g (pure a) (pure b) := by
  subst h
  exact fun _ => rfl

theorem Carries.bind {g : α → α} {g' : β → β} {p q : Phrase α} {r s : α → Phrase β}
    (h : Carries f g p q) (h' : ∀ a, Carries f g' (r a) (s (g a))) :
    Carries f g' (p >>= r) (q >>= s) := by
  intro ts
  have hfirst := h ts
  rcases hread : p ts with e | ⟨a, rest⟩
  · rw [hread] at hfirst
    rw [bind_of_error hread, bind_of_error hfirst]
    rfl
  · rw [hread] at hfirst
    rw [bind_of_ok hread, bind_of_ok hfirst]
    exact h' a rest

theorem Carries.map {g : α → α} {g' : β → β} {p q : Phrase α} (h : Carries f g p q)
    {c d : α → β} (hc : ∀ a, g' (c a) = d (g a)) : Carries f g' (c <$> p) (d <$> q) := by
  rw [← bind_pure_comp, ← bind_pure_comp]
  exact h.bind fun a => carries_pure (hc a)

/-! ### Single tokens -/

theorem carries_reject (g : α → α) (e : SyntaxError) : Carries f g (reject e) (reject e) := by
  intro ts
  simp only [reject, mapAnswer, Reject.mapTokens, SyntaxFault.mapTokens, List.head?_map]

theorem carries_rejectAt (g : α → α) (t : Token) (e : SyntaxError) :
    Carries f g (rejectAt t e) (rejectAt (f t) e) := fun _ => rfl

section

variable (hkind : ∀ t, (f t).kind = t.kind)

include hkind

theorem carries_ahead (p : TokenKind → Bool) : Carries f id (ahead p) (ahead p) := by
  intro ts
  cases ts with
  | nil => rfl
  | cons t ts =>
    simp only [ahead, mapAnswer, List.map_cons, List.head?_cons, Option.any_some, hkind, id]

theorem carries_accept? (p : TokenKind → Bool) :
    Carries f (Option.map f) (accept? p) (accept? p) := by
  intro ts
  cases ts with
  | nil => rfl
  | cons t ts =>
    simp only [List.map_cons, accept?, hkind]
    split <;> rfl

theorem carries_expect (kind : TokenKind) (e : SyntaxError) :
    Carries f f (expect kind e) (expect kind e) := by
  refine (carries_accept? hkind _).bind fun o => ?_
  cases o with
  | none => exact carries_reject f e
  | some t => exact carries_pure rfl

/-! ### Lists -/

theorem carries_commaList {g : α → α} {item item' : Phrase α} (h : Carries f g item item')
    (list : Listed) (limit : Nat) :
    Carries f (List.map g) (commaList list item limit) (commaList list item' limit) := by
  induction limit with
  | zero => exact carries_reject _ _
  | succ limit ih =>
    refine h.bind fun first => (carries_accept? hkind _).bind fun comma? => ?_
    cases comma? with
    | none => exact carries_pure rfl
    | some comma => exact ih.bind fun others => carries_pure rfl

theorem carries_listed {g : α → α} {item item' : Phrase α} (h : Carries f g item item')
    (list : Listed) : Carries f (List.map g) (listed list item) (listed list item') := by
  refine (carries_ahead hkind _).bind fun closes => ?_
  cases closes with
  | true => exact carries_pure rfl
  | false => exact carries_commaList hkind h list maxArguments

/-! ### Levels of binary operators -/

section

variable {operators : TokenKind → Bool} {combine : Expr → Token → Expr → Expr}
  (hcombine : ∀ left op right, (combine left op right).mapTokens f =
    combine (left.mapTokens f) (f op) (right.mapTokens f))
  {operand operand' : Phrase Expr} (h : Carries f (Expr.mapTokens f) operand operand')

include hcombine h

theorem carries_chain (n : Nat) (left : Expr) :
    Carries f (Expr.mapTokens f) (chain operators combine operand n left)
      (chain operators combine operand' n (left.mapTokens f)) := by
  induction n generalizing left with
  | zero => exact carries_pure rfl
  | succ n ih =>
    refine (carries_accept? hkind _).bind fun op? => ?_
    cases op? with
    | none => exact carries_pure rfl
    | some op =>
      refine h.bind fun right => ?_
      rw [← hcombine]
      exact ih (combine left op right)

theorem carries_leftAssociative (n : Nat) :
    Carries f (Expr.mapTokens f) (leftAssociative n operators combine operand)
      (leftAssociative n operators combine operand') :=
  h.bind fun left => carries_chain hkind hcombine h n left

end

/-! ### The other levels -/

section

variable (hliteral : ∀ t, (f t).literal = t.literal) {expression expression' : Phrase Expr}
  (h : Carries f (Expr.mapTokens f) expression expression')

include h

include hliteral in
theorem carries_primary :
    Carries f (Expr.mapTokens f) (primary expression) (primary expression') := by
  intro ts
  cases ts with
  | nil => rfl
  | cons t ts =>
    have hgrouping : Carries f (Expr.mapTokens f) (do
          let inner ← expression
          let _ ← symbol .afterExpression
          pure (.grouping inner))
        (do
          let inner ← expression'
          let _ ← symbol .afterExpression
          pure (.grouping inner)) :=
      h.bind fun inner => (carries_expect hkind _ _).bind fun _ =>
        carries_pure (by rw [Expr.mapTokens])
    simp only [List.map_cons, primary, hkind, hliteral]
    split
    case h_7 => exact hgrouping ts
    case h_8 => exact carries_reject _ _ (t :: ts)
    all_goals simp only [mapAnswer, Expr.mapTokens]

theorem carries_callChain (n : Nat) (callee : Expr) :
    Carries f (Expr.mapTokens f) (callChain expression n callee)
      (callChain expression' n (callee.mapTokens f)) := by
  induction n generalizing callee with
  | zero => exact carries_pure rfl
  | succ n ih =>
    refine (carries_accept? hkind _).bind fun opening? => ?_
    cases opening? with
    | none => exact carries_pure rfl
    | some opening =>
      refine (carries_listed hkind h _).bind fun arguments => (carries_expect hkind _ _).bind ?_
      intro paren
      have hcall : Expr.call (callee.mapTokens f) (f paren) (arguments.map (Expr.mapTokens f)) =
          (Expr.call callee paren arguments).mapTokens f := by rw [Expr.mapTokens]
      rw [hcall]
      exact ih (.call callee paren arguments)

include hliteral

theorem carries_call (n : Nat) :
    Carries f (Expr.mapTokens f) (call n expression) (call n expression') :=
  (carries_primary hkind hliteral h).bind fun callee => carries_callChain hkind h n callee

theorem carries_unary (n : Nat) :
    Carries f (Expr.mapTokens f) (unary n expression) (unary n expression') := by
  intro ts
  induction ts with
  | nil => exact carries_call hkind hliteral h n []
  | cons t ts ih =>
    rw [List.map_cons, unary, unary, hkind]
    split
    · rw [ih]
      rcases unary n expression ts with e | ⟨operand, rest⟩
      · rfl
      · simp only [mapAnswer, Except.map, Expr.mapTokens]
    · exact carries_call hkind hliteral h n (t :: ts)

theorem carries_disjunction (n : Nat) :
    Carries f (Expr.mapTokens f) (disjunction n expression) (disjunction n expression') := by
  have hbinary : ∀ left op right, (Expr.binary left op right).mapTokens f =
      .binary (left.mapTokens f) (f op) (right.mapTokens f) :=
    fun left op right => by rw [Expr.mapTokens]
  have hlogical : ∀ left op right, (Expr.logical left op right).mapTokens f =
      .logical (left.mapTokens f) (f op) (right.mapTokens f) :=
    fun left op right => by rw [Expr.mapTokens]
  -- From the loosest of these levels to the tightest.
  refine carries_leftAssociative hkind hlogical ?_ n
  refine carries_leftAssociative hkind hlogical ?_ n
  refine carries_leftAssociative hkind hbinary ?_ n
  refine carries_leftAssociative hkind hbinary ?_ n
  refine carries_leftAssociative hkind hbinary ?_ n
  refine carries_leftAssociative hkind hbinary ?_ n
  exact carries_unary hkind hliteral h n

/-- The new equals sign is blamed where the old one is: whether the target is a name does not depend
on its token. -/
theorem carries_assignment (n : Nat) :
    Carries f (Expr.mapTokens f) (assignment n expression) (assignment n expression') := by
  refine (carries_disjunction hkind hliteral h n).bind fun target => ?_
  refine (carries_accept? hkind _).bind fun equals? => ?_
  cases equals? with
  | none => exact carries_pure rfl
  | some equals =>
    refine h.bind fun value => ?_
    cases target with
    | name t =>
      simp only [Expr.mapTokens]
      exact carries_pure (by rw [Expr.mapTokens])
    | _ =>
      simp only [Expr.mapTokens]
      exact carries_rejectAt _ equals _

end

/-- **Expressions** are read alike from other tokens. -/
theorem carries_expression (hliteral : ∀ t, (f t).literal = t.literal) (n : Nat) :
    Carries f (Expr.mapTokens f) (expression n) (expression n) := by
  induction n with
  | zero => exact carries_reject _ _
  | succ n ih => exact carries_assignment hkind hliteral ih n

end

end Phrase

namespace Rule

/-- The rule `r'` **carries** `r`: it does on the new tokens what `r` does on the old ones. -/
def Carries (f : Token → Token) (g : α → α) (r r' : Rule α) : Prop :=
  ∀ ts, r' (ts.map f) = (r ts).mapTokens f g

theorem carries_liftM {g : α → α} {p q : Phrase α} (h : Phrase.Carries f g p q) :
    Carries f g (liftM p) (liftM q) :=
  fun ts => congrArg (Reply.mk []) (h ts)

theorem carries_pure {g : α → α} {a b : α} (h : g a = b) : Carries f g (pure a) (pure b) :=
  carries_liftM (Phrase.carries_pure h)

theorem Carries.bind {g : α → α} {g' : β → β} {r r' : Rule α} {s s' : α → Rule β}
    (h : Carries f g r r') (h' : ∀ a, Carries f g' (s a) (s' (g a))) :
    Carries f g' (r >>= s) (r' >>= s') := by
  intro ts
  have hfirst := h ts
  rcases hread : r ts with ⟨faults, e | ⟨a, rest⟩⟩
  · rw [hread] at hfirst
    rw [bind_of_error hread, bind_of_error hfirst]
    rfl
  · rw [hread] at hfirst
    rw [bind_of_ok hread, bind_of_ok hfirst, h' a rest]
    simp only [Reply.mapTokens, List.map_append]

theorem Carries.map {g : α → α} {g' : β → β} {r r' : Rule α} (h : Carries f g r r')
    {c d : α → β} (hc : ∀ a, g' (c a) = d (g a)) : Carries f g' (c <$> r) (d <$> r') :=
  h.bind fun a => carries_pure (hc a)

/-! ### Recovery -/

section

variable (hkind : ∀ t, (f t).kind = t.kind)

include hkind

theorem skipPast_map (previous : Token) (ts : List Token) :
    skipPast (f previous) (ts.map f) = (skipPast previous ts).map f := by
  induction ts generalizing previous with
  | nil => rfl
  | cons t ts ih =>
    simp only [List.map_cons, skipPast, hkind]
    split
    · rfl
    · exact ih t

theorem synchronize_map (ts : List Token) : synchronize (ts.map f) = (synchronize ts).map f := by
  cases ts with
  | nil => rfl
  | cons t ts => exact skipPast_map hkind t ts

theorem Carries.recover {g : α → α} {r r' : Rule α} (h : Carries f g r r') :
    Carries f (Option.map g) (Rule.recover r) (Rule.recover r') := by
  intro ts
  have hanswer := h ts
  rcases hread : r ts with ⟨faults, e | ⟨a, rest⟩⟩
  · rw [hread] at hanswer
    simp only [Rule.recover, hread, hanswer, Reply.mapTokens, mapAnswer, List.map_append,
      List.map_cons, List.map_nil, Option.map_none, ← synchronize_map hkind]
    rfl
  · rw [hread] at hanswer
    simp only [Rule.recover, hread, hanswer, Reply.mapTokens, mapAnswer, Option.map_some]

/-! ### Parts of statements -/

section

variable {expression expression' : Phrase Expr}
  (h : Phrase.Carries f (Expr.mapTokens f) expression expression')

include h

theorem carries_variableDeclaration :
    Phrase.Carries f (Stmt.mapTokens f) (variableDeclaration expression)
      (variableDeclaration expression') := by
  refine (Phrase.carries_expect hkind _ _).bind fun target => ?_
  refine (Phrase.carries_accept? hkind _).bind fun equals? => ?_
  have hend : ∀ value, Phrase.Carries f (Stmt.mapTokens f) (do
        let _ ← Phrase.symbol .afterDeclaration
        pure (.declare target value))
      (do
        let _ ← Phrase.symbol .afterDeclaration
        pure (.declare (f target) (value.map (Expr.mapTokens f)))) :=
    fun value => (Phrase.carries_expect hkind _ _).bind fun _ =>
      Phrase.carries_pure (by rw [Stmt.mapTokens])
  have hvalue : Phrase.Carries f (Option.map (Expr.mapTokens f)) (some <$> expression)
      (some <$> expression') := h.map fun _ => rfl
  cases equals? with
  | none => exact (Phrase.carries_pure (g := Option.map (Expr.mapTokens f)) rfl).bind hend
  | some equals => exact hvalue.bind hend

/-- An expression, and the semicolon behind it. -/
private theorem carries_untilSemicolon (place : Place) (c : Expr → Stmt)
    (hc : ∀ e, (c e).mapTokens f = c (e.mapTokens f)) :
    Phrase.Carries f (Stmt.mapTokens f) (do
        let value ← expression
        let _ ← Phrase.symbol place
        pure (c value))
      (do
        let value ← expression'
        let _ ← Phrase.symbol place
        pure (c value)) :=
  h.bind fun value => (Phrase.carries_expect hkind _ _).bind fun _ => Phrase.carries_pure (hc value)

theorem carries_expressionStatement :
    Phrase.Carries f (Stmt.mapTokens f) (expressionStatement expression)
      (expressionStatement expression') :=
  carries_untilSemicolon hkind h _ _ fun _ => by rw [Stmt.mapTokens]

theorem carries_printStatement :
    Phrase.Carries f (Stmt.mapTokens f) (printStatement expression)
      (printStatement expression') :=
  carries_untilSemicolon hkind h _ _ fun _ => by rw [Stmt.mapTokens]

theorem carries_optionalExpression (instead : TokenKind) :
    Phrase.Carries f (Option.map (Expr.mapTokens f)) (optionalExpression expression instead)
      (optionalExpression expression' instead) := by
  refine (Phrase.carries_ahead hkind _).bind fun absent => ?_
  cases absent with
  | true => exact Phrase.carries_pure rfl
  | false => exact h.map fun _ => rfl

theorem carries_returnStatement (keyword : Token) :
    Phrase.Carries f (Stmt.mapTokens f) (returnStatement expression keyword)
      (returnStatement expression' (f keyword)) :=
  (carries_optionalExpression hkind h _).bind fun _ => (Phrase.carries_expect hkind _ _).bind
    fun _ => Phrase.carries_pure (by rw [Stmt.mapTokens])

theorem carries_condition (before after : Place) :
    Phrase.Carries f (Expr.mapTokens f) (condition expression before after)
      (condition expression' before after) :=
  (Phrase.carries_expect hkind _ _).bind fun _ => h.bind fun _ =>
    (Phrase.carries_expect hkind _ _).bind fun _ => Phrase.carries_pure rfl

theorem carries_forStart :
    Phrase.Carries f (Option.map (Stmt.mapTokens f)) (forStart expression)
      (forStart expression') := by
  refine (Phrase.carries_accept? hkind _).bind fun first? => ?_
  cases first? with
  | none => exact (carries_expressionStatement hkind h).map fun _ => rfl
  | some first =>
    simp only [Option.map_some, hkind]
    split
    · exact Phrase.carries_pure rfl
    · exact (carries_variableDeclaration hkind h).map fun _ => rfl

end

/-! ### Statements -/

section

variable {declaration declaration' : Rule (Option Stmt)}
  (hd : Carries f (Option.map (Stmt.mapTokens f)) declaration declaration')

include hd

omit hkind in
theorem carries_declarations {stop : List Token → Bool} (hstop : ∀ ts, stop (ts.map f) = stop ts)
    (n : Nat) :
    Carries f (List.map (Stmt.mapTokens f)) (declarations declaration stop n)
      (declarations declaration' stop n) := by
  induction n with
  | zero => exact carries_pure rfl
  | succ n ih =>
    intro ts
    by_cases h : stop ts
    · rw [declarations_of_stop _ h, declarations_of_stop _ ((hstop ts).trans h)]
      rfl
    · have h' : ¬ stop (ts.map f) := by rwa [hstop]
      rw [declarations_of_not_stop _ h, declarations_of_not_stop _ h']
      have hothers : ∀ first : Option Stmt, Carries f (List.map (Stmt.mapTokens f)) (do
            let others ← declarations declaration stop n
            pure (first.toList ++ others))
          (do
            let others ← declarations declaration' stop n
            pure ((first.map (Stmt.mapTokens f)).toList ++ others)) :=
        fun first => ih.bind fun others => carries_pure (by cases first <;> simp)
      exact hd.bind hothers ts

theorem carries_block (n : Nat) :
    Carries f (List.map (Stmt.mapTokens f)) (block declaration n) (block declaration' n) := by
  have hends : ∀ ts, blockEnds (ts.map f) = blockEnds ts := by
    intro ts
    cases ts with
    | nil => rfl
    | cons t ts => simp [blockEnds, hkind]
  exact (carries_declarations hd hends n).bind fun body =>
    (carries_liftM (Phrase.carries_expect hkind _ _)).bind fun _ => carries_pure rfl

theorem carries_functionDeclaration (n : Nat) :
    Carries f (Stmt.mapTokens f) (functionDeclaration declaration n)
      (functionDeclaration declaration' n) :=
  (carries_liftM (Phrase.carries_expect hkind _ _)).bind fun _ =>
    (carries_liftM (Phrase.carries_expect hkind _ _)).bind fun _ =>
    (carries_liftM (Phrase.carries_listed hkind (Phrase.carries_expect hkind _ _) _)).bind fun _ =>
    (carries_liftM (Phrase.carries_expect hkind _ _)).bind fun _ =>
    (carries_liftM (Phrase.carries_expect hkind _ _)).bind fun _ =>
    (carries_block hkind hd n).bind fun _ => carries_pure (by rw [Stmt.mapTokens])

end

section

variable {expression expression' : Phrase Expr} {statement statement' : Rule Stmt}
  (he : Phrase.Carries f (Expr.mapTokens f) expression expression')
  (hs : Carries f (Stmt.mapTokens f) statement statement')

include he hs

theorem carries_ifStatement :
    Carries f (Stmt.mapTokens f) (ifStatement expression statement)
      (ifStatement expression' statement') := by
  refine (carries_liftM (carries_condition hkind he _ _)).bind fun value => hs.bind fun yes => ?_
  refine (carries_liftM (Phrase.carries_accept? hkind _)).bind fun otherwise? => ?_
  cases otherwise? with
  | none => exact carries_pure (by rw [Stmt.mapTokens])
  | some otherwise => exact hs.bind fun no => carries_pure (by rw [Stmt.mapTokens])

theorem carries_whileStatement :
    Carries f (Stmt.mapTokens f) (whileStatement expression statement)
      (whileStatement expression' statement') :=
  (carries_liftM (carries_condition hkind he _ _)).bind fun _ => hs.bind fun _ =>
    carries_pure (by rw [Stmt.mapTokens])

theorem carries_forStatement :
    Carries f (Stmt.mapTokens f) (forStatement expression statement)
      (forStatement expression' statement') :=
  (carries_liftM (Phrase.carries_expect hkind _ _)).bind fun _ =>
    (carries_liftM (carries_forStart hkind he)).bind fun _ =>
    (carries_liftM (carries_optionalExpression hkind he _)).bind fun _ =>
    (carries_liftM (Phrase.carries_expect hkind _ _)).bind fun _ =>
    (carries_liftM (carries_optionalExpression hkind he _)).bind fun _ =>
    (carries_liftM (Phrase.carries_expect hkind _ _)).bind fun _ =>
    hs.bind fun _ => carries_pure (Stmt.mapTokens_forLoop f _ _ _ _)

variable {declaration declaration' : Rule (Option Stmt)}
  (hd : Carries f (Option.map (Stmt.mapTokens f)) declaration declaration')

include hd

theorem carries_statementBody (n : Nat) :
    Carries f (Stmt.mapTokens f) (statementBody expression statement declaration n)
      (statementBody expression' statement' declaration' n) := by
  have hexpression := carries_liftM (carries_expressionStatement hkind he)
  intro ts
  cases ts with
  | nil => exact hexpression []
  | cons t ts =>
    rw [List.map_cons, statementBody, statementBody, hkind]
    split
    · exact carries_forStatement hkind he hs ts
    · exact carries_ifStatement hkind he hs ts
    · exact carries_liftM (carries_printStatement hkind he) ts
    · exact carries_liftM (carries_returnStatement hkind he t) ts
    · exact carries_whileStatement hkind he hs ts
    · exact (carries_block hkind hd n).map (fun _ => by rw [Stmt.mapTokens]) ts
    · exact hexpression (t :: ts)

theorem carries_declarationBody (n : Nat) :
    Carries f (Stmt.mapTokens f) (declarationBody expression statement declaration n)
      (declarationBody expression' statement' declaration' n) := by
  intro ts
  cases ts with
  | nil => exact carries_statementBody hkind he hs hd n []
  | cons t ts =>
    rw [List.map_cons, declarationBody, declarationBody, hkind]
    split
    · exact carries_functionDeclaration hkind hd n ts
    · exact carries_liftM (carries_variableDeclaration hkind he) ts
    · exact carries_statementBody hkind he hs hd n (t :: ts)

end

variable (hliteral : ∀ t, (f t).literal = t.literal)

include hliteral

private theorem rules_carry (n : Nat) :
    Carries f (Stmt.mapTokens f) (statement n) (statement n) ∧
      Carries f (Option.map (Stmt.mapTokens f)) (declaration n) (declaration n) := by
  have hout : Carries f (Stmt.mapTokens f) outOfTokens outOfTokens :=
    carries_liftM (Phrase.carries_reject _ _)
  induction n with
  | zero => exact ⟨hout, hout.recover hkind⟩
  | succ n ih =>
    have he := Phrase.carries_expression hkind hliteral (n + 1)
    exact ⟨carries_statementBody hkind he ih.1 ih.2 n,
      (carries_declarationBody hkind he ih.1 ih.2 n).recover hkind⟩

/-- **Programs** are read alike from other tokens, and what is wrong with them is found at the same
places. -/
theorem carries_program : Carries f (List.map (Stmt.mapTokens f)) program program := by
  intro ts
  have hempty : ∀ ts : List Token, (ts.map f).isEmpty = ts.isEmpty := fun ts => List.isEmpty_map
  rw [program, program, List.length_map]
  exact carries_declarations (rules_carry hkind hliteral ts.length).2 hempty ts.length ts

end

end Rule

end LoxLang
