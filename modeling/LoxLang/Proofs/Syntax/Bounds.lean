import LoxLang.Proofs.Syntax.Soundness

/-!
# Bounds on parsing

The rules of the parser take a bound on the tokens that are left, on which their recursion and their
loops fall. It cuts nothing off: with any two bounds that are no less than the number of tokens, a
rule answers alike, whether it reads or rejects. This rests on progress, for a loop or a nested rule
is only ever entered behind a token that was read. The main statements are
`Phrase.expression_agree`, `Rule.statement_agree` and `Rule.declaration_agree`.
-/

namespace LoxLang

open Grammar

/-- Two functions **agree** on all lists of at most `n` tokens. -/
def AgreeUpTo {γ : Type} (n : Nat) (p q : List Token → γ) : Prop :=
  ∀ ⦃ts : List Token⦄, ts.length ≤ n → p ts = q ts

theorem AgreeUpTo.refl {γ : Type} (n : Nat) (p : List Token → γ) : AgreeUpTo n p p := fun _ _ => rfl

theorem AgreeUpTo.mono {γ : Type} {n m : Nat} {p q : List Token → γ} (h : AgreeUpTo m p q)
    (hle : n ≤ m) : AgreeUpTo n p q := fun _ hts => h (Nat.le_trans hts hle)

/-! ### Phrases -/

namespace Phrase

variable {α β : Type} {n : Nat}

/-- The phrase **consumes** a token at least, where it reads. -/
def Consumes (p : Phrase α) : Prop :=
  ∀ ⦃ts a rest⦄, p ts = .ok (a, rest) → rest.length < ts.length

theorem Consumes.bind {p : Phrase α} {f : α → Phrase β} (hp : p.Consumes)
    (hf : ∀ a, (f a).Forward) : (p >>= f).Consumes := by
  intro ts b rest hread
  obtain ⟨a, middle, hfirst, hsecond⟩ := bind_eq_ok_iff.mp hread
  have hstays := hf a middle
  rw [hsecond] at hstays
  exact Nat.lt_of_le_of_lt (List.IsSuffix.length_le hstays) (hp hfirst)

/-- Nothing but tokens derives an expression. -/
theorem Sound.consumes {level : Level} {p : Phrase Expr} (h : p.Sound (Expression level)) :
    p.Consumes := by
  intro ts e rest hread
  obtain ⟨used, rfl, he⟩ := h hread
  obtain ⟨t, us, rfl, -⟩ := he.exists_cons
  simp only [List.cons_append, List.length_cons, List.length_append]
  omega

/-- Two phrases answer alike in front of what answers alike. -/
theorem bind_congr_at {p q : Phrase α} {f g : α → Phrase β} {ts : List Token} (hp : p ts = q ts)
    (hf : ∀ a rest, p ts = .ok (a, rest) → f a rest = g a rest) :
    (p >>= f) ts = (q >>= g) ts := by
  rcases hread : p ts with e | ⟨a, rest⟩
  · rw [bind_of_error hread, bind_of_error (hp ▸ hread)]
  · rw [bind_of_ok hread, bind_of_ok (hp ▸ hread)]
    exact hf a rest hread

theorem agree_bind {p q : Phrase α} {f g : α → Phrase β} (hp : AgreeUpTo n p q)
    (hforward : p.Forward) (hf : ∀ a, AgreeUpTo n (f a) (g a)) :
    AgreeUpTo n (p >>= f) (q >>= g) := by
  intro ts hts
  refine bind_congr_at (hp hts) fun a rest hread => hf a ?_
  have hstays := hforward ts
  rw [hread] at hstays
  exact Nat.le_trans (List.IsSuffix.length_le hstays) hts

/-- Behind a phrase that consumes, one token less is left. -/
theorem agree_bind_of_consumes {p q : Phrase α} {f g : α → Phrase β} (hp : AgreeUpTo (n + 1) p q)
    (hconsumes : p.Consumes) (hf : ∀ a, AgreeUpTo n (f a) (g a)) :
    AgreeUpTo (n + 1) (p >>= f) (q >>= g) := by
  intro ts hts
  refine bind_congr_at (hp hts) fun a rest hread => hf a ?_
  exact Nat.le_of_lt_succ (Nat.lt_of_lt_of_le (hconsumes hread) hts)

/-- Behind a token that is accepted, one token less is left. -/
theorem agree_accept?_bind (accepted : TokenKind → Bool) {f g : Option Token → Phrase β}
    (hsome : ∀ t, AgreeUpTo n (f (some t)) (g (some t)))
    (hnone : AgreeUpTo (n + 1) (f none) (g none)) :
    AgreeUpTo (n + 1) (accept? accepted >>= f) (accept? accepted >>= g) := by
  intro ts hts
  refine bind_congr_at rfl fun o rest hread => ?_
  cases o with
  | none =>
    obtain ⟨rfl, -⟩ := accept?_eq_none_iff.mp hread
    exact hnone hts
  | some t =>
    obtain ⟨rfl, -⟩ := accept?_eq_some_iff.mp hread
    exact hsome t (Nat.le_of_succ_le_succ hts)

/-! ### Lists -/

section

variable {item item' : Phrase α} (h : AgreeUpTo n item item') (hforward : item.Forward)

include h hforward

theorem commaList_agree (list : Listed) (limit : Nat) :
    AgreeUpTo n (commaList list item limit) (commaList list item' limit) := by
  induction limit with
  | zero => exact .refl n _
  | succ limit ih =>
    refine agree_bind h hforward fun first => ?_
    refine agree_bind (.refl n _) (forward_accept? _) fun comma? => ?_
    cases comma? with
    | none => exact .refl n _
    | some comma =>
      exact agree_bind ih (forward_commaList hforward list limit) fun others => .refl n _

theorem listed_agree (list : Listed) : AgreeUpTo n (listed list item) (listed list item') := by
  refine agree_bind (.refl n _) (forward_ahead _) fun closes => ?_
  split
  · exact .refl n _
  · exact commaList_agree h hforward list maxArguments

end

/-! ### Levels of binary operators -/

section

variable {operators : TokenKind → Bool} {combine : Expr → Token → Expr → Expr}
  {operand operand' : Phrase Expr}

theorem chain_nil (k : Nat) (left : Expr) :
    chain operators combine operand k left [] = .ok (left, []) := by
  cases k <;> rfl

theorem chain_agree (h : AgreeUpTo n operand operand') (hforward : operand.Forward) {k m : Nat}
    (hk : n ≤ k) (hm : n ≤ m) (left : Expr) :
    AgreeUpTo n (chain operators combine operand k left)
      (chain operators combine operand' m left) := by
  induction n generalizing k m left with
  | zero =>
    intro ts hts
    rw [List.length_eq_zero_iff.mp (Nat.le_zero.mp hts), chain_nil, chain_nil]
  | succ n ih =>
    obtain ⟨k, rfl⟩ : ∃ k', k = k' + 1 := ⟨k - 1, by omega⟩
    obtain ⟨m, rfl⟩ : ∃ m', m = m' + 1 := ⟨m - 1, by omega⟩
    refine agree_accept?_bind operators (fun op => ?_) (.refl _ _)
    have hoperand := h.mono (Nat.le_succ n)
    refine agree_bind hoperand hforward fun right => ?_
    exact ih hoperand (Nat.le_of_succ_le_succ hk) (Nat.le_of_succ_le_succ hm)
      (combine left op right)

/-- Two phrases for one rule that **match** up to `n` tokens: they agree there, and the first one
goes forward and consumes. -/
structure Matches (n : Nat) (p q : Phrase Expr) : Prop where
  agree : AgreeUpTo n p q
  forward : p.Forward
  consumes : p.Consumes

/-- A level of binary operators takes over a match of its operands. -/
theorem Matches.leftAssociative (h : Matches (n + 1) operand operand') {k m : Nat} (hk : n ≤ k)
    (hm : n ≤ m) :
    Matches (n + 1) (leftAssociative k operators combine operand)
      (leftAssociative m operators combine operand') where
  agree := agree_bind_of_consumes h.agree h.consumes fun left =>
    chain_agree (h.agree.mono (Nat.le_succ n)) h.forward hk hm left
  forward := forward_leftAssociative h.forward k
  consumes := h.consumes.bind fun left => forward_chain h.forward k left

end

/-! ### The other levels -/

theorem callChain_nil (expression : Phrase Expr) (k : Nat) (callee : Expr) :
    callChain expression k callee [] = .ok (callee, []) := by
  cases k <;> rfl

section

variable {expression expression' : Phrase Expr} (h : AgreeUpTo n expression expression')
  (hforward : expression.Forward)

include h hforward

theorem primary_agree : AgreeUpTo (n + 1) (primary expression) (primary expression') := by
  intro ts hts
  cases ts with
  | nil => rfl
  | cons t ts =>
    rw [primary, primary]
    split
    case h_7 =>
      have hgrouping := agree_bind (f := fun inner => (do
        let _ ← symbol .afterExpression
        pure (.grouping inner) : Phrase Expr)) h hforward fun inner => .refl n _
      exact hgrouping (Nat.le_of_succ_le_succ hts)
    all_goals rfl

theorem callChain_agree {k m : Nat} (hk : n ≤ k) (hm : n ≤ m) (callee : Expr) :
    AgreeUpTo n (callChain expression k callee) (callChain expression' m callee) := by
  induction n generalizing k m callee with
  | zero =>
    intro ts hts
    rw [List.length_eq_zero_iff.mp (Nat.le_zero.mp hts), callChain_nil, callChain_nil]
  | succ n ih =>
    obtain ⟨k, rfl⟩ : ∃ k', k = k' + 1 := ⟨k - 1, by omega⟩
    obtain ⟨m, rfl⟩ : ∃ m', m = m' + 1 := ⟨m - 1, by omega⟩
    have hinner := h.mono (Nat.le_succ n)
    rw [callChain, callChain]
    refine agree_accept?_bind _ (fun opening => ?_) (.refl (n + 1) (pure callee : Phrase Expr))
    refine agree_bind (listed_agree hinner hforward .arguments) (forward_listed hforward _) ?_
    refine fun arguments => agree_bind (.refl n _) (forward_expect _ _) fun paren => ?_
    exact ih hinner (Nat.le_of_succ_le_succ hk) (Nat.le_of_succ_le_succ hm)
      (.call callee paren arguments)

variable (hsound : expression.Sound (Expression .assignment))

include hsound

theorem call_agree {k m : Nat} (hk : n ≤ k) (hm : n ≤ m) :
    AgreeUpTo (n + 1) (call k expression) (call m expression') :=
  agree_bind_of_consumes (primary_agree h hforward) (primary_sound hsound).consumes fun callee =>
    callChain_agree h hforward hk hm callee

theorem unary_matches {k m : Nat} (hk : n ≤ k) (hm : n ≤ m) :
    Matches (n + 1) (unary k expression) (unary m expression') := by
  refine ⟨fun ts hts => ?_, forward_unary hforward k, (unary_sound hsound k).consumes⟩
  induction ts with
  | nil => exact call_agree h hforward hsound hk hm hts
  | cons t ts ih =>
    rw [unary, unary, ih (Nat.le_of_succ_le hts), call_agree h hforward hsound hk hm hts]

theorem disjunction_matches {k m : Nat} (hk : n ≤ k) (hm : n ≤ m) :
    Matches (n + 1) (disjunction k expression) (disjunction m expression') := by
  have hfactor : Matches (n + 1) (factor k expression) (factor m expression') :=
    (unary_matches h hforward hsound hk hm).leftAssociative hk hm
  have hcomparison : Matches (n + 1) (comparison k expression) (comparison m expression') :=
    (hfactor.leftAssociative hk hm).leftAssociative hk hm
  have hconjunction : Matches (n + 1) (conjunction k expression) (conjunction m expression') :=
    (hcomparison.leftAssociative hk hm).leftAssociative hk hm
  exact hconjunction.leftAssociative hk hm

theorem assignment_agree {k m : Nat} (hk : n ≤ k) (hm : n ≤ m) :
    AgreeUpTo (n + 1) (assignment k expression) (assignment m expression') := by
  have htarget := disjunction_matches h hforward hsound hk hm
  refine agree_bind_of_consumes htarget.agree htarget.consumes fun target => ?_
  refine agree_bind (.refl n _) (forward_accept? _) fun equals? => ?_
  cases equals? with
  | none => exact .refl n _
  | some equals => exact agree_bind h hforward fun value => .refl n _

end

/-- Whatever the larger bound is, the same **expressions** are read, and the same is rejected. -/
theorem expression_agree {n m : Nat} (hle : n ≤ m) :
    AgreeUpTo n (expression n) (expression m) := by
  induction n generalizing m with
  | zero =>
    intro ts hts
    rw [List.length_eq_zero_iff.mp (Nat.le_zero.mp hts)]
    cases m <;> rfl
  | succ n ih =>
    obtain ⟨m, rfl⟩ : ∃ m', m = m' + 1 := ⟨m - 1, by omega⟩
    have hinner := Nat.le_of_succ_le_succ hle
    exact assignment_agree (ih hinner) (forward_expression n) (expression_sound n) (Nat.le_refl n)
      hinner

/-- With enough of a bound, the rule for expressions is what its grammar says, over itself. -/
theorem expression_eq {n : Nat} {ts : List Token} (h : ts.length ≤ n) :
    expression n ts = assignment n (expression n) ts := by
  cases n with
  | zero =>
    rw [List.length_eq_zero_iff.mp (Nat.le_zero.mp h)]
    rfl
  | succ n =>
    exact assignment_agree (expression_agree (Nat.le_succ n)) (forward_expression n)
      (expression_sound n) (Nat.le_refl n) (Nat.le_succ n) h

end Phrase

/-! ### Rules -/

namespace Rule

variable {α β : Type} {n : Nat}

/-- Two rules answer alike in front of what answers alike. -/
theorem bind_congr_at {r r' : Rule α} {f g : α → Rule β} {ts : List Token} (hr : r ts = r' ts)
    (hf : ∀ φ a rest, Answers r ts φ a rest → f a rest = g a rest) :
    (r >>= f) ts = (r' >>= g) ts := by
  rcases hread : r ts with ⟨φ, e | ⟨a, rest⟩⟩
  · rw [bind_of_error hread, bind_of_error (hr ▸ hread)]
  · rw [bind_of_ok hread, bind_of_ok (hr ▸ hread), hf φ a rest hread]

theorem agree_bind {r r' : Rule α} {f g : α → Rule β} (hr : AgreeUpTo n r r')
    (hforward : Forward r) (hf : ∀ a, AgreeUpTo n (f a) (g a)) :
    AgreeUpTo n (r >>= f) (r' >>= g) := by
  intro ts hts
  refine bind_congr_at (hr hts) fun φ a rest hread => hf a ?_
  have hstays := (hforward ts).1
  rw [hread] at hstays
  exact Nat.le_trans (List.IsSuffix.length_le hstays) hts

theorem agree_liftM {p q : Phrase α} (h : AgreeUpTo n p q) :
    AgreeUpTo n (liftM p : Rule α) (liftM q : Rule α) :=
  fun _ hts => congrArg (Reply.mk []) (h hts)

/-- In front of two rules that agree, a phrase of both. -/
theorem agree_liftM_bind {p q : Phrase α} {f g : α → Rule β} (h : AgreeUpTo n p q)
    (hforward : p.Forward) (hf : ∀ a, AgreeUpTo n (f a) (g a)) :
    AgreeUpTo n (liftM p >>= f) (liftM q >>= g) :=
  agree_bind (agree_liftM h) (forward_liftM hforward) hf

theorem agree_recover {r r' : Rule α} (h : AgreeUpTo n r r') :
    AgreeUpTo n (recover r) (recover r') := by
  intro ts hts
  rw [recover, recover, h hts]

/-! ### Parts of statements -/

section

variable {expression expression' : Phrase Expr} (h : AgreeUpTo n expression expression')
  (hforward : expression.Forward)

include h hforward

theorem variableDeclaration_agree :
    AgreeUpTo n (variableDeclaration expression) (variableDeclaration expression') := by
  refine Phrase.agree_bind (.refl n _) (Phrase.forward_expect _ _) fun target => ?_
  refine Phrase.agree_bind (.refl n _) (Phrase.forward_accept? _) fun equals? => ?_
  cases equals? with
  | none => exact .refl n _
  | some equals =>
    have hvalue : AgreeUpTo n (some <$> expression) (some <$> expression') := by
      rw [← bind_pure_comp, ← bind_pure_comp]
      exact Phrase.agree_bind h hforward fun e => .refl n _
    exact Phrase.agree_bind hvalue (hforward.map some) fun value => .refl n _

theorem expressionStatement_agree :
    AgreeUpTo n (expressionStatement expression) (expressionStatement expression') :=
  Phrase.agree_bind h hforward fun _ => .refl n _

theorem printStatement_agree :
    AgreeUpTo n (printStatement expression) (printStatement expression') :=
  Phrase.agree_bind h hforward fun _ => .refl n _

theorem optionalExpression_agree (instead : TokenKind) :
    AgreeUpTo n (optionalExpression expression instead)
      (optionalExpression expression' instead) := by
  refine Phrase.agree_bind (.refl n _) (Phrase.forward_ahead _) fun absent => ?_
  split
  · exact .refl n _
  · rw [← bind_pure_comp, ← bind_pure_comp]
    exact Phrase.agree_bind h hforward fun e => .refl n _

theorem returnStatement_agree (keyword : Token) :
    AgreeUpTo n (returnStatement expression keyword) (returnStatement expression' keyword) :=
  Phrase.agree_bind (optionalExpression_agree h hforward _) (forward_optionalExpression hforward _)
    fun _ => .refl n _

theorem condition_agree (before after : Place) :
    AgreeUpTo n (condition expression before after) (condition expression' before after) :=
  Phrase.agree_bind (.refl n _) (Phrase.forward_expect _ _) fun _ =>
    Phrase.agree_bind h hforward fun _ => .refl n _

theorem forStart_agree : AgreeUpTo n (forStart expression) (forStart expression') := by
  refine Phrase.agree_bind (.refl n _) (Phrase.forward_accept? _) fun first? => ?_
  cases first? with
  | none =>
    have hstatement := expressionStatement_agree h hforward
    dsimp only
    rw [← bind_pure_comp, ← bind_pure_comp]
    exact Phrase.agree_bind hstatement (forward_expressionStatement hforward) fun s => .refl n _
  | some first =>
    dsimp only
    split
    · exact .refl n _
    · rw [← bind_pure_comp, ← bind_pure_comp]
      exact Phrase.agree_bind (variableDeclaration_agree h hforward)
        (forward_variableDeclaration hforward) fun s => .refl n _

end

/-! ### Statements -/

/-- The rule **advances**: it answers with fewer tokens than it was given, if it was given any. -/
def Advances (r : Rule α) : Prop :=
  ∀ ⦃ts faults a rest⦄, Answers r ts faults a rest → ts ≠ [] → rest.length < ts.length

/-- A rule that consumes where it reads advances once it recovers: recovery skips a token. -/
theorem advances_recover {r : Rule α} (hforward : Forward r)
    (h : ∀ ⦃ts faults a rest⦄, Answers r ts faults a rest → rest.length < ts.length) :
    Advances (recover r) := by
  intro ts faults o rest hanswers hne
  rcases answers_recover_iff.mp hanswers with ⟨a, rfl, hread⟩ | ⟨φ, e, hread, rfl, rfl, rfl⟩
  · exact h hread
  · have hstays := (hforward ts).1
    rw [hread] at hstays
    by_cases hrest : e.rest = []
    · rw [hrest]
      exact List.length_pos_iff.mpr hne
    · exact Nat.lt_of_lt_of_le (length_synchronize_lt hrest) hstays.1.length_le

/-- A **declaration** always advances, also where it is dropped. -/
theorem declaration_advances (n : Nat) : Advances (declaration n) := by
  cases n with
  | zero =>
    refine advances_recover (forward_liftM (Phrase.forward_reject _)) fun ts faults a rest h => ?_
    cases h
  | succ n =>
    have hforward := forward_declarationBody (Phrase.forward_expression (n + 1))
      (forward_statement n) (forward_declaration n) n
    refine advances_recover hforward fun ts faults s rest h => ?_
    obtain ⟨kept, hkeeps, hs⟩ := declarationBody_sound (Phrase.expression_sound (n + 1))
      (statement_sound n) (declaration_sound n) n h
    obtain ⟨t, us, rfl, -⟩ := hs.exists_cons
    exact hkeeps.length_lt (List.cons_ne_nil t us)

section

variable {declaration declaration' : Rule (Option Stmt)}
  (hd : AgreeUpTo n declaration declaration') (hforward : Forward declaration)
  (hadvances : Advances declaration)

include hd hadvances in
/-- Every declaration takes a token, so there are no more rounds than tokens. -/
theorem declarations_agree (stop : List Token → Bool) (hnil : stop []) {k m : Nat} (hk : n ≤ k)
    (hm : n ≤ m) :
    AgreeUpTo n (declarations declaration stop k) (declarations declaration' stop m) := by
  have hempty : ∀ (d : Rule (Option Stmt)) j, declarations d stop j [] = ⟨[], .ok ([], [])⟩ := by
    intro d j
    cases j with
    | zero => rfl
    | succ j => exact declarations_of_stop d hnil j
  induction n generalizing k m with
  | zero =>
    intro ts hts
    rw [List.length_eq_zero_iff.mp (Nat.le_zero.mp hts), hempty, hempty]
  | succ n ih =>
    obtain ⟨k, rfl⟩ : ∃ k', k = k' + 1 := ⟨k - 1, by omega⟩
    obtain ⟨m, rfl⟩ : ∃ m', m = m' + 1 := ⟨m - 1, by omega⟩
    intro ts hts
    by_cases hstop : stop ts
    · rw [declarations_of_stop _ hstop, declarations_of_stop _ hstop]
    · rw [declarations_of_not_stop _ hstop, declarations_of_not_stop _ hstop]
      have hne : ts ≠ [] := by
        rintro rfl
        exact hstop hnil
      refine bind_congr_at (hd hts) fun φ first rest hread => ?_
      have hrest : rest.length ≤ n :=
        Nat.le_of_lt_succ (Nat.lt_of_lt_of_le (hadvances hread hne) hts)
      have hothers := ih (hd.mono (Nat.le_succ n)) (Nat.le_of_succ_le_succ hk)
        (Nat.le_of_succ_le_succ hm)
      exact bind_congr_at (hothers hrest) fun _ _ _ _ => rfl

include hd hforward hadvances in
theorem block_agree {k m : Nat} (hk : n ≤ k) (hm : n ≤ m) :
    AgreeUpTo n (block declaration k) (block declaration' m) :=
  agree_bind (declarations_agree hd hadvances blockEnds rfl hk hm)
    (forward_declarations hforward _ k) fun _ => .refl n _

include hd hforward hadvances in
theorem functionDeclaration_agree {k m : Nat} (hk : n ≤ k) (hm : n ≤ m) :
    AgreeUpTo n (functionDeclaration declaration k) (functionDeclaration declaration' m) := by
  refine agree_liftM_bind (.refl n _) (Phrase.forward_expect _ _) fun target => ?_
  refine agree_liftM_bind (.refl n _) (Phrase.forward_expect _ _) fun _ => ?_
  refine agree_liftM_bind (.refl n _) (Phrase.forward_listed (Phrase.forward_expect _ _) _) ?_
  refine fun parameters => agree_liftM_bind (.refl n _) (Phrase.forward_expect _ _) fun _ => ?_
  refine agree_liftM_bind (.refl n _) (Phrase.forward_expect _ _) fun _ => ?_
  exact agree_bind (block_agree hd hforward hadvances hk hm) (forward_block hforward k)
    fun _ => .refl n _

variable {expression expression' : Phrase Expr} {statement statement' : Rule Stmt}
  (he : AgreeUpTo (n + 1) expression expression') (heforward : expression.Forward)
  (hs : AgreeUpTo n statement statement') (hsforward : Forward statement)

include he heforward hs hsforward in
theorem ifStatement_agree :
    AgreeUpTo n (ifStatement expression statement) (ifStatement expression' statement') := by
  have hcondition := condition_agree (he.mono (Nat.le_succ n)) heforward .afterIf .afterIfCondition
  refine agree_liftM_bind hcondition (forward_condition heforward _ _) fun value => ?_
  refine agree_bind hs hsforward fun yes => ?_
  refine agree_liftM_bind (.refl n _) (Phrase.forward_accept? _) fun otherwise? => ?_
  cases otherwise? with
  | none => exact .refl n _
  | some otherwise => exact agree_bind hs hsforward fun no => .refl n _

include he heforward hs hsforward in
theorem whileStatement_agree :
    AgreeUpTo n (whileStatement expression statement) (whileStatement expression' statement') := by
  have hcondition := condition_agree (he.mono (Nat.le_succ n)) heforward .afterWhile .afterCondition
  refine agree_liftM_bind hcondition (forward_condition heforward _ _) fun value => ?_
  exact agree_bind hs hsforward fun body => .refl n _

include he heforward hs hsforward in
theorem forStatement_agree :
    AgreeUpTo n (forStatement expression statement) (forStatement expression' statement') := by
  have hinner := he.mono (Nat.le_succ n)
  have hoptional := optionalExpression_agree hinner heforward
  refine agree_liftM_bind (.refl n _) (Phrase.forward_expect _ _) fun _ => ?_
  refine agree_liftM_bind (forStart_agree hinner heforward) (forward_forStart heforward) ?_
  refine fun start => agree_liftM_bind (hoptional _) (forward_optionalExpression heforward _) ?_
  refine fun value => agree_liftM_bind (.refl n _) (Phrase.forward_expect _ _) fun _ => ?_
  refine agree_liftM_bind (hoptional _) (forward_optionalExpression heforward _) fun step => ?_
  refine agree_liftM_bind (.refl n _) (Phrase.forward_expect _ _) fun _ => ?_
  exact agree_bind hs hsforward fun body => .refl n _

include hd hforward hadvances he heforward hs hsforward

theorem statementBody_agree {k m : Nat} (hk : n ≤ k) (hm : n ≤ m) :
    AgreeUpTo (n + 1) (statementBody expression statement declaration k)
      (statementBody expression' statement' declaration' m) := by
  have hinner := he.mono (Nat.le_succ n)
  have hexpression := agree_liftM (expressionStatement_agree he heforward)
  intro ts hts
  cases ts with
  | nil => exact hexpression hts
  | cons t ts =>
    have hbehind := Nat.le_of_succ_le_succ hts
    rw [statementBody, statementBody]
    split
    · exact forStatement_agree he heforward hs hsforward hbehind
    · exact ifStatement_agree he heforward hs hsforward hbehind
    · exact agree_liftM (printStatement_agree hinner heforward) hbehind
    · exact agree_liftM (returnStatement_agree hinner heforward t) hbehind
    · exact whileStatement_agree he heforward hs hsforward hbehind
    · have hbody := block_agree hd hforward hadvances hk hm hbehind
      exact bind_congr_at hbody fun _ _ _ _ => rfl
    · exact hexpression hts

theorem declarationBody_agree {k m : Nat} (hk : n ≤ k) (hm : n ≤ m) :
    AgreeUpTo (n + 1) (declarationBody expression statement declaration k)
      (declarationBody expression' statement' declaration' m) := by
  have hstatement := statementBody_agree hd hforward hadvances he heforward hs hsforward hk hm
  intro ts hts
  cases ts with
  | nil => exact hstatement hts
  | cons t ts =>
    have hbehind := Nat.le_of_succ_le_succ hts
    rw [declarationBody, declarationBody]
    split
    · exact functionDeclaration_agree hd hforward hadvances hk hm hbehind
    · have hinner := he.mono (Nat.le_succ n)
      exact agree_liftM (variableDeclaration_agree hinner heforward) hbehind
    · exact hstatement hts

end

private theorem rules_agree {n m : Nat} (hle : n ≤ m) :
    AgreeUpTo n (statement n) (statement m) ∧ AgreeUpTo n (declaration n) (declaration m) := by
  induction n generalizing m with
  | zero =>
    have hempty : ∀ ts : List Token, ts.length ≤ 0 → ts = [] :=
      fun ts hts => List.length_eq_zero_iff.mp (Nat.le_zero.mp hts)
    refine ⟨fun ts hts => ?_, fun ts hts => ?_⟩
    all_goals
      rw [hempty ts hts]
      cases m <;> rfl
  | succ n ih =>
    obtain ⟨m, rfl⟩ : ∃ m', m = m' + 1 := ⟨m - 1, by omega⟩
    have hinner := Nat.le_of_succ_le_succ hle
    obtain ⟨hs, hd⟩ := ih hinner
    have he := Phrase.expression_agree (Nat.succ_le_succ hinner)
    have heforward := Phrase.forward_expression (n + 1)
    refine ⟨?_, agree_recover ?_⟩
    · exact statementBody_agree hd (forward_declaration n) (declaration_advances n) he heforward hs
        (forward_statement n) (Nat.le_refl n) hinner
    · exact declarationBody_agree hd (forward_declaration n) (declaration_advances n) he heforward
        hs (forward_statement n) (Nat.le_refl n) hinner

/-- Whatever the larger bound is, **statements** are answered alike. -/
theorem statement_agree {n m : Nat} (hle : n ≤ m) : AgreeUpTo n (statement n) (statement m) :=
  (rules_agree hle).1

/-- Whatever the larger bound is, **declarations** are answered alike. -/
theorem declaration_agree {n m : Nat} (hle : n ≤ m) :
    AgreeUpTo n (declaration n) (declaration m) := (rules_agree hle).2

/-- With enough of a bound, the rule for statements is what its grammar says, over itself. -/
theorem statement_eq {n : Nat} {ts : List Token} (h : ts.length ≤ n) :
    statement n ts = statementBody (Phrase.expression n) (statement n) (declaration n) n ts := by
  cases n with
  | zero =>
    rw [List.length_eq_zero_iff.mp (Nat.le_zero.mp h)]
    rfl
  | succ n =>
    exact statementBody_agree (declaration_agree (Nat.le_succ n)) (forward_declaration n)
      (declaration_advances n) (.refl _ _) (Phrase.forward_expression _)
      (statement_agree (Nat.le_succ n)) (forward_statement n) (Nat.le_refl n) (Nat.le_succ n) h

/-- With enough of a bound, the rule for declarations is what its grammar says, over itself. -/
theorem declaration_eq {n : Nat} {ts : List Token} (h : ts.length ≤ n) :
    declaration n ts =
      recover (declarationBody (Phrase.expression n) (statement n) (declaration n) n) ts := by
  cases n with
  | zero =>
    rw [List.length_eq_zero_iff.mp (Nat.le_zero.mp h)]
    rfl
  | succ n =>
    exact agree_recover (declarationBody_agree (declaration_agree (Nat.le_succ n))
      (forward_declaration n) (declaration_advances n) (.refl _ _) (Phrase.forward_expression _)
      (statement_agree (Nat.le_succ n)) (forward_statement n) (Nat.le_refl n) (Nat.le_succ n)) h

end Rule

end LoxLang
