import LoxLang.Proofs.Syntax.Soundness

/-!
# What derives is read

Where tokens derive an expression or a statement, the parser reads exactly that, and leaves what
stands behind it. Two things are asked for: that the tokens behind do not read on, as an operator
behind an operand does, and that the bound on the tokens that are left is large enough. The main
statements are `Phrase.expression_complete` and `Rule.declaration_complete`.
-/

namespace LoxLang

open Grammar

/-- The tokens that **read on** behind an expression of a level: what stands behind it and is one of
them would belong to the expression. -/
def Grammar.Level.extensions : Level → List TokenKind
  | primary => []
  | call | unary => [.leftParen]
  | factor => factor.operators ++ [.leftParen]
  | term => term.operators ++ factor.operators ++ [.leftParen]
  | comparison => comparison.operators ++ term.operators ++ factor.operators ++ [.leftParen]
  | equality =>
    equality.operators ++ comparison.operators ++ term.operators ++ factor.operators ++
      [.leftParen]
  | conjunction =>
    conjunction.operators ++ equality.operators ++ comparison.operators ++ term.operators ++
      factor.operators ++ [.leftParen]
  | disjunction =>
    disjunction.operators ++ conjunction.operators ++ equality.operators ++
      comparison.operators ++ term.operators ++ factor.operators ++ [.leftParen]
  | assignment =>
    .equal :: (disjunction.operators ++ conjunction.operators ++ equality.operators ++
      comparison.operators ++ term.operators ++ factor.operators ++ [.leftParen])

namespace Grammar.Level

variable {level level' : Level}

/-- What reads on behind the operands of a level reads on behind the level. -/
theorem extensions_subset (h : level.tighter? = some level') :
    level'.extensions ⊆ level.extensions := by
  cases level <;> cases h <;> decide

/-- The operators of a level do not belong to the operand in front of them. -/
theorem not_mem_extensions_of_mem_operators (h : level.tighter? = some level') {kind : TokenKind}
    (hkind : kind ∈ level.operators) : kind ∉ level'.extensions := by
  have hdisjoint : ∀ kind ∈ level.operators, kind ∉ level'.extensions := by
    cases level <;> cases h <;> decide
  exact hdisjoint kind hkind

theorem operators_subset_extensions (level : Level) : level.operators ⊆ level.extensions := by
  cases level <;> decide

end Grammar.Level

namespace Phrase

variable {α : Type}

/-- The phrase is **complete** for a rule of the grammar, on at most `n` tokens: what derives by the
rule is read, unless one of the `extensions` stands behind it. -/
def Complete (rule : List Token → α → Prop) (extensions : List TokenKind) (n : Nat) (p : Phrase α) :
    Prop :=
  ∀ ⦃used a rest⦄, rule used a → (∀ t ∈ rest.head?, t.kind ∉ extensions) →
    (used ++ rest).length ≤ n → p (used ++ rest) = .ok (a, rest)

/-- Nothing is accepted where the next token is of another kind. -/
theorem accept?_of_forall_not {p : TokenKind → Bool} {ts : List Token}
    (h : ∀ t ∈ ts.head?, ¬ p t.kind) : accept? p ts = .ok (none, ts) :=
  accept?_eq_none_iff.mpr ⟨rfl, h⟩

/-- A token of an accepted kind is read. -/
theorem accept?_cons {p : TokenKind → Bool} {t : Token} (h : p t.kind) (ts : List Token) :
    accept? p (t :: ts) = .ok (some t, ts) := accept?_eq_some_iff.mpr ⟨rfl, h⟩

/-- Where the next token is of another kind, it is to blame. -/
theorem expect_of_forall_not {kind : TokenKind} {e : SyntaxError} {ts : List Token}
    (h : ∀ t ∈ ts.head?, t.kind ≠ kind) : expect kind e ts = .error ⟨⟨ts.head?, e⟩, ts⟩ := by
  have hnone : accept? (· = kind) ts = .ok (none, ts) :=
    accept?_of_forall_not fun t ht hkind => h t ht (of_decide_eq_true hkind)
  exact bind_of_ok hnone

/-! ### Lists -/

section

variable {rule : List Token → α → Prop} {extensions : List TokenKind} {n : Nat} {item : Phrase α}
  (hitem : item.Complete rule extensions n) (hcomma : .comma ∉ extensions)

include hitem hcomma

/-- One to `limit` items are read, if each of them is. -/
theorem commaList_complete (list : Listed) {limit : Nat} {items : List (List Token × α)}
    {us rest : List Token} (hne : items ≠ []) (hitems : ∀ item ∈ items, rule item.1 item.2)
    (hseparated : Separated (items.map Prod.fst) us) (hlimit : items.length ≤ limit)
    (hrest : ∀ t ∈ rest.head?, t.kind ∉ .comma :: extensions) (hlength : (us ++ rest).length ≤ n) :
    commaList list item limit (us ++ rest) = .ok (items.map Prod.snd, rest) := by
  induction items generalizing us limit with
  | nil => exact absurd rfl hne
  | cons first items ih =>
    obtain ⟨ts, a⟩ := first
    obtain ⟨hfirst, hitems⟩ := List.forall_mem_cons.mp hitems
    obtain ⟨limit, rfl⟩ : ∃ k, limit = k + 1 := ⟨limit - 1, by simp at hlimit; omega⟩
    cases items with
    | nil =>
      cases hseparated with
      | one =>
        have hreads : item (ts ++ rest) = .ok (a, rest) :=
          hitem hfirst (fun t ht hkind => hrest t ht (List.mem_cons_of_mem _ hkind)) hlength
        have hend : ∀ t ∈ rest.head?, ¬ decide (t.kind = .comma) = true := fun t ht hkind =>
          hrest t ht (List.mem_cons.mpr (.inl (of_decide_eq_true hkind)))
        rw [commaList, bind_of_ok hreads, bind_of_ok (accept?_of_forall_not hend)]
        rfl
    | cons second items =>
      cases hseparated with
      | @cons _ _ vs _ comma hkind hseparated =>
        have happend : ts ++ comma :: vs ++ rest = ts ++ comma :: (vs ++ rest) := by simp
        rw [happend] at hlength ⊢
        have hreads : item (ts ++ comma :: (vs ++ rest)) = .ok (a, comma :: (vs ++ rest)) := by
          refine hitem hfirst (fun t ht => ?_) hlength
          cases ht
          rw [hkind]
          exact hcomma
        have hothers := ih (List.cons_ne_nil _ _) hitems hseparated (Nat.le_of_succ_le_succ hlimit)
          (by simp only [List.length_append, List.length_cons] at hlength ⊢; omega)
        rw [commaList, bind_of_ok hreads, bind_of_ok (accept?_cons (decide_eq_true hkind) _)]
        exact bind_of_ok hothers

/-- A list of at most `maxArguments` items is read up to the parenthesis behind it. -/
theorem listed_complete (list : Listed) {us rest : List Token} {as : List α} {closing : Token}
    (hopens : ∀ ts a, rule ts a → ∃ t us, ts = t :: us ∧ t.kind ≠ .rightParen)
    (hextension : .rightParen ∉ extensions) (hitems : Items rule us as)
    (hlimit : as.length ≤ maxArguments) (hclosing : closing.kind = .rightParen)
    (hlength : (us ++ closing :: rest).length ≤ n) :
    listed list item (us ++ closing :: rest) = .ok (as, closing :: rest) := by
  obtain ⟨items, hitems, hseparated, rfl⟩ := hitems
  rw [List.length_map] at hlimit
  cases items with
  | nil =>
    cases hseparated
    have hahead : ahead (· = .rightParen) ([] ++ closing :: rest) =
        .ok (true, [] ++ closing :: rest) := by
      simp [ahead, hclosing]
    rw [listed, bind_of_ok hahead]
    rfl
  | cons first items =>
    obtain ⟨ts, a⟩ := first
    obtain ⟨t, us', hts, ht⟩ := hopens ts a (hitems (ts, a) (List.mem_cons_self ..))
    obtain ⟨vs, hus⟩ := hseparated.exists_append
    obtain rfl : us = t :: (us' ++ vs) := by rw [hus, hts, List.cons_append]
    have hahead : ahead (· = .rightParen) (t :: (us' ++ vs) ++ closing :: rest) =
        .ok (false, t :: (us' ++ vs) ++ closing :: rest) := by
      simp [ahead, ht]
    rw [listed, bind_of_ok hahead]
    refine commaList_complete hitem hcomma list (List.cons_ne_nil _ _) hitems hseparated hlimit
      (fun t ht => ?_) hlength
    cases ht
    rw [hclosing]
    exact List.not_mem_cons_of_ne_of_not_mem (by decide) hextension

end

/-! ### Levels of binary operators -/

section

variable {level level' : Level} (hlevel : level.tighter? = some level')
  {operators : TokenKind → Bool} (hoperators : ∀ {kind}, operators kind ↔ kind ∈ level.operators)
  {operand : Phrase Expr} {n : Nat}
  (hoperand : operand.Complete (Expression level') level'.extensions (n + 1))

include hlevel hoperators hoperand

/-- Behind an expression of the level, the phrase for the level looks for more operators. -/
theorem leftAssociative_eq_chain (hne : level.operators ≠ []) {used rest : List Token} {e : Expr}
    (he : Expression level used e) (hrest : ∀ t ∈ rest.head?, t.kind ∉ level'.extensions)
    (hlength : (used ++ rest).length ≤ n + 1) :
    ∃ k, rest.length ≤ k ∧ leftAssociative n operators level.combine operand (used ++ rest) =
      chain operators level.combine operand k e rest := by
  induction he generalizing rest with
  | tighter htighter he =>
    cases hlevel.symm.trans htighter
    obtain ⟨t, us, rfl, -⟩ := he.exists_cons
    refine ⟨n, ?_, bind_of_ok (hoperand he hrest hlength)⟩
    simp only [List.cons_append, List.length_cons, List.length_append] at hlength
    omega
  | @operation level _ ts us left right op htighter hleft hop hright ih =>
    cases hlevel.symm.trans htighter
    have hbehind : ∀ t ∈ (op :: (us ++ rest)).head?, t.kind ∉ level'.extensions := by
      intro t ht
      cases ht
      exact Level.not_mem_extensions_of_mem_operators hlevel hop
    have happend : ts ++ op :: us ++ rest = ts ++ op :: (us ++ rest) := by simp
    rw [happend] at hlength ⊢
    obtain ⟨k, hk, heq⟩ := ih hlevel hoperators hne hbehind hlength
    simp only [List.length_append, List.length_cons] at hlength hk
    -- The left operand leaves steps for the tokens behind it, and the operator takes one.
    obtain ⟨k, rfl⟩ : ∃ k', k = k' + 1 := ⟨k - 1, by omega⟩
    refine ⟨k, by omega, ?_⟩
    have hreads : operand (us ++ rest) = .ok (right, rest) := by
      refine hoperand hright hrest ?_
      rw [List.length_append]
      omega
    rw [heq, chain, bind_of_ok (accept?_cons (hoperators.mpr hop) _)]
    exact bind_of_ok hreads
  -- All other rules are for levels without operators.
  | _ => exact absurd rfl hne

/-- A level of binary operators is complete if the next level is. -/
theorem leftAssociative_complete (hne : level.operators ≠ []) :
    (leftAssociative n operators level.combine operand).Complete (Expression level)
      level.extensions (n + 1) := by
  intro used e rest he hrest hlength
  have hoperand_rest : ∀ t ∈ rest.head?, t.kind ∉ level'.extensions :=
    fun t ht hkind => hrest t ht (Level.extensions_subset hlevel hkind)
  have hoperator : ∀ t ∈ rest.head?, ¬ operators t.kind := fun t ht hkind =>
    hrest t ht (Level.operators_subset_extensions level (hoperators.mp hkind))
  obtain ⟨k, hk, heq⟩ :=
    leftAssociative_eq_chain hlevel hoperators hoperand hne he hoperand_rest hlength
  rw [heq]
  cases k with
  | zero => rfl
  | succ k => exact bind_of_ok (accept?_of_forall_not hoperator)

end

/-! ### The other levels -/

/-- An expression begins with no closing parenthesis. -/
private theorem opens_of_expression (ts : List Token) (e : Expr)
    (he : Expression .assignment ts e) : ∃ t us, ts = t :: us ∧ t.kind ≠ .rightParen := by
  obtain ⟨t, us, rfl, ht⟩ := he.exists_cons
  refine ⟨t, us, rfl, fun hkind => ?_⟩
  rw [hkind] at ht
  exact absurd ht (by decide)

section

variable {expression : Phrase Expr} {n : Nat}
  (h : expression.Complete (Expression .assignment) Level.assignment.extensions n)

include h

theorem primary_complete :
    (primary expression).Complete (Expression .primary) Level.primary.extensions (n + 1) := by
  intro used e rest he _ hlength
  cases he with
  | tighter htighter => cases htighter
  | operation htighter => cases htighter
  | true_ hkind => simp [primary, hkind]
  | false_ hkind => simp [primary, hkind]
  | nil_ hkind => simp [primary, hkind]
  | number hkind => simp [primary, hkind]
  | string hkind => simp [primary, hkind]
  | name hkind => simp [primary, hkind]
  | @grouping opening closing ts inner hopening hinner hclosing =>
    have happend : opening :: ts ++ [closing] ++ rest = opening :: (ts ++ closing :: rest) := by
      simp
    rw [happend] at hlength ⊢
    have hreads : expression (ts ++ closing :: rest) = .ok (inner, closing :: rest) := by
      refine h hinner ?_ (Nat.le_of_succ_le_succ hlength)
      intro t ht
      cases ht
      rw [hclosing]
      decide
    simp only [primary, hopening]
    rw [bind_of_ok hreads]
    exact bind_of_ok (expect_eq_ok_iff.mpr ⟨rfl, hclosing⟩)

/-- Behind a callee, the phrase for calls looks for more argument lists. -/
theorem call_eq_callChain {used rest : List Token} {e : Expr} (he : Expression .call used e)
    (hlength : (used ++ rest).length ≤ n + 1) :
    ∃ k, rest.length ≤ k ∧ call n expression (used ++ rest) = callChain expression k e rest := by
  -- The induction is on the derivation, which fixes the level.
  generalize hlevel : Level.call = level at he
  induction he generalizing rest with
  | tighter htighter he =>
    cases hlevel
    cases htighter
    obtain ⟨t, us, rfl, -⟩ := he.exists_cons
    refine ⟨n, ?_, bind_of_ok (primary_complete h he (fun _ _ => List.not_mem_nil) hlength)⟩
    simp only [List.cons_append, List.length_cons, List.length_append] at hlength
    omega
  | operation _ _ hop =>
    cases hlevel
    cases hop
  | @call ts us callee opening paren arguments hcallee hopening harguments hseparated hlimit hparen
      ih =>
    have happend : ts ++ opening :: us ++ [paren] ++ rest =
        ts ++ opening :: (us ++ paren :: rest) := by simp
    rw [happend] at hlength ⊢
    obtain ⟨k, hk, heq⟩ := ih hlength hlevel
    simp only [List.length_append, List.length_cons] at hlength hk
    obtain ⟨k, rfl⟩ : ∃ k', k = k' + 1 := ⟨k - 1, by omega⟩
    refine ⟨k, by omega, ?_⟩
    have hlist : listed .arguments expression (us ++ paren :: rest) =
        .ok (arguments.map Prod.snd, paren :: rest) := by
      refine listed_complete h (by decide) .arguments opens_of_expression (by decide)
        ⟨arguments, harguments, hseparated, rfl⟩ (by rwa [List.length_map]) hparen ?_
      simp only [List.length_append, List.length_cons]
      omega
    rw [heq, callChain, bind_of_ok (accept?_cons (decide_eq_true hopening) _)]
    refine (bind_of_ok hlist).trans ?_
    exact bind_of_ok (expect_eq_ok_iff.mpr ⟨rfl, hparen⟩)
  | _ => cases hlevel

theorem call_complete :
    (call n expression).Complete (Expression .call) Level.call.extensions (n + 1) := by
  intro used e rest he hrest hlength
  have hopening : ∀ t ∈ rest.head?, ¬ decide (t.kind = .leftParen) = true := fun t ht hkind =>
    hrest t ht (List.mem_singleton.mpr (of_decide_eq_true hkind))
  obtain ⟨k, hk, heq⟩ := call_eq_callChain h he hlength
  rw [heq]
  cases k with
  | zero => rfl
  | succ k => exact bind_of_ok (accept?_of_forall_not hopening)

theorem unary_complete :
    (unary n expression).Complete (Expression .unary) Level.unary.extensions (n + 1) := by
  intro used e rest he hrest hlength
  generalize hlevel : Level.unary = level at he
  induction he with
  | tighter htighter he =>
    cases hlevel
    cases htighter
    have hcall := call_complete h he hrest hlength
    obtain ⟨t, us, rfl, hbang, hminus⟩ := he.exists_cons_of_call
    rw [List.cons_append] at hcall ⊢
    rw [unary, if_neg (by simp [hbang, hminus])]
    exact hcall
  | operation _ _ hop =>
    cases hlevel
    cases hop
  | @prefixed op ts operand hop _ ih =>
    have hoperand := ih (Nat.le_of_succ_le hlength) hlevel
    rw [List.cons_append, unary, if_pos (by simpa using hop), hoperand]
    rfl
  | _ => cases hlevel

theorem disjunction_complete :
    (disjunction n expression).Complete (Expression .disjunction) Level.disjunction.extensions
      (n + 1) := by
  refine leftAssociative_complete rfl (by simp [Level.operators]) ?_ (by decide)
  refine leftAssociative_complete rfl (by simp [Level.operators]) ?_ (by decide)
  refine leftAssociative_complete rfl (by simp [Level.operators]) ?_ (by decide)
  refine leftAssociative_complete rfl (by simp [Level.operators, or_assoc]) ?_ (by decide)
  refine leftAssociative_complete rfl (by simp [Level.operators]) ?_ (by decide)
  refine leftAssociative_complete rfl (by simp [Level.operators]) ?_ (by decide)
  exact unary_complete h

theorem assignment_complete :
    (assignment n expression).Complete (Expression .assignment) Level.assignment.extensions
      (n + 1) := by
  intro used e rest he hrest hlength
  cases he with
  | tighter htighter he =>
    cases htighter
    have hreads := disjunction_complete h he
      (fun t ht hkind => hrest t ht (Level.extensions_subset rfl hkind)) hlength
    have hequal : ∀ t ∈ rest.head?, ¬ decide (t.kind = .equal) = true := fun t ht hkind =>
      hrest t ht (List.mem_cons.mpr (.inl (of_decide_eq_true hkind)))
    rw [assignment, bind_of_ok hreads, bind_of_ok (accept?_of_forall_not hequal)]
    rfl
  | operation _ _ hop => cases hop
  | @assign target equals ts value htarget hequals hvalue =>
    -- The equals sign does not read on behind the target.
    have hreads : disjunction n expression ([target] ++ equals :: (ts ++ rest)) =
        .ok (.name target, equals :: (ts ++ rest)) := by
      refine disjunction_complete h (.disjunction_name htarget) (fun t ht => ?_) hlength
      cases ht
      rw [hequals]
      decide
    have hvalue : expression (ts ++ rest) = .ok (value, rest) := by
      refine h hvalue hrest ?_
      simp only [List.cons_append, List.length_cons] at hlength
      omega
    rw [assignment]
    refine (bind_of_ok hreads).trans ?_
    rw [bind_of_ok (accept?_cons (decide_eq_true hequals) _)]
    exact bind_of_ok hvalue

end

/-- What derives as an **expression** is read. -/
theorem expression_complete (n : Nat) :
    (expression n).Complete (Expression .assignment) Level.assignment.extensions n := by
  induction n with
  | zero =>
    intro used e rest he _ hlength
    obtain ⟨t, us, rfl, -⟩ := he.exists_cons
    exact absurd hlength (Nat.not_succ_le_zero _)
  | succ n ih => exact assignment_complete ih

end Phrase

/-! ### Parts of statements -/

section

variable {α β γ : Type}

/-- The reply **preceded** by faults, and with a function applied to its value. -/
def Reply.preceded (reply : Reply α) (faults : List SyntaxFault) (g : α → β) : Reply β where
  faults := faults ++ reply.faults
  result := reply.result.map fun (a, rest) => (g a, rest)

theorem Reply.preceded_nil {reply : Reply α} {g : α → α} (h : ∀ a, g a = a) :
    reply.preceded [] g = reply := by
  obtain rfl : g = id := funext h
  rcases reply with ⟨faults, e | ⟨a, rest⟩⟩ <;> rfl

theorem Reply.preceded_preceded (reply : Reply α) (faults faults' : List SyntaxFault) (g : α → β)
    (g' : β → γ) :
    (reply.preceded faults g).preceded faults' g' =
      reply.preceded (faults' ++ faults) fun a => g' (g a) := by
  rcases reply with ⟨φ, e | ⟨a, rest⟩⟩ <;> simp [preceded, Except.map]

end

namespace Rule

section

variable {expression : Phrase Expr} {n : Nat}
  (h : expression.Complete (Expression .assignment) Level.assignment.extensions n)

include h

/-- An expression is read up to a semicolon or a closing parenthesis. -/
theorem expression_reads {ts rest : List Token} {e : Expr} {closing : Token}
    (he : Expression .assignment ts e)
    (hclosing : closing.kind = .semicolon ∨ closing.kind = .rightParen)
    (hlength : (ts ++ closing :: rest).length ≤ n) :
    expression (ts ++ closing :: rest) = .ok (e, closing :: rest) := by
  refine h he (fun t ht => ?_) hlength
  cases ht
  rcases hclosing with hkind | hkind <;> rw [hkind] <;> decide

theorem expressionStatement_complete {ts rest : List Token} {s : Stmt}
    (hs : ExpressionStatement ts s) (hlength : (ts ++ rest).length ≤ n) :
    expressionStatement expression (ts ++ rest) = .ok (s, rest) := by
  cases hs with
  | @mk semicolon ts e he hsemicolon =>
    rw [List.append_assoc, List.singleton_append] at hlength ⊢
    have hreads := expression_reads h he (.inl hsemicolon) hlength
    refine (Phrase.bind_of_ok hreads).trans ?_
    exact Phrase.bind_of_ok (Phrase.expect_eq_ok_iff.mpr ⟨rfl, hsemicolon⟩)

theorem variableDeclaration_complete {var : Token} {ts rest : List Token} {s : Stmt}
    (hs : VariableDeclaration (var :: ts) s) (hlength : (ts ++ rest).length ≤ n) :
    variableDeclaration expression (ts ++ rest) = .ok (s, rest) := by
  cases hs with
  | @mk _ target semicolon us value _ htarget hvalue hsemicolon =>
    have happend : target :: us ++ [semicolon] ++ rest = target :: (us ++ semicolon :: rest) := by
      simp
    change (target :: us ++ [semicolon] ++ rest).length ≤ n at hlength
    change variableDeclaration expression (target :: us ++ [semicolon] ++ rest) = _
    rw [happend] at hlength ⊢
    have hend : Phrase.symbol .afterDeclaration (semicolon :: rest) = .ok (semicolon, rest) :=
      Phrase.expect_eq_ok_iff.mpr ⟨rfl, hsemicolon⟩
    refine Phrase.expect_bind_eq_ok_iff.mpr ⟨target, _, rfl, htarget, ?_⟩
    cases hvalue with
    | none =>
      have hequal : ∀ t ∈ (semicolon :: rest).head?, ¬ decide (t.kind = .equal) = true := by
        intro t ht
        cases ht
        rw [hsemicolon]
        decide
      rw [List.nil_append]
      refine (Phrase.bind_of_ok (Phrase.accept?_of_forall_not hequal)).trans ?_
      exact (Phrase.bind_of_ok (Phrase.pure_eq_ok_iff.mpr ⟨rfl, rfl⟩)).trans
        (Phrase.bind_of_ok hend)
    | @some _ e hinitializer =>
      cases hinitializer with
      | @mk equals us _ hequals he =>
        have hreads : (some <$> expression) (us ++ semicolon :: rest) =
            .ok (some e, semicolon :: rest) := by
          refine Phrase.map_eq_ok_iff.mpr ⟨e, expression_reads h he (.inl hsemicolon) ?_, rfl⟩
          simp only [List.cons_append, List.length_cons] at hlength
          omega
        refine (Phrase.bind_of_ok (Phrase.accept?_cons (decide_eq_true hequals) _)).trans ?_
        refine (Phrase.bind_of_ok hreads).trans ?_
        exact Phrase.bind_of_ok hend

theorem optionalExpression_complete {instead : TokenKind} {closing : Token} {ts rest : List Token}
    {value : Option Expr} (hvalue : Optional (Expression .assignment) ts value)
    (hinstead : instead = .semicolon ∨ instead = .rightParen) (hclosing : closing.kind = instead)
    (hlength : (ts ++ closing :: rest).length ≤ n) :
    optionalExpression expression instead (ts ++ closing :: rest) =
      .ok (value, closing :: rest) := by
  cases hvalue with
  | none =>
    have hahead : Phrase.ahead (· = instead) (closing :: rest) = .ok (true, closing :: rest) := by
      simp [Phrase.ahead, hclosing]
    exact Phrase.bind_of_ok hahead
  | @some _ e he =>
    obtain ⟨t, us, rfl, ht⟩ := he.exists_cons
    have hne : t.kind ≠ instead := by
      rintro rfl
      rcases hinstead with hkind | hkind <;> rw [hkind] at ht <;> exact absurd ht (by decide)
    have hahead : Phrase.ahead (· = instead) (t :: us ++ closing :: rest) =
        .ok (false, t :: us ++ closing :: rest) := by
      simp [Phrase.ahead, hne]
    refine (Phrase.bind_of_ok hahead).trans ?_
    rw [if_neg (by decide), Phrase.map_eq_ok_iff]
    exact ⟨e, expression_reads h he (hclosing ▸ hinstead) hlength, rfl⟩

theorem condition_complete {before after : Place} {opening closing : Token} {ts rest : List Token}
    {e : Expr} (hopening : opening.kind = before.symbol) (he : Expression .assignment ts e)
    (hafter : after.symbol = .rightParen) (hclosing : closing.kind = .rightParen)
    (hlength : (ts ++ closing :: rest).length ≤ n) :
    condition expression before after (opening :: ts ++ closing :: rest) = .ok (e, rest) := by
  refine Phrase.expect_bind_eq_ok_iff.mpr ⟨opening, _, rfl, hopening, ?_⟩
  refine (Phrase.bind_of_ok (expression_reads h he (.inr hclosing) hlength)).trans ?_
  exact Phrase.bind_of_ok (Phrase.expect_eq_ok_iff.mpr ⟨rfl, hclosing.trans hafter.symm⟩)

theorem forStart_complete {ts rest : List Token} {start : Option Stmt} (hstart : Start ts start)
    (hlength : (ts ++ rest).length ≤ n) :
    forStart expression (ts ++ rest) = .ok (start, rest) := by
  cases hstart with
  | @none semicolon hsemicolon =>
    refine (Phrase.bind_of_ok (Phrase.accept?_cons (by simp [hsemicolon]) rest)).trans ?_
    simp only [hsemicolon]
    rfl
  | @declaration _ s hs =>
    obtain ⟨var, us, rfl, hvar⟩ : ∃ var us, ts = var :: us ∧ var.kind = .keyword .var_ := by
      cases hs with
      | mk hvar => exact ⟨_, _, rfl, hvar⟩
    refine (Phrase.bind_of_ok (Phrase.accept?_cons (by simp [hvar]) (us ++ rest))).trans ?_
    simp only [hvar, reduceCtorEq, if_false]
    refine Phrase.map_eq_ok_iff.mpr ⟨s, ?_, rfl⟩
    exact variableDeclaration_complete h hs (Nat.le_of_succ_le hlength)
  | @expression _ s hs =>
    obtain ⟨t, us, rfl, ht⟩ := hs.exists_cons
    have hneither : ∀ u ∈ (t :: us ++ rest).head?,
        ¬ (decide (u.kind = .semicolon) || decide (u.kind = .keyword .var_)) = true := by
      intro u hu
      cases hu
      -- No token that begins an expression is of one of these kinds.
      revert ht
      generalize t.kind = kind
      revert kind
      decide
    refine (Phrase.bind_of_ok (Phrase.accept?_of_forall_not hneither)).trans ?_
    exact Phrase.map_eq_ok_iff.mpr ⟨s, expressionStatement_complete h hs hlength, rfl⟩

end

/-- Two rules in a row take over what stands in front of the first. -/
theorem bind_preceded {α α' β β' : Type} {r : Rule α} {r' : Rule α'} {f : α → Rule β}
    {f' : α' → Rule β'} {ts us : List Token} {faults : List SyntaxFault} {g : α → α'} {g' : β → β'}
    (hr : r' us = (r ts).preceded faults g)
    (hf : ∀ a rest, f' (g a) rest = (f a rest).preceded [] g') :
    (r' >>= f') us = ((r >>= f) ts).preceded faults g' := by
  rcases h : r ts with ⟨φ, e | ⟨a, rest⟩⟩
  · rw [h] at hr
    rw [bind_of_error h, bind_of_error hr]
    rfl
  · rw [h] at hr
    rw [bind_of_ok h, bind_of_ok hr, hf]
    simp [Reply.preceded, List.append_assoc]

/-- What is done with the value of a rule makes no faults. -/
theorem bind_pure_eq_preceded {α β : Type} (r : Rule α) (g : α → β) (ts : List Token) :
    (r >>= fun a => pure (g a)) ts = (r ts).preceded [] g := by
  rcases h : r ts with ⟨faults, e | ⟨a, rest⟩⟩
  · rw [bind_of_error h]
    rfl
  · rw [bind_of_ok h]
    exact congrArg (fun faults => Reply.mk faults (.ok (g a, rest))) (List.append_nil faults)

/-! ### Statements -/

/-- The rule reads all **statements** of at most `n` tokens, unless they are dangling and an `else`
stands behind them. -/
def CompleteStatement (n : Nat) (r : Rule Stmt) : Prop :=
  ∀ ⦃used s rest dangling⦄, Statement (.statement dangling) used s →
    (dangling = true → ∀ t ∈ rest.head?, t.kind ≠ .keyword .else_) → (used ++ rest).length ≤ n →
      Reads r (used ++ rest) s rest

/-- The rule reads all **declarations** of at most `n` tokens, unless an `else` stands behind
them. -/
def CompleteDeclaration (n : Nat) (r : Rule (Option Stmt)) : Prop :=
  ∀ ⦃used s rest⦄, Statement .declaration used s →
    (∀ t ∈ rest.head?, t.kind ≠ .keyword .else_) → (used ++ rest).length ≤ n →
      Reads r (used ++ rest) (some s) rest

/-- No `else` stands in front of declarations. -/
private theorem forall_head?_ne_else {pieces : List (List Token × Stmt)} {rest : List Token}
    (hpieces : ∀ piece ∈ pieces, Statement .declaration piece.1 piece.2)
    (hrest : ∀ t ∈ rest.head?, t.kind ≠ .keyword .else_) :
    ∀ t ∈ (pieces.flatMap Prod.fst ++ rest).head?, t.kind ≠ .keyword .else_ := by
  cases pieces with
  | nil => exact hrest
  | cons piece pieces =>
    obtain ⟨t, us, hcons, ht⟩ := (hpieces piece (List.mem_cons_self ..)).exists_cons
    intro u hu hkind
    rw [List.flatMap_cons, hcons, List.append_assoc, List.cons_append] at hu
    cases hu
    rw [hkind] at ht
    exact ht (by decide)

/-- No block ends where a statement may begin. -/
theorem not_blockEnds_cons (t : Token) (ts : List Token) (ht : t.kind ∉ closesStatement) :
    ¬ blockEnds (t :: ts) := by
  intro hends
  have hkind : t.kind = .rightBrace := by simpa [blockEnds] using hends
  rw [hkind] at ht
  exact ht (by decide)

/-- Every declaration takes a token at least. -/
private theorem length_le_of_pieces {pieces : List (List Token × Stmt)}
    (hpieces : ∀ piece ∈ pieces, Statement .declaration piece.1 piece.2) :
    pieces.length ≤ (pieces.flatMap Prod.fst).length := by
  induction pieces with
  | nil => exact Nat.le_refl _
  | cons piece pieces ih =>
    obtain ⟨hpiece, htail⟩ := List.forall_mem_cons.mp hpieces
    obtain ⟨t, us, hcons, -⟩ := hpiece.exists_cons
    have hothers := ih htail
    simp only [List.flatMap_cons, List.length_append, List.length_cons, hcons]
    omega

section

variable {n : Nat} {declaration : Rule (Option Stmt)}

/-- A declaration that is answered stands in front of the others. -/
theorem declarations_of_answers {stop : List Token → Bool} {ts rest : List Token}
    {faults : List SyntaxFault} {o : Option Stmt} (hstop : ¬ stop ts)
    (h : Answers declaration ts faults o rest) (k : Nat) :
    declarations declaration stop (k + 1) ts =
      (declarations declaration stop k rest).preceded faults (o.toList ++ ·) := by
  rw [declarations_of_not_stop _ hstop, bind_of_ok h]
  simp only [bind_pure_eq_preceded]
  rfl

/-- Behind the header of a function, its body is read. -/
theorem functionDeclaration_eq_block {target opening closing left : Token}
    {parameters us behind : List Token} (htarget : target.kind = .identifier)
    (hopening : opening.kind = .leftParen) (hparameters : ∀ t ∈ parameters, t.kind = .identifier)
    (hseparated : Separated (parameters.map ([·])) us) (hlimit : parameters.length ≤ maxArguments)
    (hclosing : closing.kind = .rightParen) (hleft : left.kind = .leftBrace) :
    functionDeclaration declaration n (target :: opening :: (us ++ closing :: left :: behind)) =
      (Stmt.function target parameters <$> block declaration n : Rule Stmt) behind := by
  have hname : (Phrase.identifier .parameter).Complete
      (fun ts t => ts = [t] ∧ t.kind = .identifier) []
      (us ++ closing :: left :: behind).length := by
    rintro ts t rest ⟨rfl, ht⟩ _ _
    exact Phrase.expect_eq_ok_iff.mpr ⟨rfl, ht⟩
  have hitems : Items (fun ts t => ts = [t] ∧ t.kind = .identifier) us parameters := by
    refine ⟨parameters.map fun t => ([t], t), ?_, ?_, ?_⟩
    · simpa using hparameters
    · rwa [List.map_map]
    · simp [Function.comp_def]
  have hopens : ∀ (ts : List Token) (t : Token), ts = [t] ∧ t.kind = .identifier →
      ∃ u us, ts = u :: us ∧ u.kind ≠ .rightParen := by
    rintro ts t ⟨rfl, ht⟩
    exact ⟨t, [], rfl, by simp [ht]⟩
  have hlist := Phrase.listed_complete hname List.not_mem_nil .parameters hopens List.not_mem_nil
    hitems hlimit hclosing (Nat.le_refl _)
  refine (liftM_bind_of_ok (Phrase.expect_eq_ok_iff.mpr ⟨rfl, htarget⟩)).trans ?_
  refine (liftM_bind_of_ok (Phrase.expect_eq_ok_iff.mpr ⟨rfl, hopening⟩)).trans ?_
  refine (liftM_bind_of_ok hlist).trans ?_
  refine (liftM_bind_of_ok (Phrase.expect_eq_ok_iff.mpr ⟨rfl, hclosing⟩)).trans ?_
  exact liftM_bind_of_ok (Phrase.expect_eq_ok_iff.mpr ⟨rfl, hleft⟩)

variable (hd : CompleteDeclaration n declaration)

include hd

/-- Declarations that derive stand in front of whatever is behind them, unless that is an `else`. -/
theorem declarations_append {stop : List Token → Bool} (hstop : ∀ t ts, t.kind ∉ closesStatement →
      ¬ stop (t :: ts)) {pieces : List (List Token × Stmt)} {rest : List Token}
    (hpieces : ∀ piece ∈ pieces, Statement .declaration piece.1 piece.2)
    (helse : ∀ t ∈ rest.head?, t.kind ≠ .keyword .else_)
    (hlength : (pieces.flatMap Prod.fst ++ rest).length ≤ n) (k : Nat) :
    declarations declaration stop (k + pieces.length) (pieces.flatMap Prod.fst ++ rest) =
      (declarations declaration stop k rest).preceded [] (pieces.map Prod.snd ++ ·) := by
  induction pieces with
  | nil => exact (Reply.preceded_nil fun _ => rfl).symm
  | cons piece pieces ih =>
    obtain ⟨used, s⟩ := piece
    obtain ⟨hpiece, htail⟩ := List.forall_mem_cons.mp hpieces
    obtain ⟨t, us, rfl, ht⟩ := hpiece.exists_cons
    have happend : ((t :: us, s) :: pieces).flatMap Prod.fst ++ rest =
        t :: us ++ (pieces.flatMap Prod.fst ++ rest) := by simp
    rw [happend] at hlength ⊢
    have hothers : (pieces.flatMap Prod.fst ++ rest).length ≤ n := by
      rw [List.length_append] at hlength
      omega
    have hfirst := hd hpiece (forall_head?_ne_else htail helse) hlength
    refine (declarations_of_answers (hstop t _ ht) hfirst (k + pieces.length)).trans ?_
    rw [ih htail hothers, Reply.preceded_preceded]
    rfl

theorem declarations_complete {stop : List Token → Bool} (hstop : ∀ t ts, t.kind ∉ closesStatement →
      ¬ stop (t :: ts)) {pieces : List (List Token × Stmt)} {rest : List Token}
    (hpieces : ∀ piece ∈ pieces, Statement .declaration piece.1 piece.2) (hend : stop rest)
    (helse : ∀ t ∈ rest.head?, t.kind ≠ .keyword .else_)
    (hlength : (pieces.flatMap Prod.fst ++ rest).length ≤ n) :
    Reads (declarations declaration stop n) (pieces.flatMap Prod.fst ++ rest)
      (pieces.map Prod.snd) rest := by
  have hcount : n - pieces.length + pieces.length = n := by
    have hpieces := length_le_of_pieces hpieces
    rw [List.length_append] at hlength
    omega
  have hrest : ∀ k, declarations declaration stop k rest = ⟨[], .ok ([], rest)⟩ := by
    intro k
    cases k with
    | zero => rfl
    | succ k => exact declarations_of_stop _ hend k
  have hread := declarations_append hd hstop hpieces helse hlength (n - pieces.length)
  rw [hcount, hrest] at hread
  rw [Reads, hread]
  simp [Reply.preceded, Except.map]

theorem block_complete {pieces : List (List Token × Stmt)} {right : Token} {rest : List Token}
    (hpieces : ∀ piece ∈ pieces, Statement .declaration piece.1 piece.2)
    (hright : right.kind = .rightBrace)
    (hlength : (pieces.flatMap Prod.fst ++ right :: rest).length ≤ n) :
    Reads (block declaration n) (pieces.flatMap Prod.fst ++ right :: rest) (pieces.map Prod.snd)
      rest := by
  have hends : blockEnds (right :: rest) = true := by simp [blockEnds, hright]
  have helse : ∀ t ∈ (right :: rest).head?, t.kind ≠ .keyword .else_ := by
    intro t ht
    cases ht
    rw [hright]
    decide
  have hbody := declarations_complete hd not_blockEnds_cons hpieces hends helse hlength
  refine reads_bind_iff.mpr ⟨_, _, hbody, ?_⟩
  exact reads_expect_bind_iff.mpr ⟨right, rest, rfl, hright, reads_pure_iff.mpr ⟨rfl, rfl⟩⟩

theorem functionDeclaration_complete {target opening closing left right : Token}
    {parameters us rest : List Token} {pieces : List (List Token × Stmt)}
    (htarget : target.kind = .identifier) (hopening : opening.kind = .leftParen)
    (hparameters : ∀ t ∈ parameters, t.kind = .identifier)
    (hseparated : Separated (parameters.map ([·])) us) (hlimit : parameters.length ≤ maxArguments)
    (hclosing : closing.kind = .rightParen) (hleft : left.kind = .leftBrace)
    (hpieces : ∀ piece ∈ pieces, Statement .declaration piece.1 piece.2)
    (hright : right.kind = .rightBrace)
    (hlength : (us ++ closing :: left :: (pieces.flatMap Prod.fst ++ right :: rest)).length ≤ n) :
    Reads (functionDeclaration declaration n)
      (target :: opening :: (us ++ closing :: left :: (pieces.flatMap Prod.fst ++ right :: rest)))
      (.function target parameters (pieces.map Prod.snd)) rest := by
  rw [Reads, functionDeclaration_eq_block htarget hopening hparameters hseparated hlimit hclosing
    hleft]
  refine reads_map_iff.mpr ⟨pieces.map Prod.snd, block_complete hd hpieces hright ?_, rfl⟩
  simp only [List.length_append, List.length_cons] at hlength ⊢
  omega

end

section

variable {expression : Phrase Expr} {statement : Rule Stmt} {declaration : Rule (Option Stmt)}
  {n : Nat} (he : expression.Complete (Expression .assignment) Level.assignment.extensions (n + 1))
  (hs : CompleteStatement n statement) (hd : CompleteDeclaration n declaration)

/-- What begins like an expression is read as an expression statement. -/
theorem statementBody_of_opensExpression {t : Token} (ht : t.kind ∈ opensExpression)
    (ts : List Token) :
    statementBody expression statement declaration n (t :: ts) =
      (liftM (expressionStatement expression) : Rule Stmt) (t :: ts) := by
  simp only [opensExpression, List.mem_cons, List.not_mem_nil, or_false] at ht
  rcases ht with h | h | h | h | h | h | h | h | h <;> simp [statementBody, h]

include he hs in
theorem whileStatement_complete {opening closing : Token} {ts us rest : List Token}
    {e : Expr} {s : Stmt} {dangling : Bool} (hopening : opening.kind = .leftParen)
    (hcondition : Expression .assignment ts e) (hclosing : closing.kind = .rightParen)
    (hbody : Statement (.statement dangling) us s)
    (helse : dangling = true → ∀ t ∈ rest.head?, t.kind ≠ .keyword .else_)
    (hlength : (opening :: ts ++ closing :: (us ++ rest)).length ≤ n) :
    Reads (whileStatement expression statement) (opening :: ts ++ closing :: (us ++ rest))
      (.loop e s) rest := by
  simp only [List.cons_append, List.length_cons, List.length_append] at hlength
  have hread : condition expression .afterWhile .afterCondition
      (opening :: ts ++ closing :: (us ++ rest)) = .ok (e, us ++ rest) := by
    refine condition_complete he hopening hcondition rfl hclosing ?_
    simp only [List.length_append, List.length_cons]
    omega
  have hbody := hs hbody helse (by rw [List.length_append]; omega)
  refine reads_bind_iff.mpr ⟨e, _, reads_liftM_iff.mpr hread, ?_⟩
  exact reads_bind_iff.mpr ⟨s, _, hbody, reads_pure_iff.mpr ⟨rfl, rfl⟩⟩

include he hs in
theorem forStatement_complete {opening semicolon closing : Token}
    {starts conditions steps us rest : List Token} {start : Option Stmt}
    {condition step : Option Expr} {s : Stmt} {dangling : Bool}
    (hopening : opening.kind = .leftParen) (hstart : Start starts start)
    (hcondition : Optional (Expression .assignment) conditions condition)
    (hsemicolon : semicolon.kind = .semicolon)
    (hstep : Optional (Expression .assignment) steps step) (hclosing : closing.kind = .rightParen)
    (hbody : Statement (.statement dangling) us s)
    (helse : dangling = true → ∀ t ∈ rest.head?, t.kind ≠ .keyword .else_)
    (hlength : (opening :: (starts ++ (conditions ++ semicolon :: (steps ++ closing ::
      (us ++ rest))))).length ≤ n) :
    Reads (forStatement expression statement)
      (opening :: (starts ++ (conditions ++ semicolon :: (steps ++ closing :: (us ++ rest)))))
      (.forLoop start condition step s) rest := by
  simp only [List.length_cons, List.length_append] at hlength
  refine reads_expect_bind_iff.mpr ⟨opening, _, rfl, hopening, ?_⟩
  refine reads_bind_iff.mpr ⟨start, _, reads_liftM_iff.mpr (forStart_complete he hstart ?_), ?_⟩
  · simp only [List.length_append, List.length_cons]
    omega
  refine reads_bind_iff.mpr ⟨condition, _, reads_liftM_iff.mpr
    (optionalExpression_complete he hcondition (.inl rfl) hsemicolon ?_), ?_⟩
  · simp only [List.length_append, List.length_cons]
    omega
  refine reads_expect_bind_iff.mpr ⟨semicolon, _, rfl, hsemicolon, ?_⟩
  refine reads_bind_iff.mpr ⟨step, _, reads_liftM_iff.mpr
    (optionalExpression_complete he hstep (.inr rfl) hclosing ?_), ?_⟩
  · simp only [List.length_append, List.length_cons]
    omega
  refine reads_expect_bind_iff.mpr ⟨closing, _, rfl, hclosing, ?_⟩
  refine reads_bind_iff.mpr ⟨s, _, hs hbody helse ?_, reads_pure_iff.mpr ⟨rfl, rfl⟩⟩
  rw [List.length_append]
  omega

include he hs in
/-- An `if` without an `else` is dangling: no `else` stands behind it. -/
theorem ifStatement_complete {opening closing : Token} {ts us rest : List Token} {e : Expr}
    {yes : Stmt} {dangling : Bool} (hopening : opening.kind = .leftParen)
    (hcondition : Expression .assignment ts e) (hclosing : closing.kind = .rightParen)
    (hyes : Statement (.statement dangling) us yes)
    (helse : ∀ t ∈ rest.head?, t.kind ≠ .keyword .else_)
    (hlength : (opening :: ts ++ closing :: (us ++ rest)).length ≤ n) :
    Reads (ifStatement expression statement) (opening :: ts ++ closing :: (us ++ rest))
      (.branch e yes none) rest := by
  simp only [List.cons_append, List.length_cons, List.length_append] at hlength
  refine reads_bind_iff.mpr ⟨e, _, reads_liftM_iff.mpr
    (condition_complete he hopening hcondition rfl hclosing ?_), ?_⟩
  · simp only [List.length_append, List.length_cons]
    omega
  refine reads_bind_iff.mpr ⟨yes, _, hs hyes (fun _ => helse) ?_, ?_⟩
  · rw [List.length_append]
    omega
  have hnone : ∀ t ∈ rest.head?, ¬ decide (t.kind = .keyword .else_) = true :=
    fun t ht hkind => helse t ht (of_decide_eq_true hkind)
  refine reads_bind_iff.mpr ⟨none, rest, reads_liftM_iff.mpr
    (Phrase.accept?_of_forall_not hnone), ?_⟩
  exact reads_pure_iff.mpr ⟨rfl, rfl⟩

include he hs in
theorem ifElseStatement_complete {opening closing otherwise : Token} {ts us vs rest : List Token}
    {e : Expr} {yes no : Stmt} {dangling : Bool} (hopening : opening.kind = .leftParen)
    (hcondition : Expression .assignment ts e) (hclosing : closing.kind = .rightParen)
    (hyes : Statement (.statement false) us yes) (hotherwise : otherwise.kind = .keyword .else_)
    (hno : Statement (.statement dangling) vs no)
    (helse : dangling = true → ∀ t ∈ rest.head?, t.kind ≠ .keyword .else_)
    (hlength : (opening :: ts ++ closing :: (us ++ otherwise :: (vs ++ rest))).length ≤ n) :
    Reads (ifStatement expression statement)
      (opening :: ts ++ closing :: (us ++ otherwise :: (vs ++ rest)))
      (.branch e yes (some no)) rest := by
  simp only [List.cons_append, List.length_cons, List.length_append] at hlength
  refine reads_bind_iff.mpr ⟨e, _, reads_liftM_iff.mpr
    (condition_complete he hopening hcondition rfl hclosing ?_), ?_⟩
  · simp only [List.length_append, List.length_cons]
    omega
  refine reads_bind_iff.mpr ⟨yes, _, hs hyes nofun ?_, ?_⟩
  · simp only [List.length_append, List.length_cons]
    omega
  refine reads_bind_iff.mpr ⟨some otherwise, _, reads_liftM_iff.mpr
    (Phrase.accept?_cons (decide_eq_true hotherwise) _), ?_⟩
  refine reads_bind_iff.mpr ⟨no, _, hs hno helse ?_, reads_pure_iff.mpr ⟨rfl, rfl⟩⟩
  rw [List.length_append]
  omega

include he hs hd in
theorem statementBody_complete :
    CompleteStatement (n + 1) (statementBody expression statement declaration n) := by
  intro used s rest dangling hstatement helse hlength
  cases hstatement with
  | expression hexpression =>
    obtain ⟨t, us, rfl, ht⟩ := hexpression.exists_cons
    have hread := expressionStatement_complete he hexpression hlength
    rw [List.cons_append] at hread ⊢
    rw [Reads, statementBody_of_opensExpression ht]
    exact reads_liftM_iff.mpr hread
  | @print keyword semicolon ts e hkeyword hexpression hsemicolon =>
    have happend : keyword :: ts ++ [semicolon] ++ rest = keyword :: (ts ++ semicolon :: rest) := by
      simp
    rw [happend] at hlength ⊢
    have hread := expression_reads he hexpression (.inl hsemicolon) (Nat.le_of_succ_le hlength)
    simp only [Reads, statementBody, hkeyword]
    refine reads_liftM_iff.mpr ((Phrase.bind_of_ok hread).trans ?_)
    exact Phrase.bind_of_ok (Phrase.expect_eq_ok_iff.mpr ⟨rfl, hsemicolon⟩)
  | @returnValue keyword semicolon ts value hkeyword hvalue hsemicolon =>
    have happend : keyword :: ts ++ [semicolon] ++ rest = keyword :: (ts ++ semicolon :: rest) := by
      simp
    rw [happend] at hlength ⊢
    have hread := optionalExpression_complete he hvalue (.inl rfl) hsemicolon
      (Nat.le_of_succ_le hlength)
    simp only [Reads, statementBody, hkeyword]
    refine reads_liftM_iff.mpr ((Phrase.bind_of_ok hread).trans ?_)
    exact Phrase.bind_of_ok (Phrase.expect_eq_ok_iff.mpr ⟨rfl, hsemicolon⟩)
  | @block left right pieces hleft hpieces hright =>
    have happend : left :: pieces.flatMap Prod.fst ++ [right] ++ rest =
        left :: (pieces.flatMap Prod.fst ++ right :: rest) := by simp
    rw [happend] at hlength ⊢
    have hbody := block_complete hd hpieces hright (Nat.le_of_succ_le_succ hlength)
    simp only [Reads, statementBody, hleft]
    exact reads_map_iff.mpr ⟨_, hbody, rfl⟩
  | @loop _ keyword opening closing ts us e body hkeyword hopening hcondition hclosing hbody =>
    have happend : keyword :: opening :: ts ++ closing :: us ++ rest =
        keyword :: (opening :: ts ++ closing :: (us ++ rest)) := by simp
    rw [happend] at hlength ⊢
    simp only [Reads, statementBody, hkeyword]
    exact whileStatement_complete he hs hopening hcondition hclosing hbody helse
      (Nat.le_of_succ_le_succ hlength)
  | @forLoop _ keyword opening semicolon closing starts conditions steps us start condition step
      body hkeyword hopening hstart hcondition hsemicolon hstep hclosing hbody =>
    have happend : keyword :: opening :: starts ++ conditions ++ semicolon :: steps ++
        closing :: us ++ rest = keyword :: (opening :: (starts ++ (conditions ++ semicolon ::
          (steps ++ closing :: (us ++ rest))))) := by simp
    rw [happend] at hlength ⊢
    simp only [Reads, statementBody, hkeyword]
    exact forStatement_complete he hs hopening hstart hcondition hsemicolon hstep hclosing hbody
      helse (Nat.le_of_succ_le_succ hlength)
  | @branch _ keyword opening closing ts us e yes hkeyword hopening hcondition hclosing hyes =>
    have happend : keyword :: opening :: ts ++ closing :: us ++ rest =
        keyword :: (opening :: ts ++ closing :: (us ++ rest)) := by simp
    rw [happend] at hlength ⊢
    simp only [Reads, statementBody, hkeyword]
    exact ifStatement_complete he hs hopening hcondition hclosing hyes (helse rfl)
      (Nat.le_of_succ_le_succ hlength)
  | @branches _ keyword opening closing otherwise ts us vs e yes no hkeyword hopening hcondition
      hclosing hyes hotherwise hno =>
    have happend : keyword :: opening :: ts ++ closing :: us ++ otherwise :: vs ++ rest =
        keyword :: (opening :: ts ++ closing :: (us ++ otherwise :: (vs ++ rest))) := by simp
    rw [happend] at hlength ⊢
    simp only [Reads, statementBody, hkeyword]
    exact ifElseStatement_complete he hs hopening hcondition hclosing hyes hotherwise hno helse
      (Nat.le_of_succ_le_succ hlength)

include he hs hd in
theorem declarationBody_complete :
    CompleteDeclaration (n + 1) (recover (declarationBody expression statement declaration n)) := by
  intro used s rest hstatement helse hlength
  refine reads_recover_iff.mpr ⟨s, rfl, ?_⟩
  cases hstatement with
  | statement hstatement =>
    obtain ⟨t, us, rfl, hfun, hvar⟩ := hstatement.exists_cons_of_statement
    have hread := statementBody_complete he hs hd hstatement (fun _ => helse) hlength
    rw [List.cons_append] at hread ⊢
    -- A statement does not begin like a declaration of a variable or a function.
    have hbody : declarationBody expression statement declaration n (t :: (us ++ rest)) =
        statementBody expression statement declaration n (t :: (us ++ rest)) := by
      rw [declarationBody]
      split
      · next hkind => exact absurd hkind hfun
      · next hkind => exact absurd hkind hvar
      · rfl
    rw [Reads, hbody]
    exact hread
  | @function fun_ target opening closing left right parameters us pieces hfun htarget hopening
      hparameters hseparated hlimit hclosing hleft hpieces hright =>
    have happend : fun_ :: target :: opening :: us ++ closing :: left :: pieces.flatMap Prod.fst ++
        [right] ++ rest = fun_ :: target :: opening :: (us ++ closing :: left ::
          (pieces.flatMap Prod.fst ++ right :: rest)) := by simp
    rw [happend] at hlength ⊢
    simp only [Reads, declarationBody, hfun]
    refine functionDeclaration_complete hd htarget hopening hparameters hseparated hlimit hclosing
      hleft hpieces hright ?_
    simp only [List.length_cons] at hlength ⊢
    omega
  | variable_ hdeclaration =>
    obtain ⟨var, us, rfl, hvar⟩ : ∃ var us, used = var :: us ∧ var.kind = .keyword .var_ := by
      cases hdeclaration with
      | mk hvar => exact ⟨_, _, rfl, hvar⟩
    have hread := variableDeclaration_complete he hdeclaration (Nat.le_of_succ_le hlength)
    simp only [Reads, List.cons_append, declarationBody, hvar]
    exact reads_liftM_iff.mpr hread

end

private theorem rules_complete (n : Nat) :
    CompleteStatement n (statement n) ∧ CompleteDeclaration n (declaration n) := by
  induction n with
  | zero =>
    refine ⟨fun used s rest dangling hs _ hlength => ?_, fun used s rest hs _ hlength => ?_⟩
    -- Nothing derives from no tokens.
    all_goals
      obtain ⟨t, us, rfl, -⟩ := hs.exists_cons
      exact absurd hlength (Nat.not_succ_le_zero _)
  | succ n ih =>
    have he := Phrase.expression_complete (n + 1)
    exact ⟨statementBody_complete he ih.1 ih.2, declarationBody_complete he ih.1 ih.2⟩

/-- What derives as a **statement** is read. -/
theorem statement_complete (n : Nat) : CompleteStatement n (statement n) := (rules_complete n).1

/-- What derives as a **declaration** is read. -/
theorem declaration_complete (n : Nat) : CompleteDeclaration n (declaration n) :=
  (rules_complete n).2

end Rule

end LoxLang
