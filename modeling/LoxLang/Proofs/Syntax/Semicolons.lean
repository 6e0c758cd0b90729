import LoxLang.Proofs.Syntax.Completeness

/-!
# Reading stops at a semicolon

No expression has a semicolon in it. So a phrase that reads expressions, names and symbols of its
own stops in front of the next semicolon, whether it reads or rejects: the tokens that it took are
no semicolons, and what it blames is one of them or the token at which it stopped. A simple
statement, which ends with a semicolon, is therefore **confined**: it reads up to the next semicolon
and that one, or it rejects in front of what stands behind it (`Rule.confined_expressionStatement`
and its siblings).
-/

namespace LoxLang

/-- What a phrase answers **stops at semicolons**: the tokens that were taken are none, and a fault
blames one of them or the next token. -/
def StopsAtSemicolons {α : Type} (ts : List Token) : Except Reject (α × List Token) → Prop
  | .ok (_, rest) => ∃ used, ts = used ++ rest ∧ ∀ t ∈ used, t.kind ≠ .semicolon
  | .error e => ∃ used, ts = used ++ e.rest ∧ (∀ t ∈ used, t.kind ≠ .semicolon) ∧
      (e.fault.blame = e.rest.head? ∨ ∃ t ∈ used, e.fault.blame = some t)

/-- Behind tokens that are no semicolons, reading still stops at the next semicolon. -/
theorem StopsAtSemicolons.behind {α : Type} {used ts : List Token}
    {x : Except Reject (α × List Token)} (h : StopsAtSemicolons ts x)
    (hused : ∀ t ∈ used, t.kind ≠ .semicolon) : StopsAtSemicolons (used ++ ts) x := by
  rcases x with e | ⟨a, rest⟩
  · obtain ⟨used', hcut, hused', hblame⟩ := h
    refine ⟨used ++ used', by rw [hcut, List.append_assoc], ?_, ?_⟩
    · exact List.forall_mem_append.mpr ⟨hused, hused'⟩
    · exact hblame.imp_right fun ⟨t, ht, hsome⟩ => ⟨t, List.mem_append_right used ht, hsome⟩
  · obtain ⟨used', hcut, hused'⟩ := h
    refine ⟨used ++ used', by rw [hcut, List.append_assoc], ?_⟩
    exact List.forall_mem_append.mpr ⟨hused, hused'⟩

namespace Phrase

variable {α β : Type}

/-- The phrase takes **no semicolon**, on all tokens. -/
def TakesNoSemicolon (p : Phrase α) : Prop := ∀ ts, StopsAtSemicolons ts (p ts)

theorem takesNoSemicolon_pure (a : α) : TakesNoSemicolon (pure a) :=
  fun _ => ⟨[], rfl, List.forall_mem_nil _⟩

theorem TakesNoSemicolon.bind {p : Phrase α} {f : α → Phrase β} (hp : p.TakesNoSemicolon)
    (hf : ∀ a, (f a).TakesNoSemicolon) : (p >>= f).TakesNoSemicolon := by
  intro ts
  have hfirst := hp ts
  rcases hread : p ts with e | ⟨a, rest⟩
  · rw [hread] at hfirst
    rw [bind_of_error hread]
    exact hfirst
  · rw [hread] at hfirst
    obtain ⟨used, rfl, hused⟩ := hfirst
    rw [bind_of_ok hread]
    exact (hf a rest).behind hused

theorem TakesNoSemicolon.map {p : Phrase α} (hp : p.TakesNoSemicolon) (f : α → β) :
    (f <$> p).TakesNoSemicolon := by
  rw [← bind_pure_comp]
  exact hp.bind fun a => takesNoSemicolon_pure (f a)

/-! ### Single tokens -/

theorem takesNoSemicolon_reject (e : SyntaxError) : (reject e : Phrase α).TakesNoSemicolon :=
  fun _ => ⟨[], rfl, List.forall_mem_nil _, .inl rfl⟩

theorem takesNoSemicolon_ahead (p : TokenKind → Bool) : (ahead p).TakesNoSemicolon :=
  fun _ => ⟨[], rfl, List.forall_mem_nil _⟩

theorem takesNoSemicolon_accept? {p : TokenKind → Bool} (h : ¬ p .semicolon) :
    (accept? p).TakesNoSemicolon := by
  intro ts
  cases ts with
  | nil => exact ⟨[], rfl, List.forall_mem_nil _⟩
  | cons t ts =>
    rw [accept?]
    split
    · next hkind =>
      exact ⟨[t], rfl, List.forall_mem_singleton.mpr fun hsemicolon => h (hsemicolon ▸ hkind)⟩
    · exact ⟨[], rfl, List.forall_mem_nil _⟩

theorem takesNoSemicolon_expect {kind : TokenKind} (h : kind ≠ .semicolon) (e : SyntaxError) :
    (expect kind e).TakesNoSemicolon := by
  refine (takesNoSemicolon_accept? fun hkind => h (of_decide_eq_true hkind).symm).bind fun o => ?_
  cases o with
  | none => exact takesNoSemicolon_reject e
  | some t => exact takesNoSemicolon_pure t

/-! ### Lists -/

theorem takesNoSemicolon_commaList {item : Phrase α} (h : item.TakesNoSemicolon) (list : Listed)
    (limit : Nat) : (commaList list item limit).TakesNoSemicolon := by
  induction limit with
  | zero => exact takesNoSemicolon_reject _
  | succ limit ih =>
    refine h.bind fun first => (takesNoSemicolon_accept? (by decide)).bind fun comma? => ?_
    cases comma? with
    | none => exact takesNoSemicolon_pure [first]
    | some comma => exact ih.bind fun others => takesNoSemicolon_pure (first :: others)

theorem takesNoSemicolon_listed {item : Phrase α} (h : item.TakesNoSemicolon) (list : Listed) :
    (listed list item).TakesNoSemicolon := by
  refine (takesNoSemicolon_ahead _).bind fun closes => ?_
  split
  · exact takesNoSemicolon_pure []
  · exact takesNoSemicolon_commaList h list maxArguments

/-! ### Levels of binary operators -/

section

variable {operators : TokenKind → Bool} (hoperators : ¬ operators .semicolon)
  {combine : Expr → Token → Expr → Expr} {operand : Phrase Expr} (h : operand.TakesNoSemicolon)

include hoperators h

theorem takesNoSemicolon_chain (n : Nat) (left : Expr) :
    (chain operators combine operand n left).TakesNoSemicolon := by
  induction n generalizing left with
  | zero => exact takesNoSemicolon_pure left
  | succ n ih =>
    refine (takesNoSemicolon_accept? hoperators).bind fun op? => ?_
    cases op? with
    | none => exact takesNoSemicolon_pure left
    | some op => exact h.bind fun right => ih (combine left op right)

theorem takesNoSemicolon_leftAssociative (n : Nat) :
    (leftAssociative n operators combine operand).TakesNoSemicolon :=
  h.bind fun left => takesNoSemicolon_chain hoperators h n left

end

/-! ### The other levels -/

section

variable {expression : Phrase Expr} (h : expression.TakesNoSemicolon)

include h

theorem takesNoSemicolon_primary : (primary expression).TakesNoSemicolon := by
  intro ts
  cases ts with
  | nil => exact takesNoSemicolon_reject _ []
  | cons t ts =>
    -- The first token is none, if it is one of those that begin such an expression.
    have hfirst : ∀ kind, t.kind = kind → kind ≠ .semicolon → ∀ u ∈ [t], u.kind ≠ .semicolon := by
      rintro kind rfl hkind
      exact List.forall_mem_singleton.mpr hkind
    rw [primary]
    split
    case h_7 hkind =>
      have hgrouping : (do
          let inner ← expression
          let _ ← symbol .afterExpression
          pure (.grouping inner) : Phrase Expr).TakesNoSemicolon :=
        h.bind fun inner => (takesNoSemicolon_expect (by decide) _).bind fun _ =>
          takesNoSemicolon_pure _
      exact (hgrouping ts).behind (hfirst _ hkind (by decide))
    case h_8 => exact takesNoSemicolon_reject _ (t :: ts)
    all_goals
      next hkind => exact ⟨[t], rfl, hfirst _ hkind (by decide)⟩

theorem takesNoSemicolon_callChain (n : Nat) (callee : Expr) :
    (callChain expression n callee).TakesNoSemicolon := by
  induction n generalizing callee with
  | zero => exact takesNoSemicolon_pure callee
  | succ n ih =>
    refine (takesNoSemicolon_accept? (by decide)).bind fun opening? => ?_
    cases opening? with
    | none => exact takesNoSemicolon_pure callee
    | some opening =>
      refine (takesNoSemicolon_listed h _).bind fun arguments => ?_
      exact (takesNoSemicolon_expect (by decide) _).bind fun paren =>
        ih (.call callee paren arguments)

theorem takesNoSemicolon_call (n : Nat) : (call n expression).TakesNoSemicolon :=
  (takesNoSemicolon_primary h).bind fun callee => takesNoSemicolon_callChain h n callee

theorem takesNoSemicolon_unary (n : Nat) : (unary n expression).TakesNoSemicolon := by
  intro ts
  induction ts with
  | nil => exact takesNoSemicolon_call h n []
  | cons t ts ih =>
    rw [unary]
    split
    · next hkind =>
      have hoperator : ∀ u ∈ [t], u.kind ≠ .semicolon := by
        refine List.forall_mem_singleton.mpr fun hsemicolon => ?_
        simp [hsemicolon] at hkind
      rcases hread : unary n expression ts with e | ⟨operand, rest⟩
      · rw [hread] at ih
        exact ih.behind hoperator
      · rw [hread] at ih
        exact ih.behind hoperator
    · exact takesNoSemicolon_call h n (t :: ts)

theorem takesNoSemicolon_disjunction (n : Nat) : (disjunction n expression).TakesNoSemicolon := by
  -- From the loosest of these levels to the tightest.
  refine takesNoSemicolon_leftAssociative (by decide) ?_ n
  refine takesNoSemicolon_leftAssociative (by decide) ?_ n
  refine takesNoSemicolon_leftAssociative (by decide) ?_ n
  refine takesNoSemicolon_leftAssociative (by decide) ?_ n
  refine takesNoSemicolon_leftAssociative (by decide) ?_ n
  refine takesNoSemicolon_leftAssociative (by decide) ?_ n
  exact takesNoSemicolon_unary h n

/-- An equals sign that is blamed for an invalid target is among the tokens that were taken. -/
theorem takesNoSemicolon_assignment (n : Nat) : (assignment n expression).TakesNoSemicolon := by
  refine (takesNoSemicolon_disjunction h n).bind fun target => ?_
  intro ts
  rcases hequals : accept? (· = .equal) ts with e | ⟨_ | equals, behind⟩
  · have hstops := takesNoSemicolon_accept? (p := (· = .equal)) (by decide) ts
    rw [hequals] at hstops
    rw [bind_of_error hequals]
    exact hstops
  · obtain ⟨rfl, -⟩ := accept?_eq_none_iff.mp hequals
    rw [bind_of_ok hequals]
    exact ⟨[], rfl, List.forall_mem_nil _⟩
  · obtain ⟨rfl, hkind⟩ := accept?_eq_some_iff.mp hequals
    have hequal : ∀ t ∈ [equals], t.kind ≠ .semicolon := by
      refine List.forall_mem_singleton.mpr fun hsemicolon => ?_
      simp [hsemicolon] at hkind
    rw [bind_of_ok hequals]
    have hvalue := h behind
    rcases hread : expression behind with e | ⟨value, rest⟩
    · rw [hread] at hvalue
      simp only [bind_of_error hread]
      exact hvalue.behind hequal
    · rw [hread] at hvalue
      obtain ⟨used, rfl, hused⟩ := hvalue
      have hall := List.forall_mem_append.mpr ⟨hequal, hused⟩
      simp only [bind_of_ok hread]
      cases target with
      | name t => exact ⟨[equals] ++ used, rfl, hall⟩
      | _ => exact ⟨[equals] ++ used, rfl, hall, .inr ⟨equals, List.mem_cons_self .., rfl⟩⟩

end

/-- Reading an **expression** takes no semicolon. -/
theorem takesNoSemicolon_expression (n : Nat) : (expression n).TakesNoSemicolon := by
  induction n with
  | zero => exact takesNoSemicolon_reject _
  | succ n ih => exact takesNoSemicolon_assignment ih n

/-! ### Up to the semicolon -/

/-- The phrase is **confined** by the next semicolon: it reads up to that, which it takes, or it
rejects in front of what stands behind it, and blames a token up to there. -/
def Confined (p : Phrase α) : Prop :=
  ∀ ⦃front semicolon⦄, (∀ t ∈ front, t.kind ≠ .semicolon) → semicolon.kind = .semicolon → ∀ behind,
    (∃ a, p (front ++ semicolon :: behind) = .ok (a, behind)) ∨
      ∃ used left t e, front = used ++ left ∧ t ∈ front ++ [semicolon] ∧
        p (front ++ semicolon :: behind) = .error ⟨⟨some t, e⟩, left ++ semicolon :: behind⟩

/-- Of two ways to cut tokens, the one without a semicolon in front is the shorter. -/
private theorem exists_left_of_append {front used rest behind : List Token} {semicolon : Token}
    (hsemicolon : semicolon.kind = .semicolon)
    (h : front ++ semicolon :: behind = used ++ rest) (hused : ∀ t ∈ used, t.kind ≠ .semicolon) :
    ∃ left, front = used ++ left ∧ rest = left ++ semicolon :: behind := by
  rcases List.append_eq_append_iff.mp h with ⟨left, rfl, hcons⟩ | ⟨left, rfl, rfl⟩
  · cases left with
    | nil => exact ⟨[], by simp, by simpa using hcons.symm⟩
    | cons t left =>
      obtain ⟨rfl, -⟩ := List.cons.inj hcons
      exact absurd hsemicolon (hused semicolon (by simp))
  · exact ⟨left, rfl, rfl⟩

/-- Where a semicolon belongs, it is taken, or the token in its place is to blame. -/
theorem confined_symbol (place : Place) (hplace : place.symbol = .semicolon) (a : α) : (do
    let _ ← symbol place
    pure a : Phrase α).Confined := by
  intro front semicolon hfront hsemicolon behind
  cases front with
  | nil =>
    refine .inl ⟨a, ?_⟩
    exact expect_bind_eq_ok_iff.mpr ⟨semicolon, behind, rfl, hsemicolon.trans hplace.symm, rfl⟩
  | cons t front =>
    have ht : ∀ u ∈ (t :: front ++ semicolon :: behind).head?, u.kind ≠ place.symbol := by
      rintro u ⟨⟩
      rw [hplace]
      exact hfront t (List.mem_cons_self ..)
    have hreject : symbol place (t :: front ++ semicolon :: behind) =
        .error ⟨⟨some t, .noSymbol place⟩, t :: front ++ semicolon :: behind⟩ :=
      expect_of_forall_not ht
    exact .inr ⟨[], t :: front, t, _, rfl, List.mem_cons_self .., bind_of_error hreject⟩

/-- Behind a phrase that takes no semicolon, the next one is confined as before. -/
theorem TakesNoSemicolon.confined {p : Phrase α} {f : α → Phrase β} (hp : p.TakesNoSemicolon)
    (hf : ∀ a, (f a).Confined) : (p >>= f).Confined := by
  intro front semicolon hfront hsemicolon behind
  have hstops := hp (front ++ semicolon :: behind)
  rcases hread : p (front ++ semicolon :: behind) with ⟨⟨blame, e⟩, rest⟩ | ⟨a, rest⟩
  · rw [hread] at hstops
    rw [bind_of_error hread]
    obtain ⟨used, hcut, hused, hblame⟩ := hstops
    obtain ⟨left, rfl, rfl⟩ := exists_left_of_append hsemicolon hcut hused
    have hsome : ∃ t ∈ used ++ left ++ [semicolon], blame = some t := by
      rcases hblame with hnext | ⟨t, ht, hsome⟩
      · cases left with
        | nil => exact ⟨semicolon, by simp, hnext⟩
        | cons t left => exact ⟨t, by simp, hnext⟩
      · exact ⟨t, by simp [ht], hsome⟩
    obtain ⟨t, ht, rfl⟩ := hsome
    exact .inr ⟨used, left, t, e, rfl, ht, rfl⟩
  · rw [hread] at hstops
    rw [bind_of_ok hread]
    obtain ⟨used, hcut, hused⟩ := hstops
    obtain ⟨left, rfl, rfl⟩ := exists_left_of_append hsemicolon hcut hused
    have hleft := (List.forall_mem_append.mp hfront).2
    rcases hf a hleft hsemicolon behind with hread' | ⟨used', left', t, e, rfl, ht, hreject⟩
    · exact .inl hread'
    · refine .inr ⟨used ++ used', left', t, e, (List.append_assoc ..).symm, ?_, hreject⟩
      rw [List.append_assoc]
      exact List.mem_append_right used ht

end Phrase

namespace Rule

/-! ### Simple statements -/

section

variable {expression : Phrase Expr} (h : expression.TakesNoSemicolon)

include h

theorem confined_expressionStatement : (expressionStatement expression).Confined :=
  h.confined fun value => Phrase.confined_symbol .afterValue rfl (Stmt.expression value)

theorem confined_printStatement : (printStatement expression).Confined :=
  h.confined fun value => Phrase.confined_symbol .afterValue rfl (Stmt.print value)

theorem confined_returnStatement (keyword : Token) :
    (returnStatement expression keyword).Confined := by
  have hvalue : (optionalExpression expression .semicolon).TakesNoSemicolon := by
    refine (Phrase.takesNoSemicolon_ahead _).bind fun absent => ?_
    split
    · exact Phrase.takesNoSemicolon_pure none
    · exact h.map some
  exact hvalue.confined fun value =>
    Phrase.confined_symbol .afterReturnValue rfl (Stmt.returnValue keyword value)

theorem confined_variableDeclaration : (variableDeclaration expression).Confined := by
  refine (Phrase.takesNoSemicolon_expect (by decide) _).confined fun target => ?_
  refine (Phrase.takesNoSemicolon_accept? (by decide)).confined fun equals? => ?_
  have hend : ∀ value, (do
      let _ ← Phrase.symbol .afterDeclaration
      pure (.declare target value) : Phrase Stmt).Confined :=
    fun value => Phrase.confined_symbol .afterDeclaration rfl (Stmt.declare target value)
  cases equals? with
  | none => exact (Phrase.takesNoSemicolon_pure none).confined hend
  | some equals => exact (h.map some).confined hend

end

end Rule

end LoxLang
