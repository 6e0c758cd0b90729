import LoxLang.Proofs.Syntax.Cursor

/-!
# Parsers follow the rules

Rule by rule, a parser on the cursor does what the rule of the same name says of the tokens ahead.
The levels of the grammar enter a nested rule only behind a token that is taken, so that a bound
above the number of tokens ahead is never exhausted. `FollowsAt.expression`, `FollowsAt.statement`,
`FollowsAt.declaration` and `FollowsAt.program` close the circle, and say so with any such bound.

The result is `Parse.ofTokens_eq`: to parse a list is to read the program in front of its first end
token.
-/

namespace LoxLang

open Parse

namespace Parser

namespace Follows

variable {α : Type} {tokens : List Token} {k : Nat}

section

variable (h : ∃ t ∈ tokens, t.kind = .eof)

include h

/-! ### Lists -/

theorem commaList {item : Parser α} {item' : Phrase α} (hitem : Follows tokens k item (liftM item'))
    (list : Listed) (limit : Nat) :
    Follows tokens k (commaList list item limit) (liftM (Phrase.commaList list item' limit)) := by
  induction limit with
  | zero => exact fun i hi _ => .error_peek h hi (.tooMany list)
  | succ limit ih =>
    rw [Parser.commaList, Phrase.commaList]
    refine hitem.liftM_bind fun first => ?_
    refine liftM_accept_bind h (fun kind => by simp) (Nat.le_succ k) (fun comma => ?_) ?_
    · exact ih.liftM_bind fun others => .pure (first :: others)
    · exact .pure [first]

theorem listed {item : Parser α} {item' : Phrase α} (hitem : Follows tokens k item (liftM item'))
    (list : Listed) :
    Follows tokens k (listed list item) (liftM (Phrase.listed list item')) := by
  refine check_bind h fun closes => ?_
  split
  · exact .pure []
  · exact commaList h hitem list maxArguments

/-! ### Levels of binary operators -/

theorem chain {operators : List TokenKind} {accepted : TokenKind → Bool}
    {combine : Expr → Token → Expr → Expr} {operand : Parser Expr} {operand' : Phrase Expr}
    (hkinds : ∀ kind, accepted kind ↔ kind ∈ operators)
    (hoperand : Follows tokens k operand (liftM operand')) {n m : Nat} (hn : n ≤ k)
    (hm : n ≤ m + 1) (left : Expr) :
    Follows tokens n (chain operators combine operand n left)
      (liftM (Phrase.chain accepted combine operand' m left)) := by
  induction n generalizing m left with
  | zero => exact fun i hi hk => absurd hk (Nat.not_lt_zero _)
  | succ n ih =>
    cases m with
    | zero =>
      -- The rule stops where its bound is exhausted. No token is ahead then, and none is accepted.
      obtain rfl : n = 0 := Nat.le_zero.mp (Nat.le_of_succ_le_succ hm)
      intro i hi hk
      have hnil : ahead tokens i = [] := List.length_eq_zero_iff.mp (by rw [length_ahead]; omega)
      exact .of_accept_of_nil h hi hnil (.pure hi left)
    | succ m =>
      rw [Parser.chain, Phrase.chain]
      refine liftM_accept_bind h hkinds (Nat.le_refl _) (fun op => ?_) (.pure left)
      refine (hoperand.mono (Nat.le_of_succ_le hn)).liftM_bind fun right => ?_
      exact ih (Nat.le_of_succ_le hn) (Nat.le_of_succ_le_succ hm) (combine left op right)

theorem leftAssociative {operators : List TokenKind} {accepted : TokenKind → Bool}
    {combine : Expr → Token → Expr → Expr} {operand : Parser Expr} {operand' : Phrase Expr}
    (hkinds : ∀ kind, accepted kind ↔ kind ∈ operators)
    (hoperand : Follows tokens k operand (liftM operand')) {m : Nat} (hm : k ≤ m + 1) :
    Follows tokens k (leftAssociative k operators combine operand)
      (liftM (Phrase.leftAssociative m accepted combine operand')) :=
  hoperand.liftM_bind fun left => chain h hkinds hoperand (Nat.le_refl k) hm left

/-! ### Expressions -/

section

variable {expression : Parser Expr} {expression' : Phrase Expr}
  (he : Follows tokens k expression (liftM expression'))

include he

theorem primary :
    Follows tokens (k + 1) (primary expression) (liftM (Phrase.primary expression')) := by
  intro i hi hk
  refine liftM_of_first h hi hk (Nat.le_refl _) (fun _ => Pure.pure (.literal (.bool false)))
    (fun t ts hmem => ?_) (fun _ => .pure _) fun hfalse => ?_
  · rw [Phrase.primary, List.mem_singleton.mp hmem]
    rfl
  refine liftM_of_first h hi hk (Nat.le_refl _) (fun _ => Pure.pure (.literal (.bool true)))
    (fun t ts hmem => ?_) (fun _ => .pure _) fun htrue => ?_
  · rw [Phrase.primary, List.mem_singleton.mp hmem]
    rfl
  refine liftM_of_first h hi hk (Nat.le_refl _) (fun _ => Pure.pure (.literal .nil))
    (fun t ts hmem => ?_) (fun _ => .pure _) fun hnil => ?_
  · rw [Phrase.primary, List.mem_singleton.mp hmem]
    rfl
  refine liftM_of_first h hi hk (Nat.le_refl _) (fun t => Pure.pure (.literal t.literal))
    (fun t ts hmem => ?_) (fun t => .pure _) fun hliteral => ?_
  · rw [Phrase.primary]
    rcases List.mem_cons.mp hmem with hkind | hmem
    · rw [hkind]
      rfl
    · rw [List.mem_singleton.mp hmem]
      rfl
  refine liftM_of_first h hi hk (Nat.le_refl _) (fun t => Pure.pure (.name t))
    (fun t ts hmem => ?_) (fun t => .pure _) fun hname => ?_
  · rw [Phrase.primary, List.mem_singleton.mp hmem]
    rfl
  refine liftM_of_first h hi hk (Nat.le_refl _)
    (fun _ => do
      let inner ← expression'
      let _ ← Phrase.symbol .afterExpression
      Pure.pure (.grouping inner))
    (fun t ts hmem => ?_) (fun _ => ?_) fun hopening => ?_
  · rw [Phrase.primary, List.mem_singleton.mp hmem]
  · refine he.liftM_bind fun inner => (consume h _ _).liftM_bind fun _ => ?_
    exact .pure (Expr.grouping inner)
  · have hread : Phrase.primary expression' (ahead tokens i) =
        Phrase.reject .noExpression (ahead tokens i) := by
      rcases hahead : ahead tokens i with _ | ⟨t, ts⟩
      · rfl
      · rw [hahead] at hfalse htrue hnil hliteral hname hopening
        rw [Phrase.primary]
        split <;> simp_all
    exact (FollowsAt.error_peek h hi .noExpression).congr (congrArg (Reply.mk []) hread)

theorem callChain {n m : Nat} (hn : n ≤ k + 1) (hm : n ≤ m + 1) (callee : Expr) :
    Follows tokens n (callChain expression n callee)
      (liftM (Phrase.callChain expression' m callee)) := by
  induction n generalizing m callee with
  | zero => exact fun i hi hk => absurd hk (Nat.not_lt_zero _)
  | succ n ih =>
    cases m with
    | zero =>
      -- As in a chain of operators, no token is ahead where the bound of the rule is exhausted.
      obtain rfl : n = 0 := Nat.le_zero.mp (Nat.le_of_succ_le_succ hm)
      intro i hi hk
      have hnil : ahead tokens i = [] := List.length_eq_zero_iff.mp (by rw [length_ahead]; omega)
      exact .of_accept_of_nil h hi hnil (.pure hi callee)
    | succ m =>
      rw [Parser.callChain, Phrase.callChain]
      refine liftM_accept_bind h (fun kind => by simp) (Nat.le_refl _) (fun opening => ?_) ?_
      · refine (listed h (he.mono (Nat.le_of_succ_le_succ hn)) .arguments).liftM_bind ?_
        refine fun arguments => (consume h _ _).liftM_bind fun paren => ?_
        exact ih (Nat.le_of_succ_le hn) (Nat.le_of_succ_le_succ hm) (.call callee paren arguments)
      · exact .pure callee

section

variable {n m : Nat} (hn : n ≤ k + 1) (hm : n ≤ m + 1)

include hn hm

theorem call : Follows tokens n (call n expression) (liftM (Phrase.call m expression')) :=
  ((primary h he).mono hn).liftM_bind fun callee => callChain h he hn hm callee

theorem unary : Follows tokens n (unary expression n) (liftM (Phrase.unary m expression')) := by
  induction n with
  | zero => exact fun i hi hk => absurd hk (Nat.not_lt_zero _)
  | succ n ih =>
    intro i hi hk
    have hoperand := ih (Nat.le_of_succ_le hn) (Nat.le_of_succ_le hm)
    refine liftM_of_first h hi hk (Nat.le_refl _)
      (fun op => do
        let operand ← Phrase.unary m expression'
        Pure.pure (.unary op operand))
      (fun t ts hmem => ?_) (fun op => ?_) fun hnot => ?_
    · rw [Phrase.unary, if_pos (by simpa using hmem)]
      rcases hread : Phrase.unary m expression' ts with e | ⟨e, rest⟩
      · rw [Phrase.bind_of_error hread]
        rfl
      · rw [Phrase.bind_of_ok hread]
        rfl
    · exact hoperand.liftM_bind fun operand => .pure (Expr.unary op operand)
    · have hread : Phrase.unary m expression' (ahead tokens i) =
          Phrase.call m expression' (ahead tokens i) := by
        rcases hahead : ahead tokens i with _ | ⟨t, ts⟩
        · rfl
        · rw [hahead] at hnot
          rw [Phrase.unary, if_neg (by simpa using hnot t rfl)]
      exact (call h he hn hm i hi hk).congr (congrArg (Reply.mk []) hread)

theorem disjunction :
    Follows tokens n (disjunction n expression) (liftM (Phrase.disjunction m expression')) := by
  have hfactor : Follows tokens n (factor n expression) (liftM (Phrase.factor m expression')) :=
    leftAssociative h (fun kind => by simp) (unary h he hn hm) hm
  have hcomparison :
      Follows tokens n (comparison n expression) (liftM (Phrase.comparison m expression')) :=
    leftAssociative h (fun kind => by simp [or_assoc])
      (leftAssociative h (fun kind => by simp) hfactor hm) hm
  have hconjunction :
      Follows tokens n (conjunction n expression) (liftM (Phrase.conjunction m expression')) :=
    leftAssociative h (fun kind => by simp)
      (leftAssociative h (fun kind => by simp) hcomparison hm) hm
  exact leftAssociative h (fun kind => by simp) hconjunction hm

end

theorem assignment {m : Nat} (hm : k ≤ m) : Follows tokens (k + 1) (assignment (k + 1) expression)
    (liftM (Phrase.assignment m expression')) := by
  refine (disjunction h he (Nat.le_refl _) (Nat.succ_le_succ hm)).liftM_bind fun target => ?_
  refine liftM_accept_bind h (fun kind => by simp) (Nat.le_refl _) (fun equals => ?_) (.pure target)
  refine he.liftM_bind fun value => ?_
  cases target with
  | name t => exact .pure (Expr.assign t value)
  | _ => exact fun i hi hk => (FollowsAt.error hi (some equals) rfl).congr rfl

end

theorem expression {n : Nat} (hn : last tokens ≤ n) (hk : k ≤ n + 1) :
    Follows tokens k (expression k) (liftM (Phrase.expression n)) := by
  induction k with
  | zero => exact fun i hi hlt => absurd hlt (Nat.not_lt_zero _)
  | succ k ih =>
    intro i hi hlt
    have hlength : (ahead tokens i).length ≤ n := Nat.le_trans (length_ahead_le tokens i) hn
    have hread := assignment h (ih (Nat.le_of_succ_le hk)) (Nat.le_of_succ_le_succ hk) i hi hlt
    exact hread.congr (congrArg (Reply.mk []) (Phrase.expression_eq hlength))

/-! ### Parts of statements -/

section

variable {expression : Parser Expr} {expression' : Phrase Expr}
  (he : Follows tokens k expression (liftM expression'))

include he

theorem variableDeclaration : Follows tokens k (variableDeclaration expression)
    (liftM (Rule.variableDeclaration expression')) := by
  refine (consume h _ _).liftM_bind fun target => ?_
  have hend : ∀ value : Option Expr, Follows tokens k
      (do
        let _ ← symbol .afterDeclaration
        Pure.pure (Stmt.declare target value))
      (liftM (do
        let _ ← Phrase.symbol .afterDeclaration
        Pure.pure (Stmt.declare target value) : Phrase Stmt)) :=
    fun value => (consume h _ _).liftM_bind fun _ => .pure (Stmt.declare target value)
  refine liftM_accept_bind h (fun kind => by simp) (Nat.le_succ k) (fun equals => ?_) ?_
  · exact (he.liftM_map some).liftM_bind hend
  · have hnone : Follows tokens k (Pure.pure none)
        (liftM (Pure.pure none : Phrase (Option Expr))) := .pure none
    exact hnone.liftM_bind hend

theorem expressionStatement : Follows tokens k (expressionStatement expression)
    (liftM (Rule.expressionStatement expression')) :=
  he.liftM_bind fun value => (consume h _ _).liftM_bind fun _ => .pure (Stmt.expression value)

theorem printStatement : Follows tokens k (printStatement expression)
    (liftM (Rule.printStatement expression')) :=
  he.liftM_bind fun value => (consume h _ _).liftM_bind fun _ => .pure (Stmt.print value)

theorem optionalExpression (instead : TokenKind) :
    Follows tokens k (optionalExpression expression instead)
      (liftM (Rule.optionalExpression expression' instead)) := by
  refine check_bind h fun missing => ?_
  split
  · exact .pure none
  · exact he.liftM_map some

theorem returnStatement (keyword : Token) : Follows tokens k (returnStatement expression keyword)
    (liftM (Rule.returnStatement expression' keyword)) :=
  (optionalExpression h he .semicolon).liftM_bind fun value =>
    (consume h _ _).liftM_bind fun _ => .pure (Stmt.returnValue keyword value)

theorem condition (before after : Place) : Follows tokens k (condition expression before after)
    (liftM (Rule.condition expression' before after)) :=
  (consume h _ _).liftM_bind fun _ => he.liftM_bind fun value =>
    (consume h _ _).liftM_bind fun _ => .pure value

theorem forStart :
    Follows tokens k (forStart expression) (liftM (Rule.forStart expression')) := by
  intro i hi hk
  refine liftM_of_first h hi hk (Nat.le_succ k) (fun _ => Pure.pure none)
    (fun t ts hmem => ?_) (fun _ => .pure none) fun hsemicolon => ?_
  · have hkind := List.mem_singleton.mp hmem
    refine (Phrase.bind_of_ok (Phrase.accept?_eq_some_iff.mpr ⟨rfl, by simp [hkind]⟩)).trans ?_
    simp only [hkind, if_true]
  refine liftM_of_first h hi hk (Nat.le_succ k)
    (fun _ => some <$> Rule.variableDeclaration expression') (fun t ts hmem => ?_)
    (fun _ => (variableDeclaration h he).liftM_map some) fun hvar => ?_
  · have hkind := List.mem_singleton.mp hmem
    refine (Phrase.bind_of_ok (Phrase.accept?_eq_some_iff.mpr ⟨rfl, by simp [hkind]⟩)).trans ?_
    simp only [hkind]
    rfl
  · have hread : Rule.forStart expression' (ahead tokens i) =
        (some <$> Rule.expressionStatement expression') (ahead tokens i) := by
      refine Phrase.bind_of_ok (Phrase.accept?_eq_none_iff.mpr ⟨rfl, fun t ht hacc => ?_⟩)
      rcases Bool.or_eq_true_iff.mp hacc with hkind | hkind
      · exact hsemicolon t ht (by simpa using hkind)
      · exact hvar t ht (by simpa using hkind)
    exact ((expressionStatement h he).liftM_map some i hi hk).congr
      (congrArg (Reply.mk []) hread)

end

/-! ### Statements -/

section

variable {declaration : Parser (Option Stmt)} {declaration' : Rule (Option Stmt)}
  (hd : ∀ i < last tokens, last tokens - i < k → FollowsAt tokens i declaration declaration')
  (hadvances : Rule.Advances declaration')

include hd hadvances

omit h in
/-- Declarations are only read where a token is ahead, and each of them moves on. -/
theorem declarations {stops : Parser Bool} (stop : List Token → Bool) (hnil : stop [])
    (hstops : ∀ i ≤ last tokens, ∀ reported, stops.on tokens.toArray ⟨i, reported⟩ =
      (.ok (stop (ahead tokens i)), ⟨i, reported⟩))
    {l n m : Nat} (hl : l ≤ k) (hn : l ≤ n) (hm : l ≤ m + 1) :
    Follows tokens l (declarations declaration stops n)
      (Rule.declarations declaration' stop m) := by
  induction n generalizing l m with
  | zero => exact fun i hi hlt => absurd (Nat.lt_of_lt_of_le hlt hn) (Nat.not_lt_zero _)
  | succ n ih =>
    intro i hi hlt
    rw [Parser.declarations]
    refine .of_look ?_ (hstops i hi)
    by_cases hstop : stop (ahead tokens i)
    · rw [if_pos hstop]
      refine (FollowsAt.pure hi []).congr ?_
      cases m with
      | zero => rfl
      | succ m => exact Rule.declarations_of_stop _ hstop m
    -- A token is ahead, so that both bounds go down and the first declaration moves on.
    · have hne : ahead tokens i ≠ [] := fun hahead => hstop (hahead ▸ hnil)
      have hpos := List.length_pos_iff.mpr hne
      rw [length_ahead] at hpos
      obtain ⟨l, rfl⟩ : ∃ l', l = l' + 1 := ⟨l - 1, by omega⟩
      obtain ⟨m, rfl⟩ : ∃ m', m = m' + 1 := ⟨m - 1, by omega⟩
      rw [if_neg hstop]
      refine FollowsAt.congr ?_ (Rule.declarations_of_not_stop _ hstop m)
      refine (hd i (by omega) (by omega)).bind fun first j hij hj hread => ?_
      have hanswers : Rule.Answers declaration' (ahead tokens i)
          (declaration' (ahead tokens i)).faults first (ahead tokens j) := by
        rw [Rule.Answers, ← hread]
      have hless := hadvances hanswers hne
      rw [length_ahead, length_ahead] at hless
      have hothers := ih (Nat.le_of_succ_le hl) (Nat.le_of_succ_le_succ hn)
        (Nat.le_of_succ_le_succ hm) j hj (by omega)
      exact hothers.bind fun others j' _ hj' _ => .pure hj' (first.toList ++ others)

omit hd hadvances in
theorem on_blockEnds : ∀ i ≤ last tokens, ∀ reported, blockEnds.on tokens.toArray ⟨i, reported⟩ =
    (.ok (Rule.blockEnds (ahead tokens i)), ⟨i, reported⟩) := by
  intro i hi reported
  rw [blockEnds, on_bind, on_check_ahead h hi]
  rcases hahead : ahead tokens i with _ | ⟨t, ts⟩
  · exact (on_isAtEnd_ahead h hi reported).trans (by rw [hahead]; rfl)
  · by_cases hkind : t.kind = .rightBrace
    · simp [Rule.blockEnds, hkind]
    · refine Eq.trans ?_ ((on_isAtEnd_ahead h hi reported).trans ?_)
      · simp [hkind]
      · simp [Rule.blockEnds, hkind, hahead]

theorem block {n m : Nat} (hn : k ≤ n) (hm : k ≤ m + 1) :
    Follows tokens k (block n declaration) (Rule.block declaration' m) := by
  refine (declarations hd hadvances _ rfl (on_blockEnds h) (Nat.le_refl k) hn hm).bind ?_
  exact fun body => (consume h _ _).bind fun _ => .pure body

theorem functionDeclaration {n m : Nat} (hn : k ≤ n) (hm : k ≤ m + 1) :
    Follows tokens k (functionDeclaration n declaration)
      (Rule.functionDeclaration declaration' m) := by
  refine (consume h _ _).bind fun target => (consume h _ _).bind fun _ => ?_
  refine (listed h (consume h _ _) .parameters).bind fun parameters => ?_
  refine (consume h _ _).bind fun _ => (consume h _ _).bind fun _ => ?_
  exact (block h hd hadvances hn hm).bind fun body => .pure (Stmt.function target parameters body)

end

section

variable {expression : Parser Expr} {expression' : Phrase Expr} {statement : Parser Stmt}
  {statement' : Rule Stmt} (he : Follows tokens k expression (liftM expression'))
  (hs : Follows tokens k statement statement')

include he hs

theorem ifStatement : Follows tokens k (ifStatement expression statement)
    (Rule.ifStatement expression' statement') := by
  refine (condition h he _ _).bind fun value => hs.bind fun yes => ?_
  refine accept_bind h (fun kind => by simp) (Nat.le_succ k) (fun keyword => ?_) ?_
  · exact hs.bind fun no => .pure (Stmt.branch value yes (some no))
  · exact .pure (Stmt.branch value yes none)

theorem whileStatement : Follows tokens k (whileStatement expression statement)
    (Rule.whileStatement expression' statement') :=
  (condition h he _ _).bind fun value => hs.bind fun body => .pure (Stmt.loop value body)

theorem forStatement : Follows tokens k (forStatement expression statement)
    (Rule.forStatement expression' statement') := by
  refine (consume h _ _).bind fun _ => (forStart h he).bind fun start => ?_
  refine (optionalExpression h he _).bind fun value => (consume h _ _).bind fun _ => ?_
  refine (optionalExpression h he _).bind fun step => (consume h _ _).bind fun _ => ?_
  exact hs.bind fun body => .pure (Stmt.forLoop start value step body)

end

section

variable {expression : Parser Expr} {expression' : Phrase Expr} {statement : Parser Stmt}
  {statement' : Rule Stmt} {declaration : Parser (Option Stmt)}
  {declaration' : Rule (Option Stmt)}
  (he : Follows tokens (k + 1) expression (liftM expression'))
  (hs : Follows tokens k statement statement')
  (hd : ∀ i < last tokens, last tokens - i < k → FollowsAt tokens i declaration declaration')
  (hadvances : Rule.Advances declaration')

include he hs hd hadvances

theorem statementBody {m : Nat} (hm : k ≤ m) :
    Follows tokens (k + 1) (statementBody (k + 1) expression statement declaration)
      (Rule.statementBody expression' statement' declaration' m) := by
  intro i hi hk
  have hinner := he.mono (Nat.le_succ k)
  have hblock := (block h hd hadvances (Nat.le_succ k) (Nat.le_succ_of_le hm)).map Stmt.block
  refine of_first h hi hk (Nat.le_refl _) _ (fun t ts hmem => ?_)
    (fun _ => forStatement h hinner hs) fun hfor => ?_
  · rw [Rule.statementBody, List.mem_singleton.mp hmem]
  refine of_first h hi hk (Nat.le_refl _) _ (fun t ts hmem => ?_)
    (fun _ => ifStatement h hinner hs) fun hif => ?_
  · rw [Rule.statementBody, List.mem_singleton.mp hmem]
  refine of_first h hi hk (Nat.le_refl _) _ (fun t ts hmem => ?_)
    (fun _ => printStatement h hinner) fun hprint => ?_
  · rw [Rule.statementBody, List.mem_singleton.mp hmem]
  refine of_first h hi hk (Nat.le_refl _) _ (fun t ts hmem => ?_)
    (fun keyword => returnStatement h hinner keyword) fun hreturn => ?_
  · rw [Rule.statementBody, List.mem_singleton.mp hmem]
  refine of_first h hi hk (Nat.le_refl _) _ (fun t ts hmem => ?_)
    (fun _ => whileStatement h hinner hs) fun hwhile => ?_
  · rw [Rule.statementBody, List.mem_singleton.mp hmem]
  refine of_first h hi hk (Nat.le_refl _) _ (fun t ts hmem => ?_) (fun _ => hblock) fun hbrace => ?_
  · rw [Rule.statementBody, List.mem_singleton.mp hmem]
  · refine (expressionStatement h he i hi hk).congr ?_
    rcases hahead : ahead tokens i with _ | ⟨t, ts⟩
    · rfl
    · rw [hahead] at hfor hif hprint hreturn hwhile hbrace
      rw [Rule.statementBody]
      split <;> simp_all

theorem declarationBody {m : Nat} (hm : k ≤ m) :
    Follows tokens (k + 1) (declarationBody (k + 1) expression statement declaration)
      (Rule.declarationBody expression' statement' declaration' m) := by
  intro i hi hk
  have hfunction := functionDeclaration h hd hadvances (Nat.le_succ k) (Nat.le_succ_of_le hm)
  refine of_first h hi hk (Nat.le_refl _) _ (fun t ts hmem => ?_)
    (fun _ => hfunction) fun hfun => ?_
  · rw [Rule.declarationBody, List.mem_singleton.mp hmem]
  refine of_first h hi hk (Nat.le_refl _) _ (fun t ts hmem => ?_)
    (fun _ => variableDeclaration h (he.mono (Nat.le_succ k))) fun hvar => ?_
  · rw [Rule.declarationBody, List.mem_singleton.mp hmem]
  · refine (statementBody h he hs hd hadvances hm i hi hk).congr ?_
    rcases hahead : ahead tokens i with _ | ⟨t, ts⟩
    · rfl
    · rw [hahead] at hfun hvar
      rw [Rule.declarationBody]
      split <;> simp_all

end

end

end Follows

/-! ### Closing the circle -/

section

variable {tokens : List Token} (h : ∃ t ∈ tokens, t.kind = .eof)

include h

private theorem follows {n : Nat} (hn : last tokens ≤ n) {k : Nat} (hk : k ≤ n + 1) :
    Follows tokens k (statement k) (Rule.statement n) ∧
      ∀ i < last tokens, last tokens - i < k →
        FollowsAt tokens i (declaration k) (Rule.declaration n) := by
  -- Statements and declarations nest each other, so that both are carried along. What they nest has
  -- fewer tokens ahead, behind a keyword or a brace.
  induction k with
  | zero =>
    exact ⟨fun i hi hlt => absurd hlt (Nat.not_lt_zero _),
      fun i hi hlt => absurd hlt (Nat.not_lt_zero _)⟩
  | succ k ih =>
    obtain ⟨hs, hd⟩ := ih (Nat.le_of_succ_le hk)
    have he := Follows.expression h hn hk
    have hadvances := Rule.declaration_advances n
    have hm := Nat.le_of_succ_le_succ hk
    have hlength : ∀ i, (ahead tokens i).length ≤ n :=
      fun i => Nat.le_trans (length_ahead_le tokens i) hn
    refine ⟨fun i hi hlt => ?_, fun i hi hlt => ?_⟩
    · exact (Follows.statementBody h he hs hd hadvances hm i hi hlt).congr
        (Rule.statement_eq (hlength i))
    · have hbody := Follows.declarationBody h he hs hd hadvances hm i (Nat.le_of_lt hi) hlt
      exact (hbody.recover h hi (by omega)).congr (Rule.declaration_eq (hlength i))

section

variable {i n : Nat}

/-- A parser for **expressions** follows the rule for expressions. -/
theorem FollowsAt.expression (hi : i ≤ last tokens) (hn : last tokens - i < n) :
    FollowsAt tokens i (expression n) (liftM (Phrase.expression (last tokens))) := by
  have hle := Nat.le_max_left (last tokens) n
  have hread := Follows.expression h hle (Nat.le_succ_of_le (Nat.le_max_right _ _)) i hi hn
  exact hread.congr (congrArg (Reply.mk []) (Phrase.expression_agree hle (length_ahead_le _ _)))

/-- A parser for **statements** follows the rule for statements. -/
theorem FollowsAt.statement (hi : i ≤ last tokens) (hn : last tokens - i < n) :
    FollowsAt tokens i (statement n) (Rule.statement (last tokens)) := by
  have hle := Nat.le_max_left (last tokens) n
  have hread := (follows h hle (Nat.le_succ_of_le (Nat.le_max_right _ _))).1 i hi hn
  exact hread.congr (Rule.statement_agree hle (length_ahead_le _ _))

/-- A parser for **declarations** follows the rule for declarations, if it does not start at the
end. -/
theorem FollowsAt.declaration (hi : i < last tokens) (hn : last tokens - i < n) :
    FollowsAt tokens i (declaration n) (Rule.declaration (last tokens)) := by
  have hle := Nat.le_max_left (last tokens) n
  have hread := (follows h hle (Nat.le_succ_of_le (Nat.le_max_right _ _))).2 i hi hn
  exact hread.congr (Rule.declaration_agree hle (length_ahead_le _ _))

/-- A parser for **programs** follows the rule for programs. -/
theorem FollowsAt.program (hn : last tokens < n) : FollowsAt tokens 0 (program n) Rule.program := by
  have hdeclarations := Follows.declarations (m := last tokens)
    (fun i hi hlt => FollowsAt.declaration h hi hlt) (Rule.declaration_advances _) List.isEmpty rfl
    (fun i hi => on_isAtEnd_ahead h hi) hn hn (Nat.le_refl _)
  refine (hdeclarations 0 (Nat.zero_le _) (Nat.lt_succ_self _)).congr ?_
  rw [ahead_zero]
  rfl

end

end

end Parser

namespace Parse

/-- An end token behind a list without one leaves what is in front of the first end token. -/
theorem ended_spec (tokens : List Token) : (∃ t ∈ ended tokens, t.kind = .eof) ∧
    body (ended tokens) = body tokens ∧ ending (ended tokens) = ending tokens := by
  rw [ended]
  split
  · next h =>
    obtain ⟨t, ht, hkind⟩ := List.any_eq_true.mp h
    exact ⟨⟨t, ht, of_decide_eq_true hkind⟩, rfl, rfl⟩
  · next h =>
    have hnone : ∀ t ∈ tokens, t.kind ≠ .eof := fun t ht hkind =>
      h (List.any_eq_true.mpr ⟨t, ht, decide_eq_true hkind⟩)
    refine ⟨⟨.atEnd 1, by simp, rfl⟩, ?_, ?_⟩
    · rw [body_append_cons hnone rfl, body]
      have hall : (tokens ++ []).takeWhile (fun t => t.kind != TokenKind.eof) = tokens ++ [] :=
        List.takeWhile_append_of_pos fun t ht => bne_iff_ne.mpr (hnone t ht)
      rw [List.append_nil] at hall
      exact hall.symm
    · rw [ending_append_cons hnone rfl, ending,
        List.find?_eq_none.mpr fun t ht => by simpa using hnone t ht]
      rfl

theorem last_lt_length {tokens : List Token} (h : ∃ t ∈ tokens, t.kind = .eof) :
    last tokens < tokens.length :=
  (List.getElem?_eq_some_iff.mp (getElem?_last h)).1

/-- **To parse** a list is to read the program in front of its first end token. -/
theorem ofTokens_eq {tokens rest : List Token} {faults : List SyntaxFault}
    {statements : List Stmt}
    (h : Rule.program (body tokens) = ⟨faults, .ok (statements, rest)⟩) :
    ofTokens tokens = ⟨statements, faults.map (SyntaxFault.diagnostic (ending tokens))⟩ := by
  obtain ⟨hended, hbody, hending⟩ := ended_spec tokens
  obtain ⟨j, -, -, -, hon⟩ := Parser.FollowsAt.program hended (last_lt_length hended)
  rw [ofTokens, hon, ahead_zero, hbody, h]
  simp [Reply.outcome, Reply.registered, Parser.shown, hending]

/-- Tokens with an end token behind them are parsed as they are read. -/
theorem ofTokens_append_singleton {ts rest : List Token} {end_ : Token}
    {faults : List SyntaxFault} {statements : List Stmt} (hts : ∀ t ∈ ts, t.kind ≠ .eof)
    (hend : end_.kind = .eof) (h : Rule.program ts = ⟨faults, .ok (statements, rest)⟩) :
    ofTokens (ts ++ [end_]) = ⟨statements, faults.map (SyntaxFault.diagnostic end_)⟩ := by
  have hbody : body (ts ++ [end_]) = ts := body_append_cons hts hend []
  rw [ofTokens_eq (hbody.symm ▸ h), ending_append_cons hts hend []]

/-- What is reported are the **faults** of the program in front of the first end token. -/
theorem diagnostics_ofTokens (tokens : List Token) : (ofTokens tokens).diagnostics =
    (Rule.program (body tokens)).faults.map (SyntaxFault.diagnostic (ending tokens)) := by
  obtain ⟨faults, ss, hprogram⟩ := Rule.answers_program (body tokens)
  rw [ofTokens_eq hprogram, hprogram]

end Parse

end LoxLang
