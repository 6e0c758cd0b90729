import LoxLang.Proofs.Syntax.Grammar
import LoxLang.Proofs.Syntax.Progress

/-!
# What is read derives

Whatever a phrase reads is derived by the grammar from the tokens it took. A rule that recovers from
faults inside takes more: what it answers derives from the tokens it **keeps**, which are those it
took without those of the declarations it dropped. The main statements are
`Phrase.expression_sound`, `Rule.statement_sound` and `Rule.declaration_sound`.
-/

namespace LoxLang

open Grammar

namespace Phrase

/-- The phrase is **sound** for a rule of the grammar: the tokens it takes derive what it reads. -/
def Sound {α : Type} (rule : List Token → α → Prop) (p : Phrase α) : Prop :=
  ∀ ⦃ts a rest⦄, p ts = .ok (a, rest) → ∃ used, ts = used ++ rest ∧ rule used a

variable {α : Type}

/-! ### Lists -/

/-- One to `limit` items, if each of them is read soundly. -/
theorem Sound.commaList {rule : List Token → α → Prop} {item : Phrase α} (h : item.Sound rule)
    (list : Listed) (limit : Nat) :
    (Phrase.commaList list item limit).Sound fun us as =>
      Items rule us as ∧ as.length ≤ limit ∧ as ≠ [] := by
  induction limit with
  | zero =>
    intro ts as rest hread
    cases hread
  | succ limit ih =>
    intro ts as rest hread
    obtain ⟨a, middle, ha, htail⟩ := bind_eq_ok_iff.mp hread
    obtain ⟨used, rfl, hrule⟩ := h ha
    obtain ⟨comma?, behind, hcomma, hrest⟩ := bind_eq_ok_iff.mp htail
    cases comma? with
    | none =>
      obtain ⟨rfl, rfl⟩ := pure_eq_ok_iff.mp hrest
      obtain ⟨rfl, -⟩ := accept?_eq_none_iff.mp hcomma
      have hitems : Items rule used [a] :=
        ⟨[(used, a)], List.forall_mem_singleton.mpr hrule, .one, rfl⟩
      exact ⟨used, rfl, hitems, Nat.le_add_left 1 limit, List.cons_ne_nil _ _⟩
    | some comma =>
      obtain ⟨rfl, hkind⟩ := accept?_eq_some_iff.mp hcomma
      obtain ⟨others, end_, hothers, hpure⟩ := bind_eq_ok_iff.mp hrest
      obtain ⟨rfl, rfl⟩ := pure_eq_ok_iff.mp hpure
      obtain ⟨used', rfl, hitems, hlength, hne⟩ := ih hothers
      refine ⟨used ++ comma :: used', by simp, ?_, Nat.succ_le_succ hlength, List.cons_ne_nil _ _⟩
      exact hitems.cons hrule (of_decide_eq_true hkind) hne

/-- A list of at most `maxArguments` items, if each of them is read soundly. -/
theorem Sound.listed {rule : List Token → α → Prop} {item : Phrase α} (h : item.Sound rule)
    (list : Listed) :
    (Phrase.listed list item).Sound fun us as => Items rule us as ∧ as.length ≤ maxArguments := by
  intro ts as rest hread
  obtain ⟨closes, middle, hahead, hlist⟩ := bind_eq_ok_iff.mp hread
  cases hahead
  split at hlist
  · obtain ⟨rfl, rfl⟩ := pure_eq_ok_iff.mp hlist
    exact ⟨[], rfl, ⟨[], by simp, .none, rfl⟩, Nat.zero_le _⟩
  · obtain ⟨used, rfl, hitems, hlength, -⟩ := h.commaList list maxArguments hlist
    exact ⟨used, rfl, hitems, hlength⟩

/-! ### Levels of binary operators -/

section

variable {level level' : Level} (hlevel : level.tighter? = some level')
  {operators : TokenKind → Bool} (hoperators : ∀ {kind}, operators kind → kind ∈ level.operators)
  {operand : Phrase Expr}
  (hoperand : operand.Sound (Expression level'))

include hlevel hoperators hoperand

/-- Behind tokens that derive the left operand, operators and operands are read soundly. -/
theorem chain_sound (n : Nat) {front ts rest : List Token} {left e : Expr}
    (hleft : Expression level front left)
    (h : chain operators level.combine operand n left ts = .ok (e, rest)) :
    ∃ used, ts = used ++ rest ∧ Expression level (front ++ used) e := by
  induction n generalizing front ts left with
  | zero =>
    obtain ⟨rfl, rfl⟩ := pure_eq_ok_iff.mp h
    exact ⟨[], rfl, by rwa [List.append_nil]⟩
  | succ n ih =>
    obtain ⟨op?, middle, hop, htail⟩ := bind_eq_ok_iff.mp h
    cases op? with
    | none =>
      obtain ⟨rfl, rfl⟩ := pure_eq_ok_iff.mp htail
      obtain ⟨rfl, -⟩ := accept?_eq_none_iff.mp hop
      exact ⟨[], rfl, by rwa [List.append_nil]⟩
    | some op =>
      obtain ⟨rfl, hkind⟩ := accept?_eq_some_iff.mp hop
      obtain ⟨right, behind, hreads, hchain⟩ := bind_eq_ok_iff.mp htail
      obtain ⟨used, rfl, hright⟩ := hoperand hreads
      -- What was read so far is the left operand of the next operator.
      have hcombined : Expression level (front ++ op :: used) (level.combine left op right) :=
        .operation hlevel hleft (hoperators hkind) hright
      obtain ⟨used', rfl, he⟩ := ih hcombined hchain
      exact ⟨op :: used ++ used', by simp, by simpa using he⟩

/-- A level of binary operators is sound if the next level is. -/
theorem leftAssociative_sound (n : Nat) :
    (leftAssociative n operators level.combine operand).Sound (Expression level) := by
  intro ts e rest h
  obtain ⟨left, middle, hreads, hchain⟩ := bind_eq_ok_iff.mp h
  obtain ⟨used, rfl, hleft⟩ := hoperand hreads
  obtain ⟨used', rfl, he⟩ := chain_sound hlevel hoperators hoperand n (.tighter hlevel hleft) hchain
  exact ⟨used ++ used', by simp, he⟩

end

/-! ### The other levels -/

section

variable {expression : Phrase Expr} (h : expression.Sound (Expression .assignment))

include h

theorem primary_sound : (primary expression).Sound (Expression .primary) := by
  intro ts e rest hread
  cases ts with
  | nil => cases hread
  | cons t ts =>
    rw [primary] at hread
    split at hread
    · next hkind => cases hread; exact ⟨[t], rfl, .false_ hkind⟩
    · next hkind => cases hread; exact ⟨[t], rfl, .true_ hkind⟩
    · next hkind => cases hread; exact ⟨[t], rfl, .nil_ hkind⟩
    · next hkind => cases hread; exact ⟨[t], rfl, .number hkind⟩
    · next hkind => cases hread; exact ⟨[t], rfl, .string hkind⟩
    · next hkind => cases hread; exact ⟨[t], rfl, .name hkind⟩
    · next hkind =>
      obtain ⟨inner, middle, hreads, htail⟩ := bind_eq_ok_iff.mp hread
      obtain ⟨used, rfl, hinner⟩ := h hreads
      obtain ⟨closing, behind, rfl, hclosing, hpure⟩ := expect_bind_eq_ok_iff.mp htail
      obtain ⟨rfl, rfl⟩ := pure_eq_ok_iff.mp hpure
      exact ⟨t :: used ++ [closing], by simp, .grouping hkind hinner hclosing⟩
    · cases hread

theorem callChain_sound (n : Nat) {front ts rest : List Token} {callee e : Expr}
    (hcallee : Expression .call front callee)
    (hread : callChain expression n callee ts = .ok (e, rest)) :
    ∃ used, ts = used ++ rest ∧ Expression .call (front ++ used) e := by
  induction n generalizing front ts callee with
  | zero =>
    obtain ⟨rfl, rfl⟩ := pure_eq_ok_iff.mp hread
    exact ⟨[], rfl, by rwa [List.append_nil]⟩
  | succ n ih =>
    obtain ⟨opening?, middle, hopening, htail⟩ := bind_eq_ok_iff.mp hread
    cases opening? with
    | none =>
      obtain ⟨rfl, rfl⟩ := pure_eq_ok_iff.mp htail
      obtain ⟨rfl, -⟩ := accept?_eq_none_iff.mp hopening
      exact ⟨[], rfl, by rwa [List.append_nil]⟩
    | some opening =>
      obtain ⟨rfl, hkind⟩ := accept?_eq_some_iff.mp hopening
      obtain ⟨arguments, behind, harguments, hclose⟩ := bind_eq_ok_iff.mp htail
      obtain ⟨used, rfl, ⟨items, hitems, hseparated, rfl⟩, hlength⟩ := h.listed _ harguments
      obtain ⟨paren, end_, rfl, hparen, hchain⟩ := expect_bind_eq_ok_iff.mp hclose
      rw [List.length_map] at hlength
      have hcall := Expression.call hcallee (of_decide_eq_true hkind) hitems hseparated hlength
        hparen
      obtain ⟨used', rfl, he⟩ := ih hcall hchain
      exact ⟨opening :: used ++ [paren] ++ used', by simp, by simpa using he⟩

theorem call_sound (n : Nat) : (call n expression).Sound (Expression .call) := by
  intro ts e rest hread
  obtain ⟨callee, middle, hreads, hchain⟩ := bind_eq_ok_iff.mp hread
  obtain ⟨used, rfl, hcallee⟩ := primary_sound h hreads
  obtain ⟨used', rfl, he⟩ := callChain_sound h n (.tighter rfl hcallee) hchain
  exact ⟨used ++ used', by simp, he⟩

theorem unary_sound (n : Nat) : (unary n expression).Sound (Expression .unary) := by
  intro ts e rest hread
  -- Every operator takes a token, so the rule recurses on the tokens.
  induction ts generalizing e rest with
  | nil =>
    obtain ⟨used, hused, he⟩ := call_sound h n hread
    exact ⟨used, hused, .tighter rfl he⟩
  | cons t ts ih =>
    rw [unary] at hread
    split at hread
    · next hkind =>
      cases hreads : unary n expression ts with
      | error e => rw [hreads] at hread; cases hread
      | ok read =>
        obtain ⟨operand, behind⟩ := read
        rw [hreads] at hread
        cases hread
        obtain ⟨used, rfl, hoperand⟩ := ih hreads
        exact ⟨t :: used, rfl, .prefixed (by simpa using hkind) hoperand⟩
    · obtain ⟨used, hused, he⟩ := call_sound h n hread
      exact ⟨used, hused, .tighter rfl he⟩

theorem disjunction_sound (n : Nat) :
    (disjunction n expression).Sound (Expression .disjunction) := by
  -- From the loosest of these levels to the tightest.
  refine leftAssociative_sound rfl (by simp [Level.operators]) ?_ n
  refine leftAssociative_sound rfl (by simp [Level.operators]) ?_ n
  refine leftAssociative_sound rfl (by simp [Level.operators]) ?_ n
  refine leftAssociative_sound rfl (by simp [Level.operators, or_assoc]) ?_ n
  refine leftAssociative_sound rfl (by simp [Level.operators]) ?_ n
  refine leftAssociative_sound rfl (by simp [Level.operators]) ?_ n
  exact unary_sound h n

theorem assignment_sound (n : Nat) : (assignment n expression).Sound (Expression .assignment) := by
  intro ts e rest hread
  obtain ⟨target, middle, hreads, htail⟩ := bind_eq_ok_iff.mp hread
  obtain ⟨used, rfl, htarget⟩ := disjunction_sound h n hreads
  obtain ⟨equals?, behind, hequals, hvalue⟩ := bind_eq_ok_iff.mp htail
  cases equals? with
  | none =>
    obtain ⟨rfl, rfl⟩ := pure_eq_ok_iff.mp hvalue
    obtain ⟨rfl, -⟩ := accept?_eq_none_iff.mp hequals
    exact ⟨used, rfl, .tighter rfl htarget⟩
  | some equals =>
    obtain ⟨rfl, hkind⟩ := accept?_eq_some_iff.mp hequals
    obtain ⟨value, end_, hreads, hassign⟩ := bind_eq_ok_iff.mp hvalue
    obtain ⟨used', rfl, hexpression⟩ := h hreads
    -- The target was read like any expression, but only a name can be assigned to.
    cases target with
    | name t =>
      obtain ⟨rfl, rfl⟩ := pure_eq_ok_iff.mp hassign
      obtain ⟨rfl, ht⟩ := htarget.eq_of_name
      exact ⟨t :: equals :: used', by simp, .assign ht (of_decide_eq_true hkind) hexpression⟩
    | _ => cases hassign

end

/-- What is read as an **expression** derives. -/
theorem expression_sound (n : Nat) : (expression n).Sound (Expression .assignment) := by
  induction n with
  | zero =>
    intro ts e rest hread
    cases hread
  | succ n ih => exact assignment_sound ih n

end Phrase

namespace Rule

/-! ### Parts of statements -/

section

variable {expression : Phrase Expr} (h : expression.Sound (Expression .assignment))

include h

theorem variableDeclaration_sound {var : Token} (hvar : var.kind = .keyword .var_) :
    (variableDeclaration expression).Sound fun us s => VariableDeclaration (var :: us) s := by
  intro ts s rest hread
  obtain ⟨target, middle, rfl, htarget, htail⟩ := Phrase.expect_bind_eq_ok_iff.mp hread
  obtain ⟨equals?, inside, hequals, hvalue⟩ := Phrase.bind_eq_ok_iff.mp htail
  -- With an initializer or without one, the rule goes on with the semicolon.
  have hinitializer : ∃ value us behind, middle = us ++ behind ∧ Optional Initializer us value ∧
      (do
        let _ ← Phrase.symbol .afterDeclaration
        pure (.declare target value) : Phrase Stmt) behind = .ok (s, rest) := by
    cases equals? with
    | none =>
      obtain ⟨value, behind, hpure, hend⟩ := Phrase.bind_eq_ok_iff.mp hvalue
      obtain ⟨rfl, rfl⟩ := Phrase.pure_eq_ok_iff.mp hpure
      obtain ⟨rfl, -⟩ := Phrase.accept?_eq_none_iff.mp hequals
      exact ⟨none, [], _, rfl, .none, hend⟩
    | some equals =>
      obtain ⟨rfl, hkind⟩ := Phrase.accept?_eq_some_iff.mp hequals
      obtain ⟨value, behind, hmap, hend⟩ := Phrase.bind_eq_ok_iff.mp hvalue
      obtain ⟨e, hreads, rfl⟩ := Phrase.map_eq_ok_iff.mp hmap
      obtain ⟨us, rfl, he⟩ := h hreads
      exact ⟨some e, equals :: us, behind, rfl, .some (.mk (of_decide_eq_true hkind) he), hend⟩
  obtain ⟨value, us, behind, rfl, hoptional, hend⟩ := hinitializer
  obtain ⟨semicolon, end_, rfl, hsemicolon, hpure⟩ := Phrase.expect_bind_eq_ok_iff.mp hend
  obtain ⟨rfl, rfl⟩ := Phrase.pure_eq_ok_iff.mp hpure
  exact ⟨target :: us ++ [semicolon], by simp, .mk hvar htarget hoptional hsemicolon⟩

theorem expressionStatement_sound :
    (expressionStatement expression).Sound ExpressionStatement := by
  intro ts s rest hread
  obtain ⟨e, middle, hreads, htail⟩ := Phrase.bind_eq_ok_iff.mp hread
  obtain ⟨us, rfl, he⟩ := h hreads
  obtain ⟨semicolon, behind, rfl, hsemicolon, hpure⟩ := Phrase.expect_bind_eq_ok_iff.mp htail
  obtain ⟨rfl, rfl⟩ := Phrase.pure_eq_ok_iff.mp hpure
  exact ⟨us ++ [semicolon], by simp, .mk he hsemicolon⟩

theorem printStatement_sound {keyword : Token} (hkeyword : keyword.kind = .keyword .print_) :
    (printStatement expression).Sound fun us s =>
      Statement (.statement false) (keyword :: us) s := by
  intro ts s rest hread
  obtain ⟨e, middle, hreads, htail⟩ := Phrase.bind_eq_ok_iff.mp hread
  obtain ⟨us, rfl, he⟩ := h hreads
  obtain ⟨semicolon, behind, rfl, hsemicolon, hpure⟩ := Phrase.expect_bind_eq_ok_iff.mp htail
  obtain ⟨rfl, rfl⟩ := Phrase.pure_eq_ok_iff.mp hpure
  exact ⟨us ++ [semicolon], by simp, .print hkeyword he hsemicolon⟩

theorem optionalExpression_sound (instead : TokenKind) :
    (optionalExpression expression instead).Sound (Optional (Expression .assignment)) := by
  intro ts value rest hread
  obtain ⟨absent, middle, hahead, hvalue⟩ := Phrase.bind_eq_ok_iff.mp hread
  cases hahead
  split at hvalue
  · obtain ⟨rfl, rfl⟩ := Phrase.pure_eq_ok_iff.mp hvalue
    exact ⟨[], rfl, .none⟩
  · obtain ⟨e, hreads, rfl⟩ := Phrase.map_eq_ok_iff.mp hvalue
    obtain ⟨us, rfl, he⟩ := h hreads
    exact ⟨us, rfl, .some he⟩

theorem returnStatement_sound {keyword : Token} (hkeyword : keyword.kind = .keyword .return_) :
    (returnStatement expression keyword).Sound fun us s =>
      Statement (.statement false) (keyword :: us) s := by
  intro ts s rest hread
  obtain ⟨value, middle, hreads, htail⟩ := Phrase.bind_eq_ok_iff.mp hread
  obtain ⟨us, rfl, hvalue⟩ := optionalExpression_sound h _ hreads
  obtain ⟨semicolon, behind, rfl, hsemicolon, hpure⟩ := Phrase.expect_bind_eq_ok_iff.mp htail
  obtain ⟨rfl, rfl⟩ := Phrase.pure_eq_ok_iff.mp hpure
  exact ⟨us ++ [semicolon], by simp, .returnValue hkeyword hvalue hsemicolon⟩

/-- A condition is an expression in parentheses. -/
theorem condition_sound {before after : Place} (hbefore : before.symbol = .leftParen)
    (hafter : after.symbol = .rightParen) :
    (condition expression before after).Sound fun us e => ∃ opening ts closing,
      us = opening :: ts ++ [closing] ∧ opening.kind = .leftParen ∧ Expression .assignment ts e ∧
        closing.kind = .rightParen := by
  intro ts e rest hread
  obtain ⟨opening, middle, rfl, hopening, htail⟩ := Phrase.expect_bind_eq_ok_iff.mp hread
  obtain ⟨value, behind, hreads, hclose⟩ := Phrase.bind_eq_ok_iff.mp htail
  obtain ⟨us, rfl, he⟩ := h hreads
  obtain ⟨closing, end_, rfl, hclosing, hpure⟩ := Phrase.expect_bind_eq_ok_iff.mp hclose
  obtain ⟨rfl, rfl⟩ := Phrase.pure_eq_ok_iff.mp hpure
  exact ⟨opening :: us ++ [closing], by simp, opening, us, closing, rfl, hopening.trans hbefore, he,
    hclosing.trans hafter⟩

theorem forStart_sound : (forStart expression).Sound Start := by
  intro ts start rest hread
  obtain ⟨first?, middle, hfirst, hstart⟩ := Phrase.bind_eq_ok_iff.mp hread
  cases first? with
  | none =>
    obtain ⟨rfl, -⟩ := Phrase.accept?_eq_none_iff.mp hfirst
    obtain ⟨s, hreads, rfl⟩ := Phrase.map_eq_ok_iff.mp hstart
    obtain ⟨us, rfl, hs⟩ := expressionStatement_sound h hreads
    exact ⟨us, rfl, .expression hs⟩
  | some first =>
    obtain ⟨rfl, hkind⟩ := Phrase.accept?_eq_some_iff.mp hfirst
    dsimp only at hstart
    split at hstart
    · next hsemicolon =>
      obtain ⟨rfl, rfl⟩ := Phrase.pure_eq_ok_iff.mp hstart
      exact ⟨[first], rfl, .none hsemicolon⟩
    · next hsemicolon =>
      have hvar : first.kind = .keyword .var_ := by simpa [hsemicolon] using hkind
      obtain ⟨s, hreads, rfl⟩ := Phrase.map_eq_ok_iff.mp hstart
      obtain ⟨us, rfl, hs⟩ := variableDeclaration_sound h hvar hreads
      exact ⟨first :: us, rfl, .declaration hs⟩

end

/-! ### What is kept -/

/-- Of the tokens that a rule took from the front of `ts`, it **keeps** these: all of them if there
were no faults. -/
def Keeps (ts : List Token) (faults : List SyntaxFault) (kept rest : List Token) : Prop :=
  ∃ used, ts = used ++ rest ∧ kept.Sublist used ∧ (faults = [] → kept = used)

namespace Keeps

variable {ts middle rest kept kept' : List Token} {faults faults' : List SyntaxFault}

theorem of_append (used rest : List Token) : Keeps (used ++ rest) [] used rest :=
  ⟨used, rfl, List.Sublist.refl used, fun _ => rfl⟩

/-- Nothing is kept of tokens that were skipped after a fault. -/
theorem skipped (h : rest <:+ ts) (hfaults : faults ≠ []) : Keeps ts faults [] rest := by
  obtain ⟨used, rfl⟩ := h
  exact ⟨used, rfl, List.nil_sublist used, fun hnone => absurd hnone hfaults⟩

theorem append (h : Keeps ts faults kept middle) (h' : Keeps middle faults' kept' rest) :
    Keeps ts (faults ++ faults') (kept ++ kept') rest := by
  obtain ⟨used, rfl, hsublist, hall⟩ := h
  obtain ⟨used', rfl, hsublist', hall'⟩ := h'
  refine ⟨used ++ used', by rw [List.append_assoc], hsublist.append hsublist', fun hnone => ?_⟩
  obtain ⟨hnone, hnone'⟩ := List.append_eq_nil_iff.mp hnone
  rw [hall hnone, hall' hnone']

/-- Tokens that were read in front are kept. -/
theorem behind (used : List Token) (h : Keeps ts faults kept rest) :
    Keeps (used ++ ts) faults (used ++ kept) rest :=
  (of_append used ts).append h

/-- Without faults, all tokens are kept. -/
theorem eq_append (h : Keeps ts [] kept rest) : ts = kept ++ rest := by
  obtain ⟨used, rfl, -, hall⟩ := h
  rw [hall rfl]

/-- What was kept is part of the tokens. -/
theorem sublist (h : Keeps ts faults kept rest) : kept.Sublist ts := by
  obtain ⟨used, rfl, hsublist, -⟩ := h
  exact hsublist.trans (List.sublist_append_left used rest)

/-- Where something was kept, fewer tokens are left. -/
theorem length_lt (h : Keeps ts faults kept rest) (hne : kept ≠ []) : rest.length < ts.length := by
  obtain ⟨used, rfl, hsublist, -⟩ := h
  have hlength := hsublist.length_le
  have hpos := List.length_pos_iff.mpr hne
  rw [List.length_append]
  omega

end Keeps

/-! ### Statements -/

/-- The rule reads statements soundly: they derive from what it keeps, and no `else` stands behind
one that is dangling. -/
def SoundStatement (r : Rule Stmt) : Prop :=
  ∀ ⦃ts faults s rest⦄, Answers r ts faults s rest → ∃ kept dangling, Keeps ts faults kept rest ∧
    Statement (.statement dangling) kept s ∧
      (dangling = true → ∀ t ∈ rest.head?, t.kind ≠ .keyword .else_)

/-- The rule reads declarations soundly: they derive from what it keeps, and of one that it drops it
keeps nothing, for there was a fault. -/
def SoundDeclaration (r : Rule (Option Stmt)) : Prop :=
  ∀ ⦃ts faults o rest⦄, Answers r ts faults o rest → ∃ kept, Keeps ts faults kept rest ∧
    ((∃ s, o = some s ∧ Statement .declaration kept s) ∨ o = none ∧ kept = [] ∧ faults ≠ [])

theorem declarations_sound {declaration : Rule (Option Stmt)} (h : SoundDeclaration declaration)
    (stop : List Token → Bool) (n : Nat) {ts rest : List Token} {faults : List SyntaxFault}
    {ss : List Stmt} (hanswers : Answers (declarations declaration stop n) ts faults ss rest) :
    ∃ pieces : List (List Token × Stmt), Keeps ts faults (pieces.flatMap Prod.fst) rest ∧
      ss = pieces.map Prod.snd ∧ ∀ piece ∈ pieces, Statement .declaration piece.1 piece.2 := by
  induction n generalizing ts faults ss with
  | zero =>
    obtain ⟨rfl, rfl, rfl⟩ := answers_pure_iff.mp hanswers
    exact ⟨[], .of_append [] ts, rfl, by simp⟩
  | succ n ih =>
    rw [Answers] at hanswers
    by_cases hstop : stop ts
    · rw [declarations_of_stop _ hstop] at hanswers
      cases hanswers
      exact ⟨[], .of_append [] rest, rfl, by simp⟩
    · rw [declarations_of_not_stop _ hstop] at hanswers
      obtain ⟨φ, o, middle, φ', hfirst, htail, rfl⟩ := answers_bind_iff.mp hanswers
      obtain ⟨others, hothers, rfl⟩ := answers_map_iff.mp htail
      obtain ⟨pieces, hkeeps', rfl, hpieces⟩ := ih hothers
      obtain ⟨kept, hkeeps, ⟨s, rfl, hs⟩ | ⟨rfl, rfl, -⟩⟩ := h hfirst
      · refine ⟨(kept, s) :: pieces, hkeeps.append hkeeps', rfl, ?_⟩
        exact List.forall_mem_cons.mpr ⟨hs, hpieces⟩
      · exact ⟨pieces, hkeeps.append hkeeps', rfl, hpieces⟩

section

variable {expression : Phrase Expr} {statement : Rule Stmt} {declaration : Rule (Option Stmt)}
  (he : expression.Sound (Expression .assignment)) (hs : SoundStatement statement)
  (hd : SoundDeclaration declaration)

include hd in
theorem block_sound (n : Nat) {ts rest : List Token} {faults : List SyntaxFault}
    {body : List Stmt} (hanswers : Answers (block declaration n) ts faults body rest) :
    ∃ (pieces : List (List Token × Stmt)) (right : Token),
      Keeps ts faults (pieces.flatMap Prod.fst ++ [right]) rest ∧ body = pieces.map Prod.snd ∧
        (∀ piece ∈ pieces, Statement .declaration piece.1 piece.2) ∧ right.kind = .rightBrace := by
  obtain ⟨φ, ss, middle, φ', hbody, htail, rfl⟩ := answers_bind_iff.mp hanswers
  obtain ⟨pieces, hkeeps, rfl, hpieces⟩ := declarations_sound hd _ n hbody
  obtain ⟨right, behind, rfl, hright, hpure⟩ := answers_expect_bind_iff.mp htail
  obtain ⟨rfl, rfl, rfl⟩ := answers_pure_iff.mp hpure
  exact ⟨pieces, right, hkeeps.append (.of_append [right] behind), rfl, hpieces, hright⟩

/-- A list of single tokens, with commas between them. -/
private theorem separated_of_items {us parameters : List Token}
    (h : Items (fun ts t => ts = [t] ∧ t.kind = .identifier) us parameters) :
    Separated (parameters.map ([·])) us ∧ ∀ t ∈ parameters, t.kind = .identifier := by
  obtain ⟨items, hitems, hseparated, rfl⟩ := h
  have hmap : items.map Prod.fst = (items.map Prod.snd).map ([·]) := by
    rw [List.map_map]
    exact List.map_congr_left fun item hitem => (hitems item hitem).1
  rw [← hmap]
  refine ⟨hseparated, fun t ht => ?_⟩
  obtain ⟨item, hitem, rfl⟩ := List.mem_map.mp ht
  exact (hitems item hitem).2

include hd in
theorem functionDeclaration_sound (n : Nat) {fun_ : Token} (hfun : fun_.kind = .keyword .fun_)
    {ts rest : List Token} {faults : List SyntaxFault} {s : Stmt}
    (hanswers : Answers (functionDeclaration declaration n) ts faults s rest) :
    ∃ kept, Keeps ts faults kept rest ∧ Statement .declaration (fun_ :: kept) s := by
  have hname : (Phrase.identifier .parameter).Sound
      fun ts t => ts = [t] ∧ t.kind = .identifier := by
    intro ts t rest hread
    obtain ⟨rfl, ht⟩ := Phrase.expect_eq_ok_iff.mp hread
    exact ⟨[t], rfl, rfl, ht⟩
  obtain ⟨target, ts₁, rfl, htarget, h₁⟩ := answers_expect_bind_iff.mp hanswers
  obtain ⟨opening, ts₂, rfl, hopening, h₂⟩ := answers_expect_bind_iff.mp h₁
  obtain ⟨parameters, ts₃, hlist, h₃⟩ := answers_liftM_bind_iff.mp h₂
  obtain ⟨us, rfl, hitems, hlength⟩ := hname.listed _ hlist
  obtain ⟨hseparated, hidentifiers⟩ := separated_of_items hitems
  obtain ⟨closing, ts₄, rfl, hclosing, h₄⟩ := answers_expect_bind_iff.mp h₃
  obtain ⟨left, ts₅, rfl, hleft, h₅⟩ := answers_expect_bind_iff.mp h₄
  obtain ⟨body, hbody, rfl⟩ := answers_map_iff.mp h₅
  obtain ⟨pieces, right, hkeeps, rfl, hpieces, hright⟩ := block_sound hd n hbody
  have htokens := hkeeps.behind (target :: opening :: us ++ [closing, left])
  simp only [List.cons_append, List.append_assoc, List.nil_append] at htokens
  refine ⟨_, htokens, ?_⟩
  have hfunction := Statement.function hfun htarget hopening hidentifiers hseparated hlength
    hclosing hleft hpieces hright
  simpa using hfunction

/-- The rule reads statements soundly that begin with the token `t`, which it does not read. -/
private def SoundBehind (t : Token) (r : Rule Stmt) : Prop :=
  ∀ ⦃ts faults s rest⦄, Answers r ts faults s rest → ∃ kept dangling, Keeps ts faults kept rest ∧
    Statement (.statement dangling) (t :: kept) s ∧
      (dangling = true → ∀ t ∈ rest.head?, t.kind ≠ .keyword .else_)

/-- A statement that is not dangling may have anything behind it. -/
private theorem soundBehind_of_sound {t : Token} {p : Phrase Stmt}
    (h : p.Sound fun us s => Statement (.statement false) (t :: us) s) :
    SoundBehind t (liftM p) := by
  intro ts faults s rest hanswers
  obtain ⟨rfl, hread⟩ := answers_liftM_iff.mp hanswers
  obtain ⟨used, rfl, hs⟩ := h hread
  exact ⟨used, false, .of_append used rest, hs, nofun⟩

include he hs in
private theorem whileStatement_sound {keyword : Token}
    (hkeyword : keyword.kind = .keyword .while_) :
    SoundBehind keyword (whileStatement expression statement) := by
  intro ts faults s rest hanswers
  obtain ⟨e, ts₁, hcondition, h₁⟩ := answers_liftM_bind_iff.mp hanswers
  obtain ⟨used, rfl, opening, us, closing, rfl, hopening, he, hclosing⟩ :=
    condition_sound he rfl rfl hcondition
  obtain ⟨body, hbody, rfl⟩ := answers_map_iff.mp h₁
  obtain ⟨kept, dangling, hkeeps, hs, helse⟩ := hs hbody
  refine ⟨opening :: us ++ [closing] ++ kept, dangling, hkeeps.behind _, ?_, helse⟩
  rw [List.append_assoc]
  exact .loop hkeyword hopening he hclosing hs

include he hs in
private theorem forStatement_sound {keyword : Token} (hkeyword : keyword.kind = .keyword .for_) :
    SoundBehind keyword (forStatement expression statement) := by
  intro ts faults s rest hanswers
  obtain ⟨opening, ts₁, rfl, hopening, h₁⟩ := answers_expect_bind_iff.mp hanswers
  obtain ⟨start, ts₂, hread, h₂⟩ := answers_liftM_bind_iff.mp h₁
  obtain ⟨starts, rfl, hstart⟩ := forStart_sound he hread
  obtain ⟨condition, ts₃, hread, h₃⟩ := answers_liftM_bind_iff.mp h₂
  obtain ⟨conditions, rfl, hcondition⟩ := optionalExpression_sound he _ hread
  obtain ⟨semicolon, ts₄, rfl, hsemicolon, h₄⟩ := answers_expect_bind_iff.mp h₃
  obtain ⟨step, ts₅, hread, h₅⟩ := answers_liftM_bind_iff.mp h₄
  obtain ⟨steps, rfl, hstep⟩ := optionalExpression_sound he _ hread
  obtain ⟨closing, ts₆, rfl, hclosing, h₆⟩ := answers_expect_bind_iff.mp h₅
  obtain ⟨body, hbody, rfl⟩ := answers_map_iff.mp h₆
  obtain ⟨kept, dangling, hkeeps, hs, helse⟩ := hs hbody
  have htokens := hkeeps.behind (opening :: starts ++ conditions ++ semicolon :: steps ++ [closing])
  simp only [List.cons_append, List.append_assoc, List.nil_append] at htokens
  refine ⟨_, dangling, htokens, ?_, helse⟩
  have hloop := Statement.forLoop hkeyword hopening hstart hcondition hsemicolon hstep hclosing hs
  simpa using hloop

include he hs in
/-- The first branch of an `if` with an `else` is not dangling, since it has that `else` behind
it. -/
private theorem ifStatement_sound {keyword : Token} (hkeyword : keyword.kind = .keyword .if_) :
    SoundBehind keyword (ifStatement expression statement) := by
  intro ts faults s rest hanswers
  obtain ⟨e, ts₁, hcondition, h₁⟩ := answers_liftM_bind_iff.mp hanswers
  obtain ⟨used, rfl, opening, us, closing, rfl, hopening, he, hclosing⟩ :=
    condition_sound he rfl rfl hcondition
  obtain ⟨φ, yes, ts₂, φ', hyes, h₂, rfl⟩ := answers_bind_iff.mp h₁
  obtain ⟨kept, dangling, hkeeps, hsyes, helse⟩ := hs hyes
  have htokens := hkeeps.behind (opening :: us ++ [closing])
  obtain ⟨otherwise?, ts₃, hotherwise, h₃⟩ := answers_liftM_bind_iff.mp h₂
  cases otherwise? with
  | none =>
    obtain ⟨rfl, rfl, rfl⟩ := answers_pure_iff.mp h₃
    obtain ⟨rfl, hbehind⟩ := Phrase.accept?_eq_none_iff.mp hotherwise
    rw [List.append_nil]
    refine ⟨opening :: us ++ [closing] ++ kept, true, htokens, ?_, fun _ t ht => ?_⟩
    · rw [List.append_assoc]
      exact .branch hkeyword hopening he hclosing hsyes
    · simpa using hbehind t ht
  | some otherwise =>
    obtain ⟨rfl, hkind⟩ := Phrase.accept?_eq_some_iff.mp hotherwise
    have hkind : otherwise.kind = .keyword .else_ := of_decide_eq_true hkind
    -- A dangling first branch would have no `else` behind it.
    have hclosed : dangling = false := by
      cases dangling with
      | false => rfl
      | true => exact absurd hkind (helse rfl otherwise rfl)
    subst hclosed
    obtain ⟨no, hno, rfl⟩ := answers_map_iff.mp h₃
    obtain ⟨kept', dangling, hkeeps', hsno, helse⟩ := hs hno
    refine ⟨opening :: us ++ [closing] ++ kept ++ otherwise :: kept', dangling,
      htokens.append (hkeeps'.behind [otherwise]), ?_, helse⟩
    have hbranches := Statement.branches hkeyword hopening he hclosing hsyes hkind hsno
    simpa using hbranches

include hd in
private theorem blockStatement_sound (n : Nat) {left : Token} (hleft : left.kind = .leftBrace) :
    SoundBehind left (.block <$> block declaration n) := by
  intro ts faults s rest hanswers
  obtain ⟨body, hbody, rfl⟩ := answers_map_iff.mp hanswers
  obtain ⟨pieces, right, hkeeps, rfl, hpieces, hright⟩ := block_sound hd n hbody
  exact ⟨_, false, hkeeps, .block hleft hpieces hright, nofun⟩

include he in
private theorem expressionStatement_answers :
    SoundStatement (liftM (expressionStatement expression)) := by
  intro ts faults s rest hanswers
  obtain ⟨rfl, hread⟩ := answers_liftM_iff.mp hanswers
  obtain ⟨used, rfl, hstatement⟩ := expressionStatement_sound he hread
  exact ⟨used, false, .of_append used rest, .expression hstatement, nofun⟩

include he hs hd in
theorem statementBody_sound (n : Nat) :
    SoundStatement (statementBody expression statement declaration n) := by
  intro ts faults s rest hanswers
  cases ts with
  | nil => exact expressionStatement_answers he hanswers
  | cons t ts =>
    have of_behind : ∀ {r : Rule Stmt}, SoundBehind t r → Answers r ts faults s rest →
        ∃ kept dangling, Keeps (t :: ts) faults kept rest ∧
          Statement (.statement dangling) kept s ∧
            (dangling = true → ∀ t ∈ rest.head?, t.kind ≠ .keyword .else_) := by
      intro r hr hanswers
      obtain ⟨kept, dangling, hkeeps, hstatement, helse⟩ := hr hanswers
      exact ⟨t :: kept, dangling, hkeeps.behind [t], hstatement, helse⟩
    rw [Answers, statementBody] at hanswers
    split at hanswers
    · next hkind => exact of_behind (forStatement_sound he hs hkind) hanswers
    · next hkind => exact of_behind (ifStatement_sound he hs hkind) hanswers
    · next hkind => exact of_behind (soundBehind_of_sound (printStatement_sound he hkind)) hanswers
    · next hkind => exact of_behind (soundBehind_of_sound (returnStatement_sound he hkind)) hanswers
    · next hkind => exact of_behind (whileStatement_sound he hs hkind) hanswers
    · next hkind => exact of_behind (blockStatement_sound hd n hkind) hanswers
    · exact expressionStatement_answers he hanswers

include he hs hd in
theorem declarationBody_sound (n : Nat) {ts rest : List Token} {faults : List SyntaxFault}
    {s : Stmt}
    (hanswers : Answers (declarationBody expression statement declaration n) ts faults s rest) :
    ∃ kept, Keeps ts faults kept rest ∧ Statement .declaration kept s := by
  have of_statement : Answers (statementBody expression statement declaration n) ts faults s rest →
      ∃ kept, Keeps ts faults kept rest ∧ Statement .declaration kept s := by
    intro hanswers
    obtain ⟨kept, dangling, hkeeps, hstatement, -⟩ := statementBody_sound he hs hd n hanswers
    exact ⟨kept, hkeeps, .statement hstatement⟩
  cases ts with
  | nil => exact of_statement hanswers
  | cons t ts =>
    rw [Answers, declarationBody] at hanswers
    split at hanswers
    · next hkind =>
      obtain ⟨kept, hkeeps, hstatement⟩ := functionDeclaration_sound hd n hkind hanswers
      exact ⟨t :: kept, hkeeps.behind [t], hstatement⟩
    · next hkind =>
      obtain ⟨rfl, hread⟩ := answers_liftM_iff.mp hanswers
      obtain ⟨used, rfl, hstatement⟩ := variableDeclaration_sound he hkind hread
      exact ⟨t :: used, .of_append (t :: used) rest, .variable_ hstatement⟩
    · exact of_statement hanswers

end

/-- What a rule **recovers** to is sound: where it rejects, nothing is kept. -/
theorem recover_sound {r : Rule Stmt} (hforward : Forward r)
    (h : ∀ ⦃ts faults s rest⦄, Answers r ts faults s rest →
      ∃ kept, Keeps ts faults kept rest ∧ Statement .declaration kept s) :
    SoundDeclaration (recover r) := by
  intro ts faults o rest hanswers
  rcases answers_recover_iff.mp hanswers with ⟨s, rfl, hread⟩ | ⟨φ, e, hread, rfl, rfl, rfl⟩
  · obtain ⟨kept, hkeeps, hstatement⟩ := h hread
    exact ⟨kept, hkeeps, .inl ⟨s, rfl, hstatement⟩⟩
  · have hstays := (hforward ts).1
    rw [hread] at hstays
    have hne : φ ++ [e.fault] ≠ [] := by simp
    have hsuffix : synchronize e.rest <:+ ts := (synchronize_suffix e.rest).trans hstays.1
    exact ⟨[], .skipped hsuffix hne, .inr ⟨rfl, rfl, hne⟩⟩

private theorem rules_sound (n : Nat) :
    SoundStatement (statement n) ∧ SoundDeclaration (declaration n) := by
  induction n with
  | zero =>
    have hout : Forward outOfTokens := forward_liftM (Phrase.forward_reject _)
    refine ⟨fun ts faults s rest hanswers => ?_, recover_sound hout fun ts faults s rest h => ?_⟩
    · cases hanswers
    · cases h
  | succ n ih =>
    obtain ⟨hs, hd⟩ := ih
    have he := Phrase.expression_sound (n + 1)
    have hforward := forward_declarationBody (Phrase.forward_expression (n + 1))
      (forward_statement n) (forward_declaration n) n
    refine ⟨statementBody_sound he hs hd n, recover_sound hforward ?_⟩
    intro ts faults s rest hanswers
    exact declarationBody_sound he hs hd n hanswers

/-- What is read as a **statement** derives. -/
theorem statement_sound (n : Nat) : SoundStatement (statement n) := (rules_sound n).1

/-- What is read as a **declaration** derives. -/
theorem declaration_sound (n : Nat) : SoundDeclaration (declaration n) := (rules_sound n).2

/-- The statements that are read as a **program** derive from the tokens that are kept. -/
theorem program_sound {ts rest : List Token} {faults : List SyntaxFault} {ss : List Stmt}
    (h : Answers program ts faults ss rest) :
    ∃ kept, Keeps ts faults kept rest ∧ Program kept ss := by
  obtain ⟨pieces, hkeeps, rfl, hpieces⟩ := declarations_sound (declaration_sound ts.length) _ _ h
  exact ⟨pieces.flatMap Prod.fst, hkeeps, pieces, hpieces, rfl, rfl⟩

end Rule

end LoxLang
