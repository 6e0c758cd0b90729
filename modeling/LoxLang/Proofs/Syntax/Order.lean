import LoxLang.Proofs.Syntax.Semicolons
import LoxLang.Proofs.Syntax.Termination

/-!
# Faults in order

A phrase that rejects blames the token where it stopped, or one that it has taken. Recovery skips
the token where the phrase stopped. So whatever is blamed later stands further on: the faults of a
rule blame tokens that it took, in their order and none of them twice. Only the end behind the
tokens can be blamed again, by every declaration that it cuts short (`Rule.orderly_program`).
-/

namespace LoxLang

/-! ### Phrases -/

/-- What a phrase answers **has reached** what it blames: one of the tokens that were taken, or the
next one. -/
def HasReached {α : Type} (ts : List Token) : Except Reject (α × List Token) → Prop
  | .ok (_, rest) => rest <:+ ts
  | .error e => ∃ used, ts = used ++ e.rest ∧
      (e.fault.blame = e.rest.head? ∨ ∃ t ∈ used, e.fault.blame = some t)

/-- What is reached behind some tokens is reached from those. -/
theorem HasReached.behind {α : Type} {used ts : List Token} {x : Except Reject (α × List Token)}
    (h : HasReached ts x) : HasReached (used ++ ts) x := by
  rcases x with e | ⟨a, rest⟩
  · obtain ⟨used', rfl, hblame⟩ := h
    refine ⟨used ++ used', (List.append_assoc ..).symm, hblame.imp_right fun ⟨t, ht, hsome⟩ => ?_⟩
    exact ⟨t, List.mem_append_right used ht, hsome⟩
  · exact List.IsSuffix.trans h (List.suffix_append used ts)

namespace Phrase

variable {α β : Type}

/-- The phrase blames what it **has reached**, on all tokens. -/
def BlamesReached (p : Phrase α) : Prop := ∀ ts, HasReached ts (p ts)

theorem TakesNoSemicolon.blamesReached {p : Phrase α} (h : p.TakesNoSemicolon) :
    p.BlamesReached := by
  intro ts
  have hstops := h ts
  rcases hread : p ts with e | ⟨a, rest⟩
  · rw [hread] at hstops
    obtain ⟨used, hcut, -, hblame⟩ := hstops
    exact ⟨used, hcut, hblame⟩
  · rw [hread] at hstops
    obtain ⟨used, hcut, -⟩ := hstops
    exact ⟨used, hcut.symm⟩

theorem blamesReached_pure (a : α) : BlamesReached (pure a) := fun ts => List.suffix_refl ts

theorem BlamesReached.bind {p : Phrase α} {f : α → Phrase β} (hp : p.BlamesReached)
    (hf : ∀ a, (f a).BlamesReached) : (p >>= f).BlamesReached := by
  intro ts
  have hfirst := hp ts
  rcases hread : p ts with e | ⟨a, rest⟩
  · rw [hread] at hfirst
    rw [bind_of_error hread]
    exact hfirst
  · rw [hread] at hfirst
    rw [bind_of_ok hread]
    obtain ⟨used, rfl⟩ : rest <:+ ts := hfirst
    exact (hf a rest).behind

theorem BlamesReached.map {p : Phrase α} (hp : p.BlamesReached) (f : α → β) :
    (f <$> p).BlamesReached := by
  rw [← bind_pure_comp]
  exact hp.bind fun a => blamesReached_pure (f a)

/-! ### Single tokens -/

theorem blamesReached_reject (e : SyntaxError) : (reject e : Phrase α).BlamesReached :=
  fun _ => ⟨[], rfl, .inl rfl⟩

theorem blamesReached_ahead (p : TokenKind → Bool) : (ahead p).BlamesReached :=
  fun ts => List.suffix_refl ts

theorem blamesReached_accept? (p : TokenKind → Bool) : (accept? p).BlamesReached := by
  intro ts
  rcases hread : accept? p ts with e | ⟨o, rest⟩
  · cases ts with
    | nil => cases hread
    | cons t ts =>
      rw [accept?] at hread
      split at hread <;> cases hread
  · have hstays := forward_accept? p ts
    rwa [hread] at hstays

theorem blamesReached_expect (kind : TokenKind) (e : SyntaxError) :
    (expect kind e).BlamesReached :=
  (blamesReached_accept? _).bind fun o =>
    match o with
    | some t => blamesReached_pure t
    | none => blamesReached_reject e

end Phrase

/-! ### Faults along tokens -/

/-- The faults are **in order** along the tokens `used`: each blames one of them, in their order and
none of them twice. Faults at the end may follow, if nothing is left. -/
def InOrder (used rest : List Token) (faults : List SyntaxFault) : Prop :=
  ∃ (blamed : List Token) (cut : Nat), blamed.Sublist used ∧ (cut ≠ 0 → rest = []) ∧
    faults.map SyntaxFault.blame = blamed.map some ++ List.replicate cut none

namespace InOrder

variable {used used' middle rest rest' : List Token} {faults faults' : List SyntaxFault}

theorem nil (used rest : List Token) : InOrder used rest [] :=
  ⟨[], 0, List.nil_sublist used, fun h => absurd rfl h, rfl⟩

/-- More tokens may stand among those that are blamed, and fewer may be left. -/
theorem mono (h : InOrder used rest faults) (hused : used.Sublist used')
    (hrest : rest = [] → rest' = []) : InOrder used' rest' faults := by
  obtain ⟨blamed, cut, hblamed, hcut, hfaults⟩ := h
  exact ⟨blamed, cut, hblamed.trans hused, fun h => hrest (hcut h), hfaults⟩

/-- Along tokens and then along those behind them, unless there are none left to blame. -/
theorem append (h : InOrder used middle faults) (h' : InOrder used' rest faults')
    (hnil : middle = [] → used' = [] ∧ rest = []) :
    InOrder (used ++ used') rest (faults ++ faults') := by
  obtain ⟨blamed, cut, hblamed, hcut, hfaults⟩ := h
  obtain ⟨blamed', cut', hblamed', hcut', hfaults'⟩ := h'
  by_cases hzero : cut = 0
  · subst hzero
    refine ⟨blamed ++ blamed', cut', hblamed.append hblamed', hcut', ?_⟩
    simp [hfaults, hfaults']
  · -- The first faults have reached the end, so the others blame that.
    obtain ⟨rfl, rfl⟩ := hnil (hcut hzero)
    obtain rfl := List.sublist_nil.mp hblamed'
    refine ⟨blamed, cut + cut', ?_, fun _ => rfl, ?_⟩
    · rwa [List.append_nil]
    · simp [hfaults, hfaults', List.replicate_append_replicate]

end InOrder

/-! ### Rules -/

/-- The faults of the reply are **in order** along the tokens it was given, its own reject last,
which may blame the next token. -/
def Reply.InOrder {α : Type} (ts : List Token) (reply : Reply α) : Prop :=
  ∃ used, match reply.result with
    | .ok (_, rest) => ts = used ++ rest ∧ LoxLang.InOrder used rest reply.faults
    | .error e => ts = used ++ e.rest ∧
      LoxLang.InOrder (used ++ e.rest.take 1) e.rest (reply.faults ++ [e.fault])

/-- What is in order behind some tokens is in order from those. -/
theorem Reply.InOrder.behind {α : Type} {used ts : List Token} {reply : Reply α}
    (h : reply.InOrder ts) : reply.InOrder (used ++ ts) := by
  obtain ⟨faults, e | ⟨a, rest⟩⟩ := reply
  · obtain ⟨used', rfl, horder⟩ := h
    refine ⟨used ++ used', (List.append_assoc ..).symm, ?_⟩
    rw [List.append_assoc]
    exact horder.mono (List.sublist_append_right _ _) id
  · obtain ⟨used', rfl, horder⟩ := h
    refine ⟨used ++ used', (List.append_assoc ..).symm, ?_⟩
    exact horder.mono (List.sublist_append_right _ _) id

namespace Rule

variable {α β : Type}

/-- The rule is **orderly**: its faults are in order, on all tokens. -/
def Orderly (r : Rule α) : Prop := ∀ ts, (r ts).InOrder ts

theorem orderly_liftM {p : Phrase α} (h : p.BlamesReached) : Orderly (liftM p) := by
  intro ts
  have hreached := h ts
  change Reply.InOrder ts ⟨[], p ts⟩
  rcases hread : p ts with ⟨⟨blame, e⟩, rest⟩ | ⟨a, rest⟩
  · rw [hread] at hreached
    obtain ⟨used, rfl, hblame | ⟨t, ht, hblame⟩⟩ := hreached
    · obtain rfl : blame = rest.head? := hblame
      cases rest with
      | nil => exact ⟨used, rfl, [], 1, List.nil_sublist _, fun _ => rfl, rfl⟩
      | cons t rest =>
        exact ⟨used, rfl, [t], 0, List.sublist_append_right used [t], fun h => absurd rfl h, rfl⟩
    · obtain rfl : blame = some t := hblame
      have hmem := List.mem_append_left (rest.take 1) ht
      exact ⟨used, rfl, [t], 0, List.singleton_sublist.mpr hmem, fun h => absurd rfl h, rfl⟩
  · rw [hread] at hreached
    obtain ⟨used, rfl⟩ : rest <:+ ts := hreached
    exact ⟨used, rfl, .nil used rest⟩

theorem orderly_pure (a : α) : Orderly (pure a) := orderly_liftM (Phrase.blamesReached_pure a)

theorem Orderly.bind {r : Rule α} {f : α → Rule β} (hr : Orderly r) (hf : ∀ a, Orderly (f a)) :
    Orderly (r >>= f) := by
  intro ts
  have hfirst := hr ts
  rcases hread : r ts with ⟨faults, e | ⟨a, middle⟩⟩
  · rw [hread] at hfirst
    rw [bind_of_error hread]
    exact hfirst
  · rw [hread] at hfirst
    rw [bind_of_ok hread]
    obtain ⟨used, rfl, horder⟩ := hfirst
    have hsecond := hf a middle
    rcases hread' : f a middle with ⟨faults', e | ⟨b, rest⟩⟩
    · rw [hread'] at hsecond
      obtain ⟨used', rfl, horder'⟩ := hsecond
      refine ⟨used ++ used', (List.append_assoc ..).symm, ?_⟩
      rw [List.append_assoc, List.append_assoc]
      refine horder.append horder' fun hnil => ?_
      obtain ⟨rfl, hrest⟩ := List.append_eq_nil_iff.mp hnil
      simp [hrest]
    · rw [hread'] at hsecond
      obtain ⟨used', rfl, horder'⟩ := hsecond
      exact ⟨used ++ used', (List.append_assoc ..).symm,
        horder.append horder' List.append_eq_nil_iff.mp⟩

theorem Orderly.map {r : Rule α} (hr : Orderly r) (f : α → β) : Orderly (f <$> r) :=
  hr.bind fun a => orderly_pure (f a)

/-- What begins behind the first token is in order from there. -/
theorem Orderly.behind {r : Rule α} (hr : Orderly r) (t : Token) (ts : List Token) :
    (r ts).InOrder ([t] ++ ts) := (hr ts).behind

/-- Recovery skips the token where reading stopped. -/
theorem exists_skipped (ts : List Token) :
    ∃ skipped, ts = ts.take 1 ++ skipped ++ synchronize ts := by
  cases ts with
  | nil => exact ⟨[], rfl⟩
  | cons t ts =>
    obtain ⟨skipped, hskipped⟩ := skipPast_suffix t ts
    exact ⟨skipped, congrArg (List.cons t) hskipped.symm⟩

/-- Once it has recovered, a rule has **passed** the token that it blamed last. -/
theorem Orderly.recover {r : Rule α} (hr : Orderly r) : Orderly (Rule.recover r) := by
  intro ts
  have horder := hr ts
  rw [Rule.recover]
  rcases hread : r ts with ⟨faults, e | ⟨a, rest⟩⟩
  · rw [hread] at horder
    obtain ⟨used, hcut, horder⟩ := horder
    obtain ⟨skipped, hskipped⟩ := exists_skipped e.rest
    refine ⟨used ++ (e.rest.take 1 ++ skipped), ?_, horder.mono ?_ fun hnil => by rw [hnil]; rfl⟩
    · rw [List.append_assoc, ← hskipped, hcut]
    · rw [← List.append_assoc]
      exact List.sublist_append_left _ _
  · rw [hread] at horder
    exact horder

/-! ### Parts of statements -/

section

variable {expression : Phrase Expr} (h : expression.BlamesReached)

include h

theorem blamesReached_variableDeclaration : (variableDeclaration expression).BlamesReached := by
  refine (Phrase.blamesReached_expect _ _).bind fun target => ?_
  refine (Phrase.blamesReached_accept? _).bind fun equals? => ?_
  have hend : ∀ value, (do
      let _ ← Phrase.symbol .afterDeclaration
      pure (.declare target value) : Phrase Stmt).BlamesReached :=
    fun value => (Phrase.blamesReached_expect _ _).bind fun _ => Phrase.blamesReached_pure _
  cases equals? with
  | none => exact (Phrase.blamesReached_pure none).bind hend
  | some equals => exact (h.map some).bind hend

/-- An expression, and the semicolon behind it. -/
private theorem blamesReached_untilSemicolon (place : Place) (f : Expr → Stmt) : (do
    let value ← expression
    let _ ← Phrase.symbol place
    pure (f value) : Phrase Stmt).BlamesReached :=
  h.bind fun _ => (Phrase.blamesReached_expect _ _).bind fun _ => Phrase.blamesReached_pure _

theorem blamesReached_expressionStatement : (expressionStatement expression).BlamesReached :=
  blamesReached_untilSemicolon h _ _

theorem blamesReached_printStatement : (printStatement expression).BlamesReached :=
  blamesReached_untilSemicolon h _ _

theorem blamesReached_optionalExpression (instead : TokenKind) :
    (optionalExpression expression instead).BlamesReached := by
  refine (Phrase.blamesReached_ahead _).bind fun absent => ?_
  split
  · exact Phrase.blamesReached_pure none
  · exact h.map some

theorem blamesReached_returnStatement (keyword : Token) :
    (returnStatement expression keyword).BlamesReached :=
  (blamesReached_optionalExpression h _).bind fun _ =>
    (Phrase.blamesReached_expect _ _).bind fun _ => Phrase.blamesReached_pure _

theorem blamesReached_condition (before after : Place) :
    (condition expression before after).BlamesReached :=
  (Phrase.blamesReached_expect _ _).bind fun _ => h.bind fun value =>
    (Phrase.blamesReached_expect _ _).bind fun _ => Phrase.blamesReached_pure value

theorem blamesReached_forStart : (forStart expression).BlamesReached := by
  refine (Phrase.blamesReached_accept? _).bind fun first? => ?_
  cases first? with
  | none => exact (blamesReached_expressionStatement h).map some
  | some first =>
    dsimp only
    split
    · exact Phrase.blamesReached_pure none
    · exact (blamesReached_variableDeclaration h).map some

end

/-! ### Statements -/

section

variable {expression : Phrase Expr} {statement : Rule Stmt} {declaration : Rule (Option Stmt)}
  (he : expression.BlamesReached) (hs : Orderly statement) (hd : Orderly declaration)

theorem orderly_expect (kind : TokenKind) (e : SyntaxError) :
    Orderly (liftM (Phrase.expect kind e)) := orderly_liftM (Phrase.blamesReached_expect kind e)

include hd in
theorem orderly_declarations (stop : List Token → Bool) (n : Nat) :
    Orderly (declarations declaration stop n) := by
  induction n with
  | zero => exact orderly_pure []
  | succ n ih =>
    intro ts
    by_cases hstop : stop ts
    · rw [declarations_of_stop _ hstop]
      exact orderly_pure [] ts
    · rw [declarations_of_not_stop _ hstop]
      exact (hd.bind fun first => ih.bind fun others => orderly_pure (first.toList ++ others)) ts

include hd in
theorem orderly_block (n : Nat) : Orderly (block declaration n) :=
  (orderly_declarations hd _ n).bind fun body => (orderly_expect _ _).bind fun _ =>
    orderly_pure body

include hd in
theorem orderly_functionDeclaration (n : Nat) : Orderly (functionDeclaration declaration n) := by
  have hname : (Phrase.identifier .parameter).TakesNoSemicolon :=
    Phrase.takesNoSemicolon_expect (by decide) _
  have hparameters := (Phrase.takesNoSemicolon_listed hname .parameters).blamesReached
  exact (orderly_expect _ _).bind fun _ => (orderly_expect _ _).bind fun _ =>
    (orderly_liftM hparameters).bind fun _ => (orderly_expect _ _).bind fun _ =>
    (orderly_expect _ _).bind fun _ => (orderly_block hd n).bind fun _ => orderly_pure _

include he hs in
theorem orderly_ifStatement : Orderly (ifStatement expression statement) := by
  refine (orderly_liftM (blamesReached_condition he _ _)).bind fun value => hs.bind fun yes => ?_
  refine (orderly_liftM (Phrase.blamesReached_accept? _)).bind fun otherwise? => ?_
  cases otherwise? with
  | none => exact orderly_pure _
  | some otherwise => exact hs.bind fun no => orderly_pure _

include he hs in
theorem orderly_whileStatement : Orderly (whileStatement expression statement) :=
  (orderly_liftM (blamesReached_condition he _ _)).bind fun _ => hs.bind fun _ => orderly_pure _

include he hs in
theorem orderly_forStatement : Orderly (forStatement expression statement) :=
  (orderly_expect _ _).bind fun _ =>
    (orderly_liftM (blamesReached_forStart he)).bind fun _ =>
    (orderly_liftM (blamesReached_optionalExpression he _)).bind fun _ =>
    (orderly_expect _ _).bind fun _ =>
    (orderly_liftM (blamesReached_optionalExpression he _)).bind fun _ =>
    (orderly_expect _ _).bind fun _ => hs.bind fun _ => orderly_pure _

include he hs hd in
theorem orderly_statementBody (n : Nat) :
    Orderly (statementBody expression statement declaration n) := by
  have hexpression := orderly_liftM (blamesReached_expressionStatement he)
  intro ts
  cases ts with
  | nil => exact hexpression []
  | cons t ts =>
    rw [statementBody]
    split
    · exact (orderly_forStatement he hs).behind t ts
    · exact (orderly_ifStatement he hs).behind t ts
    · exact (orderly_liftM (blamesReached_printStatement he)).behind t ts
    · exact (orderly_liftM (blamesReached_returnStatement he t)).behind t ts
    · exact (orderly_whileStatement he hs).behind t ts
    · exact ((orderly_block hd n).map Stmt.block).behind t ts
    · exact hexpression (t :: ts)

include he hs hd in
theorem orderly_declarationBody (n : Nat) :
    Orderly (declarationBody expression statement declaration n) := by
  intro ts
  cases ts with
  | nil => exact orderly_statementBody he hs hd n []
  | cons t ts =>
    rw [declarationBody]
    split
    · exact (orderly_functionDeclaration hd n).behind t ts
    · exact (orderly_liftM (blamesReached_variableDeclaration he)).behind t ts
    · exact orderly_statementBody he hs hd n (t :: ts)

end

private theorem rules_orderly (n : Nat) : Orderly (statement n) ∧ Orderly (declaration n) := by
  have hout : Orderly outOfTokens := orderly_liftM (Phrase.blamesReached_reject _)
  induction n with
  | zero => exact ⟨hout, hout.recover⟩
  | succ n ih =>
    have he := (Phrase.takesNoSemicolon_expression (n + 1)).blamesReached
    exact ⟨orderly_statementBody he ih.1 ih.2 n, (orderly_declarationBody he ih.1 ih.2 n).recover⟩

/-- The faults of a **program** are in order along its tokens. -/
theorem orderly_program : Orderly program :=
  fun ts => orderly_declarations (rules_orderly ts.length).2 List.isEmpty ts.length ts

end Rule

end LoxLang
