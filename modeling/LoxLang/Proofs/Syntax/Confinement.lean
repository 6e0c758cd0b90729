import LoxLang.Proofs.Syntax.MissingSemicolon
import LoxLang.Proofs.Syntax.Semicolons

/-!
# A malformed simple statement

A statement is **simple** in outline if it begins with `print`, `var` or `return` or with none of
the keywords that open a statement, and has no semicolon, brace or such keyword in it up to the
semicolon at its end. If it derives nothing, its damage is confined: wherever it is rejected, what
recovery skips ends exactly with that semicolon, since nothing in front of it is a boundary.
`parse_malformed_statement` says so of whole token lists, at the top and in a block.
-/

namespace LoxLang

namespace Grammar

/-! ### Outlines -/

/-- The kinds of tokens that stand **inside** a simple statement: they do not end one, open none,
and are no braces. -/
def isInside (kind : TokenKind) : Bool :=
  kind ≠ .semicolon && kind ≠ .leftBrace && kind ≠ .rightBrace && kind ≠ .eof &&
    !Parser.opensStatement kind

/-- The tokens have the **outline** of a simple statement. -/
inductive SimpleOutline : List Token → Prop
  | bare {inside : List Token} {semicolon : Token} :
    (∀ t ∈ inside, isInside t.kind) → semicolon.kind = .semicolon →
      SimpleOutline (inside ++ [semicolon])
  | keyword {keyword semicolon : Token} {inside : List Token} :
    keyword.kind ∈ [.keyword .print_, .keyword .var_, .keyword .return_] →
      (∀ t ∈ inside, isInside t.kind) → semicolon.kind = .semicolon →
      SimpleOutline (keyword :: inside ++ [semicolon])

theorem kind_ne_semicolon_of_isInside {kind : TokenKind} (h : isInside kind) :
    kind ≠ .semicolon := by
  rintro rfl
  exact absurd h (by decide)

theorem SimpleOutline.ne_nil {ts : List Token} (h : SimpleOutline ts) : ts ≠ [] := by
  cases h <;> simp

/-- No simple statement begins with a brace. -/
theorem SimpleOutline.not_mem_closesStatement {t : Token} {ts : List Token}
    (h : SimpleOutline (t :: ts)) (helse : t.kind ≠ .keyword .else_) :
    t.kind ∉ closesStatement := by
  have hclose : t.kind = .rightBrace → False := by
    intro hright
    generalize hcons : t :: ts = us at h
    cases h with
    | @bare inside semicolon hall hsemicolon =>
      cases inside with
      | nil =>
        cases hcons
        simp [hright] at hsemicolon
      | cons u inside =>
        cases hcons
        have hinside := hall t (List.mem_cons_self ..)
        rw [hright] at hinside
        exact absurd hinside (by decide)
    | keyword hkind =>
      cases hcons
      rw [hright] at hkind
      exact absurd hkind (by decide)
  simp only [closesStatement, List.mem_cons, List.not_mem_nil, or_false, not_or]
  exact ⟨helse, hclose⟩

end Grammar

open Grammar

namespace Rule

/-! ### Recovery -/

/-- Behind tokens that are no boundary, skipping stops just behind the semicolon. -/
theorem skipPast_append_semicolon {inside : List Token} (hinside : ∀ t ∈ inside, isInside t.kind)
    {previous semicolon : Token} (hprevious : previous.kind ≠ .semicolon)
    (hsemicolon : semicolon.kind = .semicolon) (behind : List Token) :
    skipPast previous (inside ++ semicolon :: behind) = behind := by
  induction inside generalizing previous with
  | nil =>
    have hskip : skipPast semicolon behind = behind := by
      cases behind <;> simp [skipPast, hsemicolon]
    simpa [skipPast, hprevious, hsemicolon, Parser.opensStatement] using hskip
  | cons t inside ih =>
    obtain ⟨ht, hinside⟩ := List.forall_mem_cons.mp hinside
    have hopens : Parser.opensStatement t.kind = false := by
      simpa using (Bool.and_eq_true_iff.mp ht).2
    rw [List.cons_append, skipPast, hopens, Bool.or_false, if_neg (by simpa using hprevious)]
    exact ih hinside (kind_ne_semicolon_of_isInside ht)

/-- A reject inside a simple statement is recovered from behind its semicolon. -/
theorem synchronize_append_semicolon {inside : List Token}
    (hinside : ∀ t ∈ inside, isInside t.kind) {semicolon : Token}
    (hsemicolon : semicolon.kind = .semicolon) (behind : List Token) :
    synchronize (inside ++ semicolon :: behind) = behind := by
  cases inside with
  | nil =>
    change skipPast semicolon behind = behind
    cases behind <;> simp [skipPast, hsemicolon]
  | cons t inside =>
    obtain ⟨ht, hinside⟩ := List.forall_mem_cons.mp hinside
    exact skipPast_append_semicolon hinside (kind_ne_semicolon_of_isInside ht) hsemicolon behind

/-! ### The declaration -/

section

variable {expression : Phrase Expr} {statement : Rule Stmt} {declaration : Rule (Option Stmt)}

/-- What begins with no keyword of a statement is read as an expression statement. -/
theorem declarationBody_of_isInside (n : Nat) {t : Token}
    (ht : isInside t.kind ∨ t.kind = .semicolon) (ts : List Token) :
    declarationBody expression statement declaration n (t :: ts) =
      (liftM (expressionStatement expression) : Rule Stmt) (t :: ts) := by
  have hother : ∀ {kind}, t.kind = kind →
      Parser.opensStatement kind ∨ kind = .leftBrace → False := by
    rintro kind rfl hkind
    rcases ht with hinside | hsemicolon
    · rcases hkind with hopens | hbrace
      · simp [isInside, hopens] at hinside
      · simp [isInside, hbrace] at hinside
    · rw [hsemicolon] at hkind
      exact absurd hkind (by decide)
  rw [declarationBody]
  split
  · next hkind => exact (hother hkind (by decide)).elim
  · next hkind => exact (hother hkind (by decide)).elim
  · rw [statementBody]
    split
    · next hkind => exact (hother hkind (by decide)).elim
    · next hkind => exact (hother hkind (by decide)).elim
    · next hkind => exact (hother hkind (by decide)).elim
    · next hkind => exact (hother hkind (by decide)).elim
    · next hkind => exact (hother hkind (by decide)).elim
    · next hkind => exact (hother hkind (by decide)).elim
    · rfl

variable (statement declaration)

/-- What has the outline of a simple statement is read by a confined phrase. -/
theorem exists_confined (n : Nat) (hexpression : expression.TakesNoSemicolon) {ts : List Token}
    (h : SimpleOutline ts) : ∃ (front inside : List Token) (semicolon : Token) (p : Phrase Stmt),
      ts = front ++ inside ++ [semicolon] ∧ (∀ t ∈ inside, isInside t.kind) ∧
        semicolon.kind = .semicolon ∧ p.Confined ∧
        ∀ behind, declarationBody expression statement declaration n (ts ++ behind) =
          (liftM p : Rule Stmt) (inside ++ semicolon :: behind) := by
  cases h with
  | @bare inside semicolon hinside hsemicolon =>
    refine ⟨[], inside, semicolon, expressionStatement expression, rfl, hinside, hsemicolon,
      confined_expressionStatement hexpression, fun behind => ?_⟩
    rw [List.append_assoc]
    cases inside with
    | nil => exact declarationBody_of_isInside n (.inr hsemicolon) behind
    | cons t inside =>
      exact declarationBody_of_isInside n (.inl (hinside t List.mem_cons_self)) _
  | @keyword keyword semicolon inside hkeyword hinside hsemicolon =>
    have hread : ∃ p : Phrase Stmt, p.Confined ∧ ∀ us,
        declarationBody expression statement declaration n (keyword :: us) =
          (liftM p : Rule Stmt) us := by
      simp only [List.mem_cons, List.not_mem_nil, or_false] at hkeyword
      rcases hkeyword with hkind | hkind | hkind
      · refine ⟨printStatement expression, confined_printStatement hexpression, fun us => ?_⟩
        simp only [declarationBody, statementBody, hkind]
      · refine ⟨variableDeclaration expression, confined_variableDeclaration hexpression,
          fun us => ?_⟩
        simp only [declarationBody, hkind]
      · refine ⟨returnStatement expression keyword, confined_returnStatement hexpression keyword,
          fun us => ?_⟩
        simp only [declarationBody, statementBody, hkind]
    obtain ⟨p, hp, heq⟩ := hread
    refine ⟨[keyword], inside, semicolon, p, rfl, hinside, hsemicolon, hp, fun behind => ?_⟩
    have happend : keyword :: inside ++ [semicolon] ++ behind =
        keyword :: (inside ++ semicolon :: behind) := by simp
    rw [happend]
    exact heq _

end

/-- **A malformed simple statement** is dropped, with one fault that blames one of its tokens, and
reading goes on just behind it. -/
theorem exists_answers_of_malformed {ts behind : List Token} (h : SimpleOutline ts)
    (hmalformed : ∀ s, ¬ Statement .declaration ts s) {n : Nat}
    (hlength : (ts ++ behind).length ≤ n) :
    ∃ t ∈ ts, ∃ e, Answers (declaration n) (ts ++ behind) [⟨some t, e⟩] none behind := by
  obtain ⟨front, inside, semicolon, p, rfl, hinside, hsemicolon, hp, hread⟩ :=
    exists_confined (statement n) (declaration n) n (Phrase.takesNoSemicolon_expression n) h
  have hnone := fun t ht => kind_ne_semicolon_of_isInside (hinside t ht)
  rcases hp hnone hsemicolon behind with ⟨s, hs⟩ | ⟨used, left, t, e, rfl, ht, hreject⟩
  · -- Nothing is rejected, and so the tokens derive what was read.
    have hanswers : Answers (declarationBody (Phrase.expression n) (statement n) (declaration n) n)
        (front ++ inside ++ [semicolon] ++ behind) [] s behind := by
      rw [Answers, hread]
      exact answers_liftM_iff.mpr ⟨rfl, hs⟩
    obtain ⟨kept, hkeeps, hstatement⟩ := declarationBody_sound (Phrase.expression_sound n)
      (statement_sound n) (declaration_sound n) n hanswers
    obtain rfl := List.append_cancel_right hkeeps.eq_append
    exact absurd hstatement (hmalformed s)
  · have hleft := (List.forall_mem_append.mp hinside).2
    have hreject : declarationBody (Phrase.expression n) (statement n) (declaration n) n
        (front ++ (used ++ left) ++ [semicolon] ++ behind) =
          ⟨[], .error ⟨⟨some t, e⟩, left ++ semicolon :: behind⟩⟩ :=
      (hread behind).trans (congrArg (Reply.mk []) hreject)
    have hanswers := answers_recover_iff.mpr (.inr ⟨[], _, hreject, rfl, rfl, rfl⟩)
    rw [synchronize_append_semicolon hleft hsemicolon] at hanswers
    refine ⟨t, ?_, e, (declaration_eq hlength).trans hanswers⟩
    rw [List.append_assoc]
    exact List.mem_append_right front ht

/-- Among declarations, a malformed simple statement costs nothing but itself. -/
theorem exists_answers_declarations_of_malformed {stop : List Token → Bool}
    (hstop : ∀ t ts, t.kind ∉ closesStatement → ¬ stop (t :: ts)) (hnil : stop [])
    {pieces others : List (List Token × Stmt)} {ts rest : List Token}
    (hpieces : ∀ piece ∈ pieces, Statement .declaration piece.1 piece.2)
    (hothers : ∀ piece ∈ others, Statement .declaration piece.1 piece.2)
    (h : SimpleOutline ts) (helse : ∀ t ∈ ts.head?, t.kind ≠ .keyword .else_)
    (hmalformed : ∀ s, ¬ Statement .declaration ts s) (hend : stop rest)
    (hrest : ∀ t ∈ rest.head?, t.kind ≠ .keyword .else_) {n : Nat}
    (hlength : (pieces.flatMap Prod.fst ++ (ts ++ (others.flatMap Prod.fst ++ rest))).length ≤ n) :
    ∃ t ∈ ts, ∃ e, Answers (declarations (declaration n) stop n)
      (pieces.flatMap Prod.fst ++ (ts ++ (others.flatMap Prod.fst ++ rest))) [⟨some t, e⟩]
      (pieces.map Prod.snd ++ others.map Prod.snd) rest := by
  have hshorter : (ts ++ (others.flatMap Prod.fst ++ rest)).length ≤ n := by
    rw [List.length_append] at hlength
    omega
  have hshortest : (others.flatMap Prod.fst ++ rest).length ≤ n := by
    rw [List.length_append] at hshorter
    omega
  obtain ⟨t, ht, e, hdropped⟩ := exists_answers_of_malformed h hmalformed hshorter
  have hread := declarations_complete (declaration_complete n) hstop hothers hend hrest hshortest
  obtain ⟨first, us, rfl⟩ := List.exists_cons_of_ne_nil h.ne_nil
  have hfirst := helse first rfl
  have hnot : ¬ stop (first :: us ++ (others.flatMap Prod.fst ++ rest)) :=
    hstop first _ (h.not_mem_closesStatement hfirst)
  refine ⟨t, ht, e, ?_⟩
  -- With a larger bound, the declarations in front can be counted off.
  have hbound := declarations_agree (.refl n _) (declaration_advances n) stop hnil
    (Nat.le_refl n) (show n ≤ n + 1 + pieces.length by omega) hlength
  rw [Answers, hbound, declarations_append (declaration_complete n) hstop hpieces ?_ hlength,
    declarations_of_answers hnot hdropped, hread]
  · rfl
  · rintro _ ⟨⟩
    exact hfirst

/-! ### The program -/

section

variable {front middle behind : List Token} {ps qs : List Stmt} (hfront : Program front ps)
  (hbehind : Program behind qs) (h : SimpleOutline middle)
  (helse : ∀ t ∈ middle.head?, t.kind ≠ .keyword .else_)
  (hmalformed : ∀ s, ¬ Statement .declaration middle s)

include hfront hbehind h helse hmalformed

/-- At the top, only the malformed statement is dropped. -/
theorem exists_answers_program_of_malformed :
    ∃ t ∈ middle, ∃ e,
      Answers program (front ++ (middle ++ behind)) [⟨some t, e⟩] (ps ++ qs) [] := by
  obtain ⟨pieces, hpieces, rfl, rfl⟩ := hfront
  obtain ⟨others, hothers, rfl, rfl⟩ := hbehind
  have hstop : ∀ (t : Token) ts, t.kind ∉ closesStatement → ¬ List.isEmpty (t :: ts) = true :=
    fun _ _ _ => Bool.false_ne_true
  have hend : List.isEmpty ([] : List Token) = true := rfl
  have hdropped := exists_answers_declarations_of_malformed hstop hend hpieces hothers h helse
    hmalformed hend nofun (Nat.le_refl _)
  rw [List.append_nil] at hdropped
  exact hdropped

/-- In a block, only the malformed statement is dropped. -/
theorem exists_answers_program_of_malformed_in_block {left right : Token}
    (hleft : left.kind = .leftBrace) (hright : right.kind = .rightBrace) :
    ∃ t ∈ middle, ∃ e, Answers program (left :: (front ++ (middle ++ (behind ++ [right]))))
      [⟨some t, e⟩] [.block (ps ++ qs)] [] := by
  obtain ⟨pieces, hpieces, rfl, rfl⟩ := hfront
  obtain ⟨others, hothers, rfl, rfl⟩ := hbehind
  generalize hn : (left :: (pieces.flatMap Prod.fst ++
    (middle ++ (others.flatMap Prod.fst ++ [right])))).length = n
  have hclose : blockEnds [right] := by simp [blockEnds, hright]
  have hnotElse : ∀ t ∈ [right].head?, t.kind ≠ .keyword .else_ := by
    rintro t ⟨⟩
    rw [hright]
    decide
  have hinner : (pieces.flatMap Prod.fst ++
      (middle ++ (others.flatMap Prod.fst ++ [right]))).length ≤ n :=
    Nat.le_of_succ_le (Nat.le_of_eq hn)
  obtain ⟨t, ht, e, hbody⟩ := exists_answers_declarations_of_malformed not_blockEnds_cons rfl
    hpieces hothers h helse hmalformed hclose hnotElse hinner
  have hblock : Answers (block (declaration n) n) _ ([⟨some t, e⟩] ++ [])
      (pieces.map Prod.snd ++ others.map Prod.snd) [] :=
    answers_bind_iff.mpr ⟨_, _, _, [], hbody, reads_expect_bind_iff.mpr
      ⟨right, [], rfl, hright, reads_pure_iff.mpr ⟨rfl, rfl⟩⟩, rfl⟩
  refine ⟨t, ht, e, (program_of_block (.block hleft) (Nat.le_of_eq hn) hblock).trans ?_⟩
  rw [declarations_nil]
  rfl

end

end Rule

namespace Grammar

/-! ### End tokens -/

/-- None of the tokens is an **end token**. -/
def WithoutEnd (ts : List Token) : Prop := ∀ t ∈ ts, t.kind ≠ .eof

@[simp] theorem withoutEnd_nil : WithoutEnd [] := nofun

@[simp] theorem withoutEnd_cons {t : Token} {ts : List Token} :
    WithoutEnd (t :: ts) ↔ t.kind ≠ .eof ∧ WithoutEnd ts := List.forall_mem_cons

@[simp] theorem withoutEnd_append {ts us : List Token} :
    WithoutEnd (ts ++ us) ↔ WithoutEnd ts ∧ WithoutEnd us := List.forall_mem_append

/-- Where every piece is without an end token, so are all together. -/
theorem withoutEnd_flatMap {pieces : List (List Token × Stmt)}
    (h : ∀ piece ∈ pieces, WithoutEnd piece.1) : WithoutEnd (pieces.flatMap Prod.fst) :=
  List.forall_mem_flatMap.mpr h

theorem Separated.withoutEnd {items : List (List Token)} {us : List Token}
    (h : Separated items us) (hitems : ∀ ts ∈ items, WithoutEnd ts) : WithoutEnd us := by
  induction h with
  | none => exact withoutEnd_nil
  | one => exact hitems _ (List.mem_cons_self ..)
  | cons hcomma _ ih =>
    obtain ⟨hfirst, hothers⟩ := List.forall_mem_cons.mp hitems
    simp [hcomma, hfirst, ih hothers]

/-- The tokens of an **expression** are without an end token. -/
theorem Expression.withoutEnd {level : Level} {ts : List Token} {e : Expr}
    (h : Expression level ts e) : WithoutEnd ts := by
  induction h with
  | tighter _ _ ih => exact ih
  | assign htarget hequals _ ih => simp [htarget, hequals, ih]
  | @operation level _ _ _ _ _ _ _ _ hop _ ihleft ihright =>
    have hoperator : ∀ kind ∈ level.operators, kind ≠ .eof := by cases level <;> decide
    simp [hoperator _ hop, ihleft, ihright]
  | prefixed hop _ ih => rcases hop with hop | hop <;> simp [hop, ih]
  | call _ hopening _ hseparated _ hparen ih iharguments =>
    have hitems := hseparated.withoutEnd (List.forall_mem_map.mpr iharguments)
    simp [hopening, hparen, ih, hitems]
  | grouping hopening _ hclosing ih => simp [hopening, hclosing, ih]
  | true_ hkind | false_ hkind | nil_ hkind | number hkind | string hkind | name hkind =>
    simp [hkind]

theorem Optional.withoutEnd {α : Type} {rule : List Token → α → Prop} {ts : List Token}
    {a : Option α} (h : Optional rule ts a) (hrule : ∀ {us a}, rule us a → WithoutEnd us) :
    WithoutEnd ts := by
  cases h with
  | none => exact withoutEnd_nil
  | some h => exact hrule h

theorem VariableDeclaration.withoutEnd {ts : List Token} {s : Stmt}
    (h : VariableDeclaration ts s) : WithoutEnd ts := by
  obtain ⟨hvar, htarget, hvalue, hsemicolon⟩ := h
  have hinitializer : ∀ {us e}, Initializer us e → WithoutEnd us := by
    rintro _ _ ⟨hequals, he⟩
    simp [hequals, he.withoutEnd]
  simp [hvar, htarget, hsemicolon, hvalue.withoutEnd hinitializer]

theorem ExpressionStatement.withoutEnd {ts : List Token} {s : Stmt}
    (h : ExpressionStatement ts s) : WithoutEnd ts := by
  obtain ⟨he, hsemicolon⟩ := h
  simp [he.withoutEnd, hsemicolon]

theorem Start.withoutEnd {ts : List Token} {start : Option Stmt} (h : Start ts start) :
    WithoutEnd ts := by
  cases h with
  | none hsemicolon => simp [hsemicolon]
  | declaration h => exact h.withoutEnd
  | expression h => exact h.withoutEnd

/-- The tokens of a **statement** are without an end token. -/
theorem Statement.withoutEnd {category : Category} {ts : List Token} {s : Stmt}
    (h : Statement category ts s) : WithoutEnd ts := by
  induction h with
  | statement _ ih => exact ih
  | function hfun htarget hopening hparameters hseparated _ hclosing hleft _ hright ih =>
    have hitems := hseparated.withoutEnd
      (List.forall_mem_map.mpr fun t ht => by simp [hparameters t ht])
    simp [hfun, htarget, hopening, hitems, hclosing, hleft, withoutEnd_flatMap ih, hright]
  | variable_ h => exact h.withoutEnd
  | expression h => exact h.withoutEnd
  | print hkeyword he hsemicolon => simp [hkeyword, he.withoutEnd, hsemicolon]
  | returnValue hkeyword hvalue hsemicolon =>
    simp [hkeyword, hvalue.withoutEnd Expression.withoutEnd, hsemicolon]
  | block hleft _ hright ih => simp [hleft, withoutEnd_flatMap ih, hright]
  | loop hkeyword hopening he hclosing _ ih =>
    simp [hkeyword, hopening, he.withoutEnd, hclosing, ih]
  | forLoop hkeyword hopening hstart hcondition hsemicolon hstep hclosing _ ih =>
    simp [hkeyword, hopening, hstart.withoutEnd, hcondition.withoutEnd Expression.withoutEnd,
      hsemicolon, hstep.withoutEnd Expression.withoutEnd, hclosing, ih]
  | branch hkeyword hopening he hclosing _ ih =>
    simp [hkeyword, hopening, he.withoutEnd, hclosing, ih]
  | branches hkeyword hopening he hclosing _ hotherwise _ ih ih' =>
    simp [hkeyword, hopening, he.withoutEnd, hclosing, ih, hotherwise, ih']

theorem SimpleOutline.withoutEnd {ts : List Token} (h : SimpleOutline ts) : WithoutEnd ts := by
  have hinside : ∀ {inside : List Token}, (∀ t ∈ inside, isInside t.kind) → WithoutEnd inside := by
    intro inside hall t ht hend
    have hkind := hall t ht
    rw [hend] at hkind
    exact absurd hkind (by decide)
  cases h with
  | bare hall hsemicolon => simp [hinside hall, hsemicolon]
  | keyword hkeyword hall hsemicolon =>
    simp only [List.mem_cons, List.not_mem_nil, or_false] at hkeyword
    rcases hkeyword with hkind | hkind | hkind <;> simp [hkind, hinside hall, hsemicolon]

theorem Program.withoutEnd {ts : List Token} {ss : List Stmt} (h : Program ts ss) :
    WithoutEnd ts := by
  obtain ⟨pieces, hpieces, rfl, -⟩ := h
  exact withoutEnd_flatMap fun piece hmem => (hpieces piece hmem).withoutEnd

end Grammar

/-! ### The parse -/

section

variable {front middle behind : List Token} {ps qs : List Stmt}

/-- **A malformed simple statement costs one fault and itself.** Where tokens with the outline of a
simple statement derive no declaration, and stand between declarations, whether at the top or in a
block, there is one diagnostic, which points at one of these tokens, and the statements are those in
front of them and those behind them. -/
theorem parse_malformed_statement (hfront : Program front ps) (hbehind : Program behind qs)
    (h : SimpleOutline middle) (helse : ∀ t ∈ middle.head?, t.kind ≠ .keyword .else_)
    (hmalformed : ∀ s, ¬ Statement .declaration middle s) {left right end_ : Token}
    (hleft : left.kind = .leftBrace) (hright : right.kind = .rightBrace)
    (hend : end_.kind = .eof) :
    (∃ t ∈ middle, ∃ e : SyntaxError,
      Parse.ofTokens (front ++ (middle ++ behind) ++ [end_]) =
        ⟨ps ++ qs, [.atToken .static t e.message]⟩) ∧
    ∃ t ∈ middle, ∃ e : SyntaxError,
      Parse.ofTokens (left :: (front ++ (middle ++ (behind ++ [right]))) ++ [end_]) =
        ⟨[.block (ps ++ qs)], [.atToken .static t e.message]⟩ := by
  have hwithout : WithoutEnd (front ++ (middle ++ behind)) := by
    simpa using ⟨hfront.withoutEnd, h.withoutEnd, hbehind.withoutEnd⟩
  constructor
  · obtain ⟨t, ht, e, hanswers⟩ :=
      Rule.exists_answers_program_of_malformed hfront hbehind h helse hmalformed
    exact ⟨t, ht, e, Parse.ofTokens_append_singleton hwithout hend hanswers⟩
  · obtain ⟨t, ht, e, hanswers⟩ := Rule.exists_answers_program_of_malformed_in_block hfront hbehind
      h helse hmalformed hleft hright
    have hwithout : WithoutEnd (left :: (front ++ (middle ++ (behind ++ [right])))) := by
      simp only [withoutEnd_cons, withoutEnd_append] at hwithout ⊢
      simpa [hleft, hright] using hwithout
    exact ⟨t, ht, e, Parse.ofTokens_append_singleton hwithout hend hanswers⟩

end

/-- `y;` -/
private def used : List Token := [.of .identifier "y", .of .semicolon ";"]

private theorem program_used : Program used [.expression (.name (.of .identifier "y"))] := by
  refine ⟨[(used, .expression (.name (.of .identifier "y")))], ?_, rfl, rfl⟩
  have hname : Expression .assignment [.of .identifier "y"] (.name (.of .identifier "y")) :=
    .tighter rfl (.disjunction_name rfl)
  exact List.forall_mem_singleton.mpr (.statement (.expression (.mk hname rfl)))

/-- `nil = y;` -/
private def assigned : List Token :=
  [.of (.keyword .nil_) "nil", .of .equal "=", .of .identifier "y", .of .semicolon ";"]

private theorem not_statement_assigned (s : Stmt) : ¬ Statement .declaration assigned s := by
  intro hs
  have hprogram : Program assigned [s] := ⟨[(assigned, s)], by simpa using hs, rfl, rfl⟩
  have hfaults : (Rule.program assigned).faults = [] := by
    rw [Rule.reads_program_iff.mpr hprogram]
  exact absurd (congrArg List.length hfaults) (by decide)

/-- In `y; nil = y; y;`, the fault is found when the cursor is behind the token to blame, and the
statements around it are kept, also in `{ y; nil = y; y; }`. -/
theorem parse_malformed_statement_of_assign :
    let uses := [Stmt.expression (.name (.of .identifier "y"))]
    let left := Token.of .leftBrace "\x7b"
    let right := Token.of .rightBrace "\x7d"
    (∀ s, ¬ Statement .declaration assigned s) ∧
    (∃ t ∈ assigned, ∃ e : SyntaxError,
      Parse.ofTokens (used ++ (assigned ++ used) ++ [.atEnd 1]) =
        ⟨uses ++ uses, [.atToken .static t e.message]⟩) ∧
    ∃ t ∈ assigned, ∃ e : SyntaxError,
      Parse.ofTokens (left :: (used ++ (assigned ++ (used ++ [right]))) ++ [.atEnd 1]) =
        ⟨[.block (uses ++ uses)], [.atToken .static t e.message]⟩ := by
  intro uses left right
  have hinside : ∀ t ∈ assigned.dropLast, isInside t.kind := by decide
  have hsemicolon : (Token.of .semicolon ";").kind = .semicolon := rfl
  have houtline : SimpleOutline assigned := .bare hinside hsemicolon
  have helse : ∀ t ∈ assigned.head?, t.kind ≠ .keyword .else_ := by
    rintro t ⟨⟩
    decide
  exact ⟨not_statement_assigned, parse_malformed_statement program_used program_used houtline helse
    not_statement_assigned rfl rfl rfl⟩

end LoxLang
