import LoxLang.Proofs.Syntax.Recognition

/-!
# The tokens of a tree

A tree keeps some of the tokens it was read from: names, operators, the keywords of `return` and the
closing parentheses of calls. It has no others. So whatever holds of all tokens that a tree derives
from holds of all tokens of the tree, and the tokens of what a parser answers are tokens that it was
given (`parse_tokens`).
-/

namespace LoxLang

open Grammar

/-- The **tokens** of an expression. -/
def Expr.tokens : Expr → List Token
  | literal _ => []
  | grouping inner => inner.tokens
  | unary op operand => op :: operand.tokens
  | binary left op right => left.tokens ++ op :: right.tokens
  | logical left op right => left.tokens ++ op :: right.tokens
  | name token => [token]
  | assign target value => target :: value.tokens
  | call callee paren arguments => callee.tokens ++ arguments.flatMap tokens ++ [paren]

/-- The **tokens** of a statement. -/
def Stmt.tokens : Stmt → List Token
  | expression value => value.tokens
  | print value => value.tokens
  | declare target value => target :: value.toList.flatMap Expr.tokens
  | block body => body.flatMap tokens
  | branch condition yes none => condition.tokens ++ yes.tokens
  | branch condition yes (some no) => condition.tokens ++ yes.tokens ++ no.tokens
  | loop condition body => condition.tokens ++ body.tokens
  | function target parameters body => target :: parameters ++ body.flatMap tokens
  | returnValue keyword value => keyword :: value.toList.flatMap Expr.tokens

variable {K : Token → Prop}

namespace Grammar

/-- Items are found among their tokens. -/
theorem Separated.forall_mem {items : List (List Token)} {us : List Token}
    (h : Separated items us) (hus : ∀ t ∈ us, K t) : ∀ ts ∈ items, ∀ t ∈ ts, K t := by
  induction h with
  | none => exact fun ts hts => absurd hts List.not_mem_nil
  | one =>
    intro ts hts
    rw [List.mem_singleton.mp hts]
    exact hus
  | cons _ _ ih =>
    obtain ⟨hts, hrest⟩ := List.forall_mem_append.mp hus
    exact List.forall_mem_cons.mpr ⟨hts, ih (List.forall_mem_cons.mp hrest).2⟩

theorem Level.forall_tokens_combine (level : Level) {left right : Expr} {op : Token}
    (hleft : ∀ t ∈ left.tokens, K t) (hop : K op) (hright : ∀ t ∈ right.tokens, K t) :
    ∀ t ∈ (level.combine left op right).tokens, K t := by
  have hall : ∀ t ∈ left.tokens ++ op :: right.tokens, K t :=
    List.forall_mem_append.mpr ⟨hleft, List.forall_mem_cons.mpr ⟨hop, hright⟩⟩
  cases level <;> simpa only [combine, Expr.tokens] using hall

/-- What holds of the tokens of an **expression** holds of those of its tree. -/
theorem Expression.forall_tokens {level : Level} {ts : List Token} {e : Expr}
    (h : Expression level ts e) (hts : ∀ t ∈ ts, K t) : ∀ t ∈ e.tokens, K t := by
  induction h with
  | tighter _ _ ih => exact ih hts
  | assign _ _ _ ih =>
    simp only [List.forall_mem_cons] at hts
    rw [Expr.tokens]
    exact List.forall_mem_cons.mpr ⟨hts.1, ih hts.2.2⟩
  | operation _ _ _ _ ihleft ihright =>
    simp only [List.forall_mem_append, List.forall_mem_cons] at hts
    exact Level.forall_tokens_combine _ (ihleft hts.1) hts.2.1 (ihright hts.2.2)
  | prefixed _ _ ih =>
    simp only [List.forall_mem_cons] at hts
    rw [Expr.tokens]
    exact List.forall_mem_cons.mpr ⟨hts.1, ih hts.2⟩
  | call _ _ _ hseparated _ _ ih iharguments =>
    simp only [List.forall_mem_append, List.forall_mem_cons] at hts
    rw [Expr.tokens]
    have hitems := hseparated.forall_mem hts.1.2.2
    refine List.forall_mem_append.mpr ⟨List.forall_mem_append.mpr ⟨ih hts.1.1, ?_⟩, ?_⟩
    · refine List.forall_mem_flatMap.mpr (List.forall_mem_map.mpr fun argument hmem => ?_)
      exact iharguments argument hmem (hitems argument.1 (List.mem_map_of_mem hmem))
    · exact List.forall_mem_singleton.mpr hts.2.1
  | true_ | false_ | nil_ | number | string =>
    simp [Expr.tokens]
  | name _ =>
    rw [Expr.tokens]
    exact hts
  | grouping _ _ _ ih =>
    simp only [List.forall_mem_append, List.forall_mem_cons] at hts
    rw [Expr.tokens]
    exact ih hts.1.2

/-- An optional expression has the tokens of the expression, if there is one. -/
theorem Optional.forall_tokens {rule : List Token → Expr → Prop} {ts : List Token}
    {value : Option Expr} (h : Optional rule ts value) (hts : ∀ t ∈ ts, K t)
    (hrule : ∀ {us e}, rule us e → (∀ t ∈ us, K t) → ∀ t ∈ e.tokens, K t) :
    ∀ t ∈ value.toList.flatMap Expr.tokens, K t := by
  cases h with
  | none => exact fun t ht => absurd ht List.not_mem_nil
  | some h => simpa using hrule h hts

theorem VariableDeclaration.forall_tokens {ts : List Token} {s : Stmt}
    (h : VariableDeclaration ts s) (hts : ∀ t ∈ ts, K t) : ∀ t ∈ s.tokens, K t := by
  cases h with
  | mk _ _ hvalue _ =>
    simp only [List.forall_mem_append, List.forall_mem_cons] at hts
    rw [Stmt.tokens]
    refine List.forall_mem_cons.mpr ⟨hts.1.2.1, hvalue.forall_tokens hts.1.2.2 ?_⟩
    rintro _ _ ⟨-, he⟩ hus
    exact he.forall_tokens (List.forall_mem_cons.mp hus).2

theorem ExpressionStatement.forall_tokens {ts : List Token} {s : Stmt}
    (h : ExpressionStatement ts s) (hts : ∀ t ∈ ts, K t) : ∀ t ∈ s.tokens, K t := by
  cases h with
  | mk he _ =>
    rw [Stmt.tokens]
    exact he.forall_tokens (List.forall_mem_append.mp hts).1

theorem Start.forall_tokens {ts : List Token} {start : Option Stmt} (h : Start ts start)
    (hts : ∀ t ∈ ts, K t) : ∀ s ∈ start, ∀ t ∈ s.tokens, K t := by
  rintro s hs
  cases h with
  | none => cases hs
  | declaration h =>
    cases hs
    exact h.forall_tokens hts
  | expression h =>
    cases hs
    exact h.forall_tokens hts

/-- The tree of a `for` loop has the tokens of its clauses and its body. -/
theorem forall_tokens_forLoop {start : Option Stmt} {condition step : Option Expr} {body : Stmt}
    (hstart : ∀ s ∈ start, ∀ t ∈ s.tokens, K t)
    (hcondition : ∀ t ∈ condition.toList.flatMap Expr.tokens, K t)
    (hstep : ∀ t ∈ step.toList.flatMap Expr.tokens, K t) (hbody : ∀ t ∈ body.tokens, K t) :
    ∀ t ∈ (Stmt.forLoop start condition step body).tokens, K t := by
  have hholds : ∀ t ∈ (condition.getD (.literal (.bool true))).tokens, K t := by
    cases condition with
    | none => simp [Expr.tokens]
    | some e => simpa using hcondition
  have hrepeated : ∀ {round : Stmt}, (∀ t ∈ round.tokens, K t) →
      ∀ t ∈ (Stmt.loop (condition.getD (.literal (.bool true))) round).tokens, K t := by
    intro round hround
    rw [Stmt.tokens]
    exact List.forall_mem_append.mpr ⟨hholds, hround⟩
  have hblock : ∀ {s s' : Stmt}, (∀ t ∈ s.tokens, K t) → (∀ t ∈ s'.tokens, K t) →
      ∀ t ∈ (Stmt.block [s, s']).tokens, K t := by
    intro s s' hs hs'
    rw [Stmt.tokens]
    exact List.forall_mem_flatMap.mpr (by simpa using ⟨hs, hs'⟩)
  have hstepped : ∀ e, step = some e → ∀ t ∈ (Stmt.expression e).tokens, K t := by
    rintro e rfl
    simpa [Stmt.tokens] using hstep
  unfold Stmt.forLoop
  cases step with
  | none =>
    cases start with
    | none => exact hrepeated hbody
    | some s => exact hblock (hstart s rfl) (hrepeated hbody)
  | some e =>
    have hround := hblock hbody (hstepped e rfl)
    cases start with
    | none => exact hrepeated hround
    | some s => exact hblock (hstart s rfl) (hrepeated hround)

/-- What holds of the tokens of a **statement** holds of those of its tree. -/
theorem Statement.forall_tokens {category : Category} {ts : List Token} {s : Stmt}
    (h : Statement category ts s) (hts : ∀ t ∈ ts, K t) : ∀ t ∈ s.tokens, K t := by
  -- The pieces of a list of declarations are found among their tokens.
  have hpieces : ∀ {body : List (List Token × Stmt)}, (∀ t ∈ body.flatMap Prod.fst, K t) →
      (∀ piece ∈ body, (∀ t ∈ piece.1, K t) → ∀ t ∈ piece.2.tokens, K t) →
      ∀ t ∈ (body.map Prod.snd).flatMap Stmt.tokens, K t := by
    intro body hall ih
    refine List.forall_mem_flatMap.mpr (List.forall_mem_map.mpr fun piece hpiece => ?_)
    exact ih piece hpiece (List.forall_mem_flatMap.mp hall piece hpiece)
  have hoptional : ∀ {us : List Token} {value : Option Expr},
      Optional (Expression .assignment) us value → (∀ t ∈ us, K t) →
        ∀ t ∈ value.toList.flatMap Expr.tokens, K t :=
    fun h hus => h.forall_tokens hus Expression.forall_tokens
  induction h with
  | statement _ ih => exact ih hts
  | function _ _ _ _ hseparated _ _ _ _ _ ih =>
    simp only [List.forall_mem_append, List.forall_mem_cons] at hts
    obtain ⟨⟨⟨-, htarget, -, hparameters⟩, -, -, hbody⟩, -⟩ := hts
    rw [Stmt.tokens]
    have hitems := hseparated.forall_mem hparameters
    refine List.forall_mem_append.mpr ⟨List.forall_mem_cons.mpr ⟨htarget, ?_⟩, hpieces hbody ih⟩
    simpa using hitems
  | variable_ h => exact h.forall_tokens hts
  | expression h => exact h.forall_tokens hts
  | print _ he _ =>
    simp only [List.forall_mem_append, List.forall_mem_cons] at hts
    rw [Stmt.tokens]
    exact he.forall_tokens hts.1.2
  | returnValue _ hvalue _ =>
    simp only [List.forall_mem_append, List.forall_mem_cons] at hts
    rw [Stmt.tokens]
    exact List.forall_mem_cons.mpr ⟨hts.1.1, hoptional hvalue hts.1.2⟩
  | block _ _ _ ih =>
    simp only [List.forall_mem_append, List.forall_mem_cons] at hts
    rw [Stmt.tokens]
    exact hpieces hts.1.2 ih
  | loop _ _ he _ _ ih =>
    simp only [List.forall_mem_append, List.forall_mem_cons] at hts
    rw [Stmt.tokens]
    exact List.forall_mem_append.mpr ⟨he.forall_tokens hts.1.2.2, ih hts.2.2⟩
  | forLoop _ _ hstart hcondition _ hstep _ _ ih =>
    simp only [List.forall_mem_append, List.forall_mem_cons] at hts
    obtain ⟨⟨⟨⟨-, -, hstarts⟩, hconditions⟩, -, hsteps⟩, -, hbody⟩ := hts
    exact forall_tokens_forLoop (hstart.forall_tokens hstarts) (hoptional hcondition hconditions)
      (hoptional hstep hsteps) (ih hbody)
  | branch _ _ he _ _ ih =>
    simp only [List.forall_mem_append, List.forall_mem_cons] at hts
    rw [Stmt.tokens]
    exact List.forall_mem_append.mpr ⟨he.forall_tokens hts.1.2.2, ih hts.2.2⟩
  | branches _ _ he _ _ _ _ ihyes ihno =>
    simp only [List.forall_mem_append, List.forall_mem_cons] at hts
    obtain ⟨⟨⟨-, -, hcondition⟩, -, hyes⟩, -, hno⟩ := hts
    rw [Stmt.tokens]
    refine List.forall_mem_append.mpr ⟨?_, ihno hno⟩
    exact List.forall_mem_append.mpr ⟨he.forall_tokens hcondition, ihyes hyes⟩

end Grammar

/-- **The tokens of what a parser answers** are tokens that it was given, in front of the first end
token. -/
theorem parse_tokens (tokens : List Token) :
    ∀ s ∈ (Parse.ofTokens tokens).statements, ∀ t ∈ s.tokens, t ∈ Parse.body tokens := by
  obtain ⟨kept, hkept, ⟨pieces, hpieces, rfl, hstatements⟩, -⟩ := parse_survivors_parse tokens
  rw [← hstatements]
  refine List.forall_mem_map.mpr fun piece hpiece => ?_
  refine (hpieces piece hpiece).forall_tokens fun t ht => hkept.subset ?_
  exact List.mem_flatMap_of_mem hpiece ht

end LoxLang
