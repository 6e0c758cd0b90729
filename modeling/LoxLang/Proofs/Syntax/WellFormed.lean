import LoxLang.Proofs.Syntax.Following

/-!
# Trees that a parser makes

Not every tree is the tree of a program: a unary operator could be a comma, or the body of a loop a
declaration. **Well-formed** trees have none of that. Everything the parser answers is well-formed,
whether or not it has dropped declarations on its way (`parse_wellFormed`).
-/

namespace LoxLang

open Grammar

/-- The binary operators that are evaluated on both operands. -/
def binaryOperators : List TokenKind :=
  [.plus, .minus, .star, .slash, .equalEqual, .bangEqual, .greater, .greaterEqual, .less,
    .lessEqual]

/-- A **well-formed** expression: operators are operators and names are names, and no call has too
many arguments. -/
inductive Expr.WellFormed : Expr → Prop
  | literal (value : Literal) : WellFormed (.literal value)
  | grouping {inner : Expr} : WellFormed inner → WellFormed (.grouping inner)
  | unary {op : Token} {operand : Expr} :
    op.kind = .bang ∨ op.kind = .minus → WellFormed operand → WellFormed (.unary op operand)
  | binary {left right : Expr} {op : Token} :
    WellFormed left → op.kind ∈ binaryOperators → WellFormed right →
      WellFormed (.binary left op right)
  | logical {left right : Expr} {op : Token} :
    WellFormed left → op.kind = .keyword .and_ ∨ op.kind = .keyword .or_ → WellFormed right →
      WellFormed (.logical left op right)
  | name {t : Token} : t.kind = .identifier → WellFormed (.name t)
  | assign {target : Token} {value : Expr} :
    target.kind = .identifier → WellFormed value → WellFormed (.assign target value)
  | call {callee : Expr} {paren : Token} {arguments : List Expr} :
    WellFormed callee → paren.kind = .rightParen → (∀ e ∈ arguments, WellFormed e) →
      arguments.length ≤ maxArguments → WellFormed (.call callee paren arguments)

/-- Whether a statement is the declaration of a variable or a function. -/
def Stmt.IsDeclaration : Stmt → Prop
  | .declare _ _ | .function _ _ _ => True
  | _ => False

/-- A **well-formed** statement: what it is made of is well-formed, and neither the body of a loop
nor a branch is a declaration. -/
inductive Stmt.WellFormed : Stmt → Prop
  | expression {value : Expr} : value.WellFormed → WellFormed (.expression value)
  | print {value : Expr} : value.WellFormed → WellFormed (.print value)
  | declare {target : Token} {value : Option Expr} :
    target.kind = .identifier → (∀ e ∈ value, e.WellFormed) → WellFormed (.declare target value)
  | block {body : List Stmt} : (∀ s ∈ body, WellFormed s) → WellFormed (.block body)
  | branch {condition : Expr} {yes : Stmt} {no : Option Stmt} :
    condition.WellFormed → WellFormed yes → ¬ yes.IsDeclaration → (∀ s ∈ no, WellFormed s) →
      (∀ s ∈ no, ¬ s.IsDeclaration) → WellFormed (.branch condition yes no)
  | loop {condition : Expr} {body : Stmt} :
    condition.WellFormed → WellFormed body → ¬ body.IsDeclaration →
      WellFormed (.loop condition body)
  | function {target : Token} {parameters : List Token} {body : List Stmt} :
    target.kind = .identifier → (∀ p ∈ parameters, p.kind = .identifier) →
      parameters.length ≤ maxArguments → (∀ s ∈ body, WellFormed s) →
      WellFormed (.function target parameters body)
  | returnValue {keyword : Token} {value : Option Expr} :
    (∀ e ∈ value, e.WellFormed) → WellFormed (.returnValue keyword value)

/-- A `for` loop of well-formed parts is well-formed. -/
theorem Stmt.WellFormed.forLoop {start : Option Stmt} {condition step : Option Expr} {body : Stmt}
    (hstart : ∀ s ∈ start, s.WellFormed) (hcondition : ∀ e ∈ condition, e.WellFormed)
    (hstep : ∀ e ∈ step, e.WellFormed) (hbody : body.WellFormed) (hplain : ¬ body.IsDeclaration) :
    (Stmt.forLoop start condition step body).WellFormed ∧
      ¬ (Stmt.forLoop start condition step body).IsDeclaration := by
  have hholds : (condition.getD (.literal (.bool true))).WellFormed := by
    cases condition with
    | none => exact .literal _
    | some e => exact hcondition e rfl
  have hblock : ∀ {e : Expr}, step = some e → (Stmt.block [body, .expression e]).WellFormed := by
    rintro e rfl
    refine .block fun s hs => ?_
    obtain rfl | rfl : s = body ∨ s = .expression e := by simpa using hs
    · exact hbody
    · exact .expression (hstep e rfl)
  have hstarted : ∀ {s repeated : Stmt}, start = some s → repeated.WellFormed →
      (Stmt.block [s, repeated]).WellFormed := by
    rintro s repeated rfl hrepeated
    refine .block fun t ht => ?_
    obtain rfl | rfl : t = s ∨ t = repeated := by simpa using ht
    · exact hstart _ rfl
    · exact hrepeated
  -- A step makes a block of the body, and a start makes a block of the loop.
  unfold Stmt.forLoop
  cases step with
  | none =>
    have hrepeated := Stmt.WellFormed.loop hholds hbody hplain
    cases start with
    | none => exact ⟨hrepeated, not_false⟩
    | some s => exact ⟨hstarted rfl hrepeated, not_false⟩
  | some e =>
    have hrepeated := Stmt.WellFormed.loop hholds (hblock rfl) not_false
    cases start with
    | none => exact ⟨hrepeated, not_false⟩
    | some s => exact ⟨hstarted rfl hrepeated, not_false⟩

/-! ### Expressions that derive -/

/-- An operator of a level makes well-formed trees of well-formed operands. -/
private theorem wellFormed_combine {level : Level} {left right : Expr} {op : Token}
    (hop : op.kind ∈ level.operators) (hleft : left.WellFormed) (hright : right.WellFormed) :
    (level.combine left op right).WellFormed := by
  have hbinary : ∀ {kinds : List TokenKind}, kinds ⊆ binaryOperators → op.kind ∈ kinds →
      (Expr.binary left op right).WellFormed :=
    fun hsubset hop => .binary hleft (hsubset hop) hright
  cases level with
  | disjunction => exact .logical hleft (.inr (List.mem_singleton.mp hop)) hright
  | conjunction => exact .logical hleft (.inl (List.mem_singleton.mp hop)) hright
  | _ => exact hbinary (by decide) hop

/-- The tree of an **expression** that derives is well-formed. -/
theorem Grammar.Expression.wellFormed {level : Level} {ts : List Token} {e : Expr}
    (h : Expression level ts e) : e.WellFormed := by
  induction h with
  | tighter _ _ ih => exact ih
  | assign htarget _ _ ih => exact .assign htarget ih
  | operation _ _ hop _ ihl ihr => exact wellFormed_combine hop ihl ihr
  | prefixed hop _ ih => exact .unary hop ih
  | call _ _ _ _ hlength hparen ih iharguments =>
    refine .call ih hparen (fun e he => ?_) (by rwa [List.length_map])
    obtain ⟨argument, hargument, rfl⟩ := List.mem_map.mp he
    exact iharguments argument hargument
  | true_ | false_ | nil_ | number | string => exact .literal _
  | name hkind => exact .name hkind
  | grouping _ _ _ ih => exact .grouping ih

/-- A variable declaration that derives is well-formed. -/
theorem Grammar.VariableDeclaration.wellFormed {ts : List Token} {s : Stmt}
    (h : VariableDeclaration ts s) : s.WellFormed := by
  cases h with
  | mk _ htarget hvalue _ =>
    refine .declare htarget fun e he => ?_
    cases hvalue with
    | none => cases he
    | some hinitializer =>
      cases he
      cases hinitializer with
      | mk _ hexpression => exact hexpression.wellFormed

/-- The first clause of a `for` loop that derives is well-formed. -/
theorem Grammar.Start.wellFormed {ts : List Token} {start : Option Stmt} (h : Start ts start) :
    ∀ s ∈ start, s.WellFormed := by
  intro s hs
  cases h with
  | none => cases hs
  | declaration hdeclaration =>
    cases hs
    exact hdeclaration.wellFormed
  | expression hstatement =>
    cases hs
    cases hstatement with
    | mk hexpression _ => exact .expression hexpression.wellFormed

theorem Grammar.Optional.wellFormed {ts : List Token} {value : Option Expr}
    (h : Optional (Expression .assignment) ts value) : ∀ e ∈ value, e.WellFormed := by
  intro e he
  cases h with
  | none => cases he
  | some hexpression =>
    cases he
    exact hexpression.wellFormed

/-- The trees of a list of **declarations** are well-formed if each of them is. -/
private theorem wellFormed_of_pieces {body : List (List Token × Stmt)}
    (h : ∀ piece ∈ body, piece.2.WellFormed) : ∀ s ∈ body.map Prod.snd, s.WellFormed := by
  intro s hs
  obtain ⟨piece, hpiece, rfl⟩ := List.mem_map.mp hs
  exact h piece hpiece

/-- The tree of a **statement** that derives is well-formed, and it is no declaration unless it
derives as one. -/
theorem Grammar.Statement.wellFormed {category : Category} {ts : List Token} {s : Stmt}
    (h : Statement category ts s) :
    s.WellFormed ∧ (category = .declaration ∨ ¬ s.IsDeclaration) := by
  have of_statement : ∀ {dangling : Bool} {s : Stmt}, s.WellFormed ∧
      (Category.statement dangling = .declaration ∨ ¬ s.IsDeclaration) → ¬ s.IsDeclaration :=
    fun h => h.2.resolve_left nofun
  induction h with
  | statement _ ih => exact ⟨ih.1, .inl rfl⟩
  | function _ htarget _ hparameters _ hlength _ _ _ _ ih =>
    refine ⟨.function htarget hparameters hlength ?_, .inl rfl⟩
    exact wellFormed_of_pieces fun piece hpiece => (ih piece hpiece).1
  | variable_ hdeclaration => exact ⟨hdeclaration.wellFormed, .inl rfl⟩
  | expression hstatement =>
    cases hstatement with
    | mk hexpression _ => exact ⟨.expression hexpression.wellFormed, .inr not_false⟩
  | print _ hexpression _ => exact ⟨.print hexpression.wellFormed, .inr not_false⟩
  | returnValue _ hvalue _ => exact ⟨.returnValue hvalue.wellFormed, .inr not_false⟩
  | block _ _ _ ih =>
    refine ⟨.block (wellFormed_of_pieces fun piece hpiece => (ih piece hpiece).1), .inr not_false⟩
  | loop _ _ hcondition _ _ ih =>
    exact ⟨.loop hcondition.wellFormed ih.1 (of_statement ih), .inr not_false⟩
  | forLoop _ _ hstart hcondition _ hstep _ _ ih =>
    obtain ⟨hloop, hplain⟩ := Stmt.WellFormed.forLoop hstart.wellFormed hcondition.wellFormed
      hstep.wellFormed ih.1 (of_statement ih)
    exact ⟨hloop, .inr hplain⟩
  | branch _ _ hcondition _ _ ih =>
    exact ⟨.branch hcondition.wellFormed ih.1 (of_statement ih) nofun nofun, .inr not_false⟩
  | branches _ _ hcondition _ _ _ _ ihyes ihno =>
    refine ⟨.branch hcondition.wellFormed ihyes.1 (of_statement ihyes) ?_ ?_, .inr not_false⟩
    · rintro s ⟨⟩
      exact ihno.1
    · rintro s ⟨⟩
      exact of_statement ihno

/-- **Parsed programs are well-formed**, also those of a text with faults: every statement derives
from the tokens that were kept for it. -/
theorem parse_wellFormed (tokens : List Token) :
    ∀ s ∈ (Parse.ofTokens tokens).statements, s.WellFormed := by
  intro s hs
  obtain ⟨faults, ss, hanswers⟩ := Rule.answers_program (Parse.body tokens)
  rw [Parse.ofTokens_eq hanswers] at hs
  obtain ⟨kept, -, pieces, hpieces, -, rfl⟩ := Rule.program_sound hanswers
  obtain ⟨piece, hpiece, rfl⟩ := List.mem_map.mp hs
  exact (hpieces piece hpiece).wellFormed.1

end LoxLang
