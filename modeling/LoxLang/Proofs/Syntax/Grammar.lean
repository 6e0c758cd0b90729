import LoxLang.Program
import LoxLang.Program.Fault

/-!
# The grammar

The grammar of the language, as relations between token lists and the trees they stand for.
`Grammar.Expression` has a rule for each alternative of the rules for expressions, which are
arranged in **levels** by how tightly they bind; `Grammar.Statement` has one for each alternative of
the rules for statements and declarations; and `Grammar.Program` is a list of declarations.

Repetition on a level of binary operators, and of argument lists behind a callee, is expressed by
recursion on the left, which is how the tree is grouped. A statement that ends with an `if` without
an `else` is **dangling**, and no such statement can stand in front of an `else`: this is what
attaches an `else` to the nearest `if`.
-/

namespace LoxLang

namespace Grammar

/-- The **levels** of expressions, from the one that binds least tightly. -/
inductive Level
  | assignment | disjunction | conjunction | equality | comparison | term | factor | unary | call
  | primary

namespace Level

/-- The next level, which binds more tightly. -/
def tighter? : Level → Option Level
  | assignment => some disjunction
  | disjunction => some conjunction
  | conjunction => some equality
  | equality => some comparison
  | comparison => some term
  | term => some factor
  | factor => some unary
  | unary => some call
  | call => some primary
  | primary => none

/-- The binary operators of a level, all of them grouped to the left. -/
def operators : Level → List TokenKind
  | disjunction => [.keyword .or_]
  | conjunction => [.keyword .and_]
  | equality => [.bangEqual, .equalEqual]
  | comparison => [.greater, .greaterEqual, .less, .lessEqual]
  | term => [.minus, .plus]
  | factor => [.slash, .star]
  | _ => []

/-- The tree of a binary operator of a level. -/
def combine : Level → Expr → Token → Expr → Expr
  | disjunction | conjunction => .logical
  | _ => .binary

end Level

/-- The tokens of a list of **items**, with a comma between any two of them. -/
inductive Separated : List (List Token) → List Token → Prop
  | none : Separated [] []
  | one {ts : List Token} : Separated [ts] ts
  | cons {ts us vs : List Token} {items : List (List Token)} {comma : Token} :
    comma.kind = .comma → Separated (us :: items) vs →
      Separated (ts :: us :: items) (ts ++ comma :: vs)

/-- A list of items begins with its first item. -/
theorem Separated.exists_append {ts us : List Token} {items : List (List Token)}
    (h : Separated (ts :: items) us) : ∃ vs, us = ts ++ vs := by
  cases h with
  | one => exact ⟨[], (List.append_nil _).symm⟩
  | cons => exact ⟨_, rfl⟩

/-- The tokens derive a list of **items**, with commas between them. -/
def Items {α : Type} (rule : List Token → α → Prop) (us : List Token) (as : List α) : Prop :=
  ∃ items : List (List Token × α),
    (∀ item ∈ items, rule item.1 item.2) ∧ Separated (items.map Prod.fst) us ∧
      items.map Prod.snd = as

theorem Items.cons {α : Type} {rule : List Token → α → Prop} {ts us : List Token} {a : α}
    {as : List α} {comma : Token} (ha : rule ts a) (hcomma : comma.kind = .comma)
    (has : Items rule us as) (hne : as ≠ []) : Items rule (ts ++ comma :: us) (a :: as) := by
  obtain ⟨items, hitems, hseparated, rfl⟩ := has
  refine ⟨(ts, a) :: items, List.forall_mem_cons.mpr ⟨ha, hitems⟩, ?_, rfl⟩
  cases items with
  | nil => exact absurd rfl hne
  | cons item items => exact .cons hcomma hseparated

/-- The tokens derive the **expression** on a level.

```
expression ::= assignment
assignment ::= IDENTIFIER "=" assignment | disjunction
disjunction ::= conjunction ("or" conjunction)*
conjunction ::= equality ("and" equality)*
equality ::= comparison (("!=" | "==") comparison)*
comparison ::= term ((">" | ">=" | "<" | "<=") term)*
term ::= factor (("-" | "+") factor)*
factor ::= unary (("/" | "*") unary)*
unary ::= ("!" | "-") unary | call
call ::= primary ("(" (expression ("," expression)*)? ")")*
primary ::= "true" | "false" | "nil" | NUMBER | STRING | IDENTIFIER | "(" expression ")"
```
-/
inductive Expression : Level → List Token → Expr → Prop
  | tighter {level level' : Level} {ts : List Token} {e : Expr} :
    level.tighter? = some level' → Expression level' ts e → Expression level ts e
  | assign {target equals : Token} {ts : List Token} {value : Expr} :
    target.kind = .identifier → equals.kind = .equal → Expression .assignment ts value →
      Expression .assignment (target :: equals :: ts) (.assign target value)
  | operation {level level' : Level} {ts us : List Token} {left right : Expr} {op : Token} :
    level.tighter? = some level' → Expression level ts left → op.kind ∈ level.operators →
      Expression level' us right → Expression level (ts ++ op :: us) (level.combine left op right)
  | prefixed {op : Token} {ts : List Token} {operand : Expr} :
    op.kind = .bang ∨ op.kind = .minus → Expression .unary ts operand →
      Expression .unary (op :: ts) (.unary op operand)
  | call {ts us : List Token} {callee : Expr} {opening paren : Token}
      {arguments : List (List Token × Expr)} :
    Expression .call ts callee → opening.kind = .leftParen →
      (∀ argument ∈ arguments, Expression .assignment argument.1 argument.2) →
      Separated (arguments.map Prod.fst) us → arguments.length ≤ maxArguments →
      paren.kind = .rightParen →
      Expression .call (ts ++ opening :: us ++ [paren])
        (.call callee paren (arguments.map Prod.snd))
  | true_ {t : Token} : t.kind = .keyword .true_ → Expression .primary [t] (.literal (.bool true))
  | false_ {t : Token} :
    t.kind = .keyword .false_ → Expression .primary [t] (.literal (.bool false))
  | nil_ {t : Token} : t.kind = .keyword .nil_ → Expression .primary [t] (.literal .nil)
  | number {t : Token} : t.kind = .number → Expression .primary [t] (.literal t.literal)
  | string {t : Token} : t.kind = .string → Expression .primary [t] (.literal t.literal)
  | name {t : Token} : t.kind = .identifier → Expression .primary [t] (.name t)
  | grouping {opening closing : Token} {ts : List Token} {inner : Expr} :
    opening.kind = .leftParen → Expression .assignment ts inner → closing.kind = .rightParen →
      Expression .primary (opening :: ts ++ [closing]) (.grouping inner)

/-- `rule?` -/
inductive Optional {α : Type} (rule : List Token → α → Prop) : List Token → Option α → Prop
  | none : Optional rule [] none
  | some {ts : List Token} {a : α} : rule ts a → Optional rule ts (some a)

/-- `"=" expression` -/
inductive Initializer : List Token → Expr → Prop
  | mk {equals : Token} {ts : List Token} {e : Expr} :
    equals.kind = .equal → Expression .assignment ts e → Initializer (equals :: ts) e

/-- `"var" IDENTIFIER ("=" expression)? ";"` -/
inductive VariableDeclaration : List Token → Stmt → Prop
  | mk {var target semicolon : Token} {ts : List Token} {value : Option Expr} :
    var.kind = .keyword .var_ → target.kind = .identifier → Optional Initializer ts value →
      semicolon.kind = .semicolon →
      VariableDeclaration (var :: target :: ts ++ [semicolon]) (.declare target value)

/-- `expression ";"` -/
inductive ExpressionStatement : List Token → Stmt → Prop
  | mk {semicolon : Token} {ts : List Token} {e : Expr} :
    Expression .assignment ts e → semicolon.kind = .semicolon →
      ExpressionStatement (ts ++ [semicolon]) (.expression e)

/-- The first clause of a `for` loop: `variableDeclaration | expressionStatement | ";"` -/
inductive Start : List Token → Option Stmt → Prop
  | none {semicolon : Token} : semicolon.kind = .semicolon → Start [semicolon] none
  | declaration {ts : List Token} {s : Stmt} : VariableDeclaration ts s → Start ts (some s)
  | expression {ts : List Token} {s : Stmt} : ExpressionStatement ts s → Start ts (some s)

/-- Declarations are statements, but not all statements are declarations: the body of a loop and the
branches of an `if` are none. -/
inductive Category
  | declaration
  /-- A statement, and whether it is dangling. -/
  | statement (dangling : Bool)

/-- The tokens derive the **statement** in a category.

```
declaration ::= functionDeclaration | variableDeclaration | statement
functionDeclaration ::= "fun" IDENTIFIER "(" (IDENTIFIER ("," IDENTIFIER)*)? ")" block
statement ::= expressionStatement | for | if | print | return | while | block
for ::= "for" "(" start expression? ";" expression? ")" statement
if ::= "if" "(" expression ")" statement ("else" statement)?
print ::= "print" expression ";"
return ::= "return" expression? ";"
while ::= "while" "(" expression ")" statement
block ::= "{" declaration* "}"
```
-/
inductive Statement : Category → List Token → Stmt → Prop
  | statement {dangling : Bool} {ts : List Token} {s : Stmt} :
    Statement (.statement dangling) ts s → Statement .declaration ts s
  | function {fun_ target opening closing left right : Token} {parameters : List Token}
      {us : List Token} {body : List (List Token × Stmt)} :
    fun_.kind = .keyword .fun_ → target.kind = .identifier → opening.kind = .leftParen →
      (∀ parameter ∈ parameters, parameter.kind = .identifier) →
      Separated (parameters.map ([·])) us → parameters.length ≤ maxArguments →
      closing.kind = .rightParen → left.kind = .leftBrace →
      (∀ piece ∈ body, Statement .declaration piece.1 piece.2) → right.kind = .rightBrace →
      Statement .declaration
        (fun_ :: target :: opening :: us ++ closing :: left :: body.flatMap Prod.fst ++ [right])
        (.function target parameters (body.map Prod.snd))
  | variable_ {ts : List Token} {s : Stmt} :
    VariableDeclaration ts s → Statement .declaration ts s
  | expression {ts : List Token} {s : Stmt} :
    ExpressionStatement ts s → Statement (.statement false) ts s
  | print {keyword semicolon : Token} {ts : List Token} {e : Expr} :
    keyword.kind = .keyword .print_ → Expression .assignment ts e → semicolon.kind = .semicolon →
      Statement (.statement false) (keyword :: ts ++ [semicolon]) (.print e)
  | returnValue {keyword semicolon : Token} {ts : List Token} {value : Option Expr} :
    keyword.kind = .keyword .return_ → Optional (Expression .assignment) ts value →
      semicolon.kind = .semicolon →
      Statement (.statement false) (keyword :: ts ++ [semicolon]) (.returnValue keyword value)
  | block {left right : Token} {body : List (List Token × Stmt)} :
    left.kind = .leftBrace → (∀ piece ∈ body, Statement .declaration piece.1 piece.2) →
      right.kind = .rightBrace →
      Statement (.statement false) (left :: body.flatMap Prod.fst ++ [right])
        (.block (body.map Prod.snd))
  | loop {dangling : Bool} {keyword opening closing : Token} {ts us : List Token} {e : Expr}
      {s : Stmt} :
    keyword.kind = .keyword .while_ → opening.kind = .leftParen → Expression .assignment ts e →
      closing.kind = .rightParen → Statement (.statement dangling) us s →
      Statement (.statement dangling) (keyword :: opening :: ts ++ closing :: us) (.loop e s)
  | forLoop {dangling : Bool} {keyword opening semicolon closing : Token}
      {starts conditions steps us : List Token} {start : Option Stmt} {condition step : Option Expr}
      {s : Stmt} :
    keyword.kind = .keyword .for_ → opening.kind = .leftParen → Start starts start →
      Optional (Expression .assignment) conditions condition → semicolon.kind = .semicolon →
      Optional (Expression .assignment) steps step → closing.kind = .rightParen →
      Statement (.statement dangling) us s →
      Statement (.statement dangling)
        (keyword :: opening :: starts ++ conditions ++ semicolon :: steps ++ closing :: us)
        (.forLoop start condition step s)
  | branch {dangling : Bool} {keyword opening closing : Token} {ts us : List Token} {e : Expr}
      {yes : Stmt} :
    keyword.kind = .keyword .if_ → opening.kind = .leftParen → Expression .assignment ts e →
      closing.kind = .rightParen → Statement (.statement dangling) us yes →
      Statement (.statement true) (keyword :: opening :: ts ++ closing :: us) (.branch e yes none)
  | branches {dangling : Bool} {keyword opening closing otherwise : Token}
      {ts us vs : List Token} {e : Expr} {yes no : Stmt} :
    keyword.kind = .keyword .if_ → opening.kind = .leftParen → Expression .assignment ts e →
      closing.kind = .rightParen → Statement (.statement false) us yes →
      otherwise.kind = .keyword .else_ → Statement (.statement dangling) vs no →
      Statement (.statement dangling)
        (keyword :: opening :: ts ++ closing :: us ++ otherwise :: vs) (.branch e yes (some no))

/-- The tokens derive the **program**: they are those of its declarations, one behind the other. -/
def Program (ts : List Token) (program : List Stmt) : Prop :=
  ∃ pieces : List (List Token × Stmt),
    (∀ piece ∈ pieces, Statement .declaration piece.1 piece.2) ∧
      pieces.flatMap Prod.fst = ts ∧ pieces.map Prod.snd = program

/-! ### First tokens -/

/-- The kinds of tokens that an expression can begin with. -/
def opensExpression : List TokenKind :=
  [.bang, .minus, .keyword .true_, .keyword .false_, .keyword .nil_, .number, .string, .identifier,
    .leftParen]

/-- An expression begins with one of a few tokens. -/
theorem Expression.exists_cons {level : Level} {ts : List Token} {e : Expr}
    (h : Expression level ts e) : ∃ t us, ts = t :: us ∧ t.kind ∈ opensExpression := by
  induction h with
  | tighter _ _ ih => exact ih
  | assign htarget => exact ⟨_, _, rfl, by simp [htarget, opensExpression]⟩
  | operation _ _ _ _ ih =>
    obtain ⟨t, us, rfl, ht⟩ := ih
    exact ⟨t, _, List.cons_append .., ht⟩
  | prefixed hop =>
    refine ⟨_, _, rfl, ?_⟩
    rcases hop with hop | hop <;> simp [hop, opensExpression]
  | call _ _ _ _ _ _ ih =>
    obtain ⟨t, us, rfl, ht⟩ := ih
    exact ⟨t, _, by rw [List.cons_append, List.cons_append], ht⟩
  | grouping hopening => exact ⟨_, _, List.cons_append .., by simp [hopening, opensExpression]⟩
  | true_ ht => exact ⟨_, _, rfl, by simp [ht, opensExpression]⟩
  | false_ ht => exact ⟨_, _, rfl, by simp [ht, opensExpression]⟩
  | nil_ ht => exact ⟨_, _, rfl, by simp [ht, opensExpression]⟩
  | number ht => exact ⟨_, _, rfl, by simp [ht, opensExpression]⟩
  | string ht => exact ⟨_, _, rfl, by simp [ht, opensExpression]⟩
  | name ht => exact ⟨_, _, rfl, by simp [ht, opensExpression]⟩

/-- A call does not begin with an operator. -/
theorem Expression.exists_cons_of_call {ts : List Token} {e : Expr} (h : Expression .call ts e) :
    ∃ t us, ts = t :: us ∧ t.kind ≠ .bang ∧ t.kind ≠ .minus := by
  have hlevel : ∀ {level ts e}, Expression level ts e → level = .call ∨ level = .primary →
      ∃ t us, ts = t :: us ∧ t.kind ≠ .bang ∧ t.kind ≠ .minus := by
    intro level ts e h
    induction h with
    | tighter htighter _ ih =>
      rintro (rfl | rfl)
      · cases htighter
        exact ih (.inr rfl)
      · cases htighter
    | operation _ _ hop =>
      rintro (rfl | rfl) <;> cases hop
    | assign | prefixed => simp
    | call _ _ _ _ _ _ ih =>
      intro _
      obtain ⟨t, us, rfl, ht⟩ := ih (.inl rfl)
      exact ⟨t, _, by rw [List.cons_append, List.cons_append], ht⟩
    | grouping hkind =>
      intro _
      exact ⟨_, _, List.cons_append .., by simp [hkind]⟩
    | true_ hkind | false_ hkind | nil_ hkind | number hkind | string hkind | name hkind =>
      intro _
      exact ⟨_, _, rfl, by simp [hkind]⟩
  exact hlevel h (.inl rfl)

/-- A name is an expression on the level of assignment targets. -/
theorem Expression.disjunction_name {t : Token} (h : t.kind = .identifier) :
    Expression .disjunction [t] (.name t) := by
  refine .tighter rfl (.tighter rfl (.tighter rfl (.tighter rfl (.tighter rfl (.tighter rfl ?_)))))
  exact .tighter rfl (.tighter rfl (.name h))

/-- An expression that is a name is a single token. -/
theorem Expression.eq_of_name {level : Level} {ts : List Token} {t : Token}
    (he : Expression level ts (.name t)) : ts = [t] ∧ t.kind = .identifier := by
  generalize hname : Expr.name t = e at he
  induction he with
  | tighter _ _ ih => exact ih hname
  | @operation level =>
    cases level <;> cases hname
  | name hkind =>
    cases hname
    exact ⟨rfl, hkind⟩
  | _ => cases hname

/-- The kinds of tokens that no statement begins with, although they can stand behind one. -/
def closesStatement : List TokenKind := [.keyword .else_, .rightBrace]

theorem not_mem_closesStatement {kind : TokenKind} (h : kind ∈ opensExpression) :
    kind ∉ closesStatement := by
  have hdisjoint : ∀ kind ∈ opensExpression, kind ∉ closesStatement := by decide
  exact hdisjoint kind h

theorem ExpressionStatement.exists_cons {ts : List Token} {s : Stmt}
    (h : ExpressionStatement ts s) : ∃ t us, ts = t :: us ∧ t.kind ∈ opensExpression := by
  cases h with
  | mk he _ =>
    obtain ⟨t, us, rfl, ht⟩ := he.exists_cons
    exact ⟨t, _, List.cons_append .., ht⟩

/-- A statement begins with a token, and not with one that could stand behind it. -/
theorem Statement.exists_cons {category : Category} {ts : List Token} {s : Stmt}
    (h : Statement category ts s) : ∃ t us, ts = t :: us ∧ t.kind ∉ closesStatement := by
  have of_kind : ∀ {t : Token} {us : List Token} {kind : TokenKind}, t.kind = kind →
      kind ∉ closesStatement → ∃ t' us', t :: us = t' :: us' ∧ t'.kind ∉ closesStatement := by
    rintro t us kind rfl hkind
    exact ⟨t, us, rfl, hkind⟩
  induction h with
  | statement _ ih => exact ih
  | function hfun => exact of_kind hfun (by decide)
  | variable_ hs => cases hs with
    | mk hvar => exact of_kind hvar (by decide)
  | expression hs =>
    obtain ⟨t, us, rfl, ht⟩ := hs.exists_cons
    exact ⟨t, us, rfl, not_mem_closesStatement ht⟩
  | print hkeyword => exact of_kind hkeyword (by decide)
  | returnValue hkeyword => exact of_kind hkeyword (by decide)
  | block hleft => exact of_kind hleft (by decide)
  | loop hkeyword => exact of_kind hkeyword (by decide)
  | forLoop hkeyword => exact of_kind hkeyword (by decide)
  | branch hkeyword => exact of_kind hkeyword (by decide)
  | branches hkeyword => exact of_kind hkeyword (by decide)

/-- A statement that is not a mere declaration does not begin like one. -/
theorem Statement.exists_cons_of_statement {dangling : Bool} {ts : List Token} {s : Stmt}
    (h : Statement (.statement dangling) ts s) :
    ∃ t us, ts = t :: us ∧ t.kind ≠ .keyword .fun_ ∧ t.kind ≠ .keyword .var_ := by
  cases h with
  | expression hs =>
    obtain ⟨t, us, rfl, ht⟩ := hs.exists_cons
    have hneither : ∀ kind ∈ opensExpression, kind ≠ .keyword .fun_ ∧ kind ≠ .keyword .var_ := by
      decide
    exact ⟨t, us, rfl, hneither _ ht⟩
  | print hkeyword => exact ⟨_, _, rfl, by simp [hkeyword]⟩
  | returnValue hkeyword => exact ⟨_, _, rfl, by simp [hkeyword]⟩
  | block hleft => exact ⟨_, _, rfl, by simp [hleft]⟩
  | loop hkeyword => exact ⟨_, _, rfl, by simp [hkeyword]⟩
  | forLoop hkeyword => exact ⟨_, _, rfl, by simp [hkeyword]⟩
  | branch hkeyword => exact ⟨_, _, rfl, by simp [hkeyword]⟩
  | branches hkeyword => exact ⟨_, _, rfl, by simp [hkeyword]⟩

end Grammar

end LoxLang
