import LoxLang.Program.Parser

/-!
# Expressions at the front of a list

Parsers work on a cursor. What they read can be said without one: a **phrase** is read from the
front of a token list with no end token in it, or rejects it with one fault and the tokens from
where it stopped. Each rule of the grammar is one definition over the rule for expressions, and
`expression` closes the circle: a nested expression stands behind a token that is already read, so a
bound on the tokens that are left falls with every nesting.
-/

namespace LoxLang

/-- A syntax error and the token to blame, which is none where the tokens have run out. -/
structure SyntaxFault where
  blame : Option Token
  error : SyntaxError

/-- The diagnostic of a syntax fault. The end token stands for the end of the tokens. -/
def SyntaxFault.diagnostic (ending : Token) (f : SyntaxFault) : Diagnostic :=
  .atToken .static (f.blame.getD ending) f.error.message

/-- Why a rule stopped, and the tokens it had not read. -/
structure Reject where
  fault : SyntaxFault
  rest : List Token

/-- Reads an `α` from the front of a token list. -/
abbrev Phrase (α : Type) := StateT (List Token) (Except Reject) α

namespace Phrase

/-- Two phrases in a row succeed when the first does and the second does on what it leaves. -/
theorem bind_eq_ok_iff {α β : Type} {p : Phrase α} {f : α → Phrase β} {ts rest : List Token}
    {b : β} :
    (p >>= f) ts = .ok (b, rest) ↔
      ∃ a middle, p ts = .ok (a, middle) ∧ f a middle = .ok (b, rest) := by
  cases h : p ts with
  | error e => simp [bind, StateT.bind, Except.bind, h]
  | ok v =>
    have hb : (p >>= f) ts = f v.1 v.2 := by simp [bind, StateT.bind, Except.bind, h]
    rw [hb]
    constructor
    · intro hf
      exact ⟨v.1, v.2, rfl, hf⟩
    · rintro ⟨a, middle, hv, hf⟩
      cases hv
      exact hf

/-- What stands behind a phrase that has read is read by the next one. -/
theorem bind_of_ok {α β : Type} {p : Phrase α} {f : α → Phrase β} {ts rest : List Token} {a : α}
    (h : p ts = .ok (a, rest)) : (p >>= f) ts = f a rest := by
  simp [bind, StateT.bind, Except.bind, h]

/-- Behind a phrase that rejects, nothing is read. -/
theorem bind_of_error {α β : Type} {p : Phrase α} {f : α → Phrase β} {ts : List Token} {e : Reject}
    (h : p ts = .error e) : (p >>= f) ts = .error e := by
  simp [bind, StateT.bind, Except.bind, h]

/-! ### Single tokens -/

/-- Stops with a fault at a token that is already read. -/
def rejectAt {α : Type} (t : Token) (e : SyntaxError) : Phrase α :=
  fun ts => .error ⟨⟨some t, e⟩, ts⟩

/-- Stops with a fault at the next token. -/
def reject {α : Type} (e : SyntaxError) : Phrase α := fun ts => .error ⟨⟨ts.head?, e⟩, ts⟩

/-- Whether the next token has a kind in `p`. -/
def ahead (p : TokenKind → Bool) : Phrase Bool :=
  fun ts => .ok (ts.head?.any fun t => p t.kind, ts)

/-- Reads the next token if it has a kind in `p`. -/
def accept? (p : TokenKind → Bool) : Phrase (Option Token)
  | [] => .ok (none, [])
  | t :: ts => if p t.kind then .ok (some t, ts) else .ok (none, t :: ts)

/-- Reads a token of a kind. -/
def expect (kind : TokenKind) (e : SyntaxError) : Phrase Token := do
  match ← accept? (· = kind) with
  | some t => pure t
  | none => reject e

/-- Reads the symbol that belongs at a place. -/
def symbol (place : Place) : Phrase Token := expect place.symbol (.noSymbol place)

/-- Reads a name. -/
def identifier (role : Named) : Phrase Token := expect .identifier (.noName role)

theorem pure_eq_ok_iff {α : Type} {a b : α} {ts rest : List Token} :
    (pure a : Phrase α) ts = .ok (b, rest) ↔ a = b ∧ ts = rest := by
  change Except.ok (a, ts) = .ok (b, rest) ↔ _
  rw [Except.ok.injEq, Prod.mk.injEq]

theorem map_eq_ok_iff {α β : Type} {f : α → β} {p : Phrase α} {ts rest : List Token} {b : β} :
    (f <$> p) ts = .ok (b, rest) ↔ ∃ a, p ts = .ok (a, rest) ∧ f a = b := by
  rw [← bind_pure_comp, bind_eq_ok_iff]
  constructor
  · rintro ⟨a, middle, hp, hf⟩
    obtain ⟨hb, rfl⟩ := pure_eq_ok_iff.mp hf
    exact ⟨a, hp, hb⟩
  · rintro ⟨a, hp, hb⟩
    exact ⟨a, rest, hp, pure_eq_ok_iff.mpr ⟨hb, rfl⟩⟩

theorem accept?_eq_some_iff {p : TokenKind → Bool} {ts rest : List Token} {t : Token} :
    accept? p ts = .ok (some t, rest) ↔ ts = t :: rest ∧ p t.kind := by
  cases ts with
  | nil => simp [accept?]
  | cons t' ts =>
    rw [accept?]
    split
    · next h =>
      simp only [Except.ok.injEq, Prod.mk.injEq, Option.some.injEq, List.cons.injEq]
      constructor
      · rintro ⟨rfl, rfl⟩
        exact ⟨⟨rfl, rfl⟩, h⟩
      · exact And.left
    · next h =>
      simp only [Except.ok.injEq, Prod.mk.injEq, List.cons.injEq, reduceCtorEq, false_and,
        false_iff]
      rintro ⟨⟨rfl, -⟩, ht⟩
      exact h ht

theorem accept?_eq_none_iff {p : TokenKind → Bool} {ts rest : List Token} :
    accept? p ts = .ok (none, rest) ↔ rest = ts ∧ ∀ t ∈ ts.head?, ¬ p t.kind := by
  have hnone : (.ok (none, ts) : Except Reject (Option Token × List Token)) = .ok (none, rest) ↔
      rest = ts := by
    rw [Except.ok.injEq, Prod.mk.injEq]
    exact ⟨fun h => h.2.symm, fun h => ⟨rfl, h.symm⟩⟩
  cases ts with
  | nil =>
    rw [accept?, hnone]
    simp
  | cons t ts =>
    rw [accept?]
    split
    · next h => simp [h]
    · next h =>
      rw [hnone]
      simp [h]

theorem expect_eq_ok_iff {kind : TokenKind} {e : SyntaxError} {ts rest : List Token} {t : Token} :
    expect kind e ts = .ok (t, rest) ↔ ts = t :: rest ∧ t.kind = kind := by
  rw [expect, bind_eq_ok_iff]
  constructor
  · rintro ⟨o, middle, haccept, h⟩
    cases o with
    | none => cases h
    | some t' =>
      obtain ⟨rfl, rfl⟩ := pure_eq_ok_iff.mp h
      obtain ⟨rfl, ht⟩ := accept?_eq_some_iff.mp haccept
      exact ⟨rfl, of_decide_eq_true ht⟩
  · rintro ⟨rfl, ht⟩
    refine ⟨some t, rest, accept?_eq_some_iff.mpr ⟨rfl, decide_eq_true ht⟩, ?_⟩
    exact pure_eq_ok_iff.mpr ⟨rfl, rfl⟩

/-- Behind a token of a kind, the next phrase goes on. -/
theorem expect_bind_eq_ok_iff {α : Type} {kind : TokenKind} {e : SyntaxError} {f : Token → Phrase α}
    {ts rest : List Token} {b : α} :
    (expect kind e >>= f) ts = .ok (b, rest) ↔
      ∃ t us, ts = t :: us ∧ t.kind = kind ∧ f t us = .ok (b, rest) := by
  rw [bind_eq_ok_iff]
  constructor
  · rintro ⟨t, us, hread, hf⟩
    obtain ⟨rfl, ht⟩ := expect_eq_ok_iff.mp hread
    exact ⟨t, us, rfl, ht, hf⟩
  · rintro ⟨t, us, rfl, ht, hf⟩
    exact ⟨t, us, expect_eq_ok_iff.mpr ⟨rfl, ht⟩, hf⟩

/-! ### Lists -/

/-- Reads one to `limit` items with commas between them. -/
def commaList {α : Type} (list : Listed) (item : Phrase α) : Nat → Phrase (List α)
  | 0 => reject (.tooMany list)
  | limit + 1 => do
    let first ← item
    match ← accept? (· = .comma) with
    | some _ => do
      let others ← commaList list item limit
      pure (first :: others)
    | none => pure [first]

/-- Reads the items up to a closing parenthesis, which stays unread: none if it follows at once,
and at most `maxArguments`. -/
def listed {α : Type} (list : Listed) (item : Phrase α) : Phrase (List α) := do
  if ← ahead (· = .rightParen) then pure [] else commaList list item maxArguments

/-- Reads operators with operands behind them as long as they follow, at most `n` of them, and
combines them to the left. -/
def chain (operators : TokenKind → Bool) (combine : Expr → Token → Expr → Expr)
    (operand : Phrase Expr) : Nat → Expr → Phrase Expr
  | 0, left => pure left
  | n + 1, left => do
    match ← accept? operators with
    | some op => do
      let right ← operand
      chain operators combine operand n (combine left op right)
    | none => pure left

/-- A **left-associative** level of the grammar: `operand (operator operand)*`. -/
def leftAssociative (n : Nat) (operators : TokenKind → Bool)
    (combine : Expr → Token → Expr → Expr) (operand : Phrase Expr) : Phrase Expr := do
  let left ← operand
  chain operators combine operand n left

/-! ### The rules, over the rule for expressions

The number `n` bounds the tokens that are left. -/

/-- `"true" | "false" | "nil" | NUMBER | STRING | IDENTIFIER | "(" expression ")"` -/
def primary (expression : Phrase Expr) : Phrase Expr
  | [] => reject .noExpression []
  | t :: ts =>
    match t.kind with
    | .keyword .false_ => .ok (.literal (.bool false), ts)
    | .keyword .true_ => .ok (.literal (.bool true), ts)
    | .keyword .nil_ => .ok (.literal .nil, ts)
    | .number | .string => .ok (.literal t.literal, ts)
    | .identifier => .ok (.name t, ts)
    | .leftParen =>
      (do
        let inner ← expression
        let _ ← symbol .afterExpression
        pure (.grouping inner) : Phrase Expr) ts
    | _ => reject .noExpression (t :: ts)

/-- The argument lists behind a callee, at most `n` of them. -/
def callChain (expression : Phrase Expr) : Nat → Expr → Phrase Expr
  | 0, callee => pure callee
  | n + 1, callee => do
    match ← accept? (· = .leftParen) with
    | some _ => do
      let arguments ← listed .arguments expression
      let paren ← symbol .afterArguments
      callChain expression n (.call callee paren arguments)
    | none => pure callee

/-- `primary ("(" arguments? ")")*` -/
def call (n : Nat) (expression : Phrase Expr) : Phrase Expr := do
  let callee ← primary expression
  callChain expression n callee

/-- `("!" | "-") unary | call` -/
def unary (n : Nat) (expression : Phrase Expr) : Phrase Expr
  | [] => call n expression []
  | t :: ts =>
    if t.kind = .bang || t.kind = .minus then
      (unary n expression ts).map fun (e, rest) => (.unary t e, rest)
    else call n expression (t :: ts)

/-- `unary (("/" | "*") unary)*` -/
def factor (n : Nat) (expression : Phrase Expr) : Phrase Expr :=
  leftAssociative n (fun kind => kind = .slash || kind = .star) .binary (unary n expression)

/-- `factor (("-" | "+") factor)*` -/
def term (n : Nat) (expression : Phrase Expr) : Phrase Expr :=
  leftAssociative n (fun kind => kind = .minus || kind = .plus) .binary (factor n expression)

/-- `term ((">" | ">=" | "<" | "<=") term)*` -/
def comparison (n : Nat) (expression : Phrase Expr) : Phrase Expr :=
  leftAssociative n (fun kind => kind = .greater || kind = .greaterEqual || kind = .less ||
    kind = .lessEqual) .binary (term n expression)

/-- `comparison (("!=" | "==") comparison)*` -/
def equality (n : Nat) (expression : Phrase Expr) : Phrase Expr :=
  leftAssociative n (fun kind => kind = .bangEqual || kind = .equalEqual) .binary
    (comparison n expression)

/-- `equality ("and" equality)*` -/
def conjunction (n : Nat) (expression : Phrase Expr) : Phrase Expr :=
  leftAssociative n (· = .keyword .and_) .logical (equality n expression)

/-- `conjunction ("or" conjunction)*` -/
def disjunction (n : Nat) (expression : Phrase Expr) : Phrase Expr :=
  leftAssociative n (· = .keyword .or_) .logical (conjunction n expression)

/-- `IDENTIFIER "=" expression | disjunction`. The target is read as a disjunction, and that it is
a name is found out when the value behind the equals sign has been read. -/
def assignment (n : Nat) (expression : Phrase Expr) : Phrase Expr := do
  let target ← disjunction n expression
  match ← accept? (· = .equal) with
  | none => pure target
  | some equals => do
    let value ← expression
    match target with
    | .name t => pure (.assign t value)
    | _ => rejectAt equals .invalidTarget

/-- Reads the longest **expression** at the front of a list of at most `n` tokens. -/
def expression : Nat → Phrase Expr
  | 0 => reject .noExpression
  | n + 1 => assignment n (expression n)

end Phrase

end LoxLang
