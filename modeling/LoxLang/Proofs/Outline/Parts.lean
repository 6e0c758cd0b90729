import LoxLang.Program.Outline

/-!
# The parts of an outline

The outline of a statement is its **heading**, words with a space between them, and behind it the
outlines of the statements in it, each on a line of its own one level deeper; all that is in
parentheses (`Stmt.outline_eq`). Whatever holds of a statement if it holds of the statements in it
holds of every statement (`Stmt.parts_induction`). An expression that is no literal and no name is
words in parentheses (`Expr.outline_eq`).
-/

namespace LoxLang

/-! ### Expressions -/

/-- The words of an expression that is in parentheses: a tag or an operator, a name if it is an
assignment, and the outlines of its operands. -/
def Expr.words : Expr → List String
  | literal _ | name _ => []
  | grouping inner => ["group", inner.outline]
  | unary op operand => [op.lexeme, operand.outline]
  | binary left op right | logical left op right => [op.lexeme, left.outline, right.outline]
  | assign target value => ["=", target.lexeme, value.outline]
  | call callee _ arguments => "call" :: callee.outline :: arguments.map outline

theorem Expr.outlines_eq (es : List Expr) : outlines es = es.map outline := by
  induction es with
  | nil => rw [outlines, List.map_nil]
  | cons e es ih => rw [outlines, List.map_cons, ih]

theorem parenthesized_eq (head : String) (operands : List String) :
    parenthesized head operands = "(" ++ " ".intercalate (head :: operands) ++ ")" := by
  have hrest : ∀ (head : String) (operands : List String),
      head ++ operands.foldr (fun s rest => " " ++ s ++ rest) "" =
        " ".intercalate (head :: operands) := by
    intro head operands
    induction operands generalizing head with
    | nil => rw [List.foldr_nil, String.append_empty, String.intercalate_singleton]
    | cons s operands ih =>
      rw [List.foldr_cons, String.intercalate_cons_cons, ← ih s, String.append_assoc,
        String.append_assoc]
  have hopening := congrArg (fun text => "(" ++ text ++ ")") (hrest head operands)
  simpa only [parenthesized, String.append_assoc] using hopening

/-- The outline of an expression is its **words**, in parentheses, unless it is a single one. -/
theorem Expr.outline_eq (e : Expr) (h : e.words ≠ []) :
    e.outline = "(" ++ " ".intercalate e.words ++ ")" := by
  -- As lists of characters, since `"= "` is a word and the space behind it.
  refine String.toList_inj.mp ?_
  cases e with
  | literal | name => exact absurd rfl h
  | call => simp [outline, parenthesized_eq, outlines_eq, words]
  | _ => simp [outline, parenthesized_eq, words]

/-! ### Statements -/

namespace Stmt

/-- The words of the **heading** of a statement. -/
def words : Stmt → List String
  | expression value => [";", value.outline]
  | print value => ["print", value.outline]
  | declare target none => ["var", target.lexeme]
  | declare target (some value) => ["var", target.lexeme, value.outline]
  | block _ => ["block"]
  | branch condition _ _ => ["if", condition.outline]
  | loop condition _ => ["while", condition.outline]
  | function target parameters _ =>
    ["fun", target.lexeme, "(" ++ " ".intercalate (parameters.map Token.lexeme) ++ ")"]
  | returnValue _ none => ["return"]
  | returnValue _ (some value) => ["return", value.outline]

/-- The heading of a statement in its outline. -/
def heading (s : Stmt) : String := " ".intercalate s.words

/-- The statements **in** a statement. -/
def parts : Stmt → List Stmt
  | block body => body
  | branch _ yes none => [yes]
  | branch _ yes (some no) => [yes, no]
  | loop _ body => [body]
  | function _ _ body => body
  | expression _ | print _ | declare _ _ | returnValue _ _ => []

theorem sizeOf_lt_of_mem_parts {s t : Stmt} (h : t ∈ s.parts) : sizeOf t < sizeOf s := by
  cases s with
  | block body =>
    have hlt : sizeOf t < sizeOf body := List.sizeOf_lt_of_mem h
    simp only [block.sizeOf_spec]
    omega
  | branch condition yes no =>
    cases no with
    | none =>
      rw [List.mem_singleton.mp h]
      simp only [branch.sizeOf_spec]
      omega
    | some no =>
      have hlt : sizeOf t ≤ sizeOf yes + sizeOf no := by
        rcases List.mem_cons.mp h with rfl | h
        · omega
        · rw [List.mem_singleton.mp h]
          omega
      simp only [branch.sizeOf_spec, Option.some.sizeOf_spec]
      omega
  | loop condition body =>
    rw [List.mem_singleton.mp h]
    simp only [loop.sizeOf_spec]
    omega
  | function target parameters body =>
    have hlt : sizeOf t < sizeOf body := List.sizeOf_lt_of_mem h
    simp only [function.sizeOf_spec]
    omega
  | _ => cases h

/-- What holds of a statement if it holds of the statements **in** it holds of every statement. -/
theorem parts_induction {P : Stmt → Prop} (h : ∀ s, (∀ t ∈ s.parts, P t) → P s) (s : Stmt) : P s :=
  h s fun t ht =>
    have := sizeOf_lt_of_mem_parts ht
    parts_induction h t
termination_by sizeOf s

/-- The space in front of a line is four spaces for each level. -/
theorem toList_indent (level : Nat) : (indent level).toList = List.replicate (4 * level) ' ' := by
  induction level with
  | zero => rfl
  | succ level ih =>
    rw [indent, String.toList_append, ih, Nat.mul_succ, Nat.add_comm,
      ← List.replicate_append_replicate]
    rfl

/-- A nested statement has a **line** of its own. -/
theorem toList_nested_cons (level : Nat) (s : Stmt) (ss : List Stmt) :
    (nested level (s :: ss)).toList =
      '\n' :: (s.lines level).toList ++ (nested level ss).toList := by
  simp [nested, lines]

/-- The outline of a statement is its **heading** and the outlines of the statements in it. -/
theorem outline_eq (level : Nat) (s : Stmt) :
    s.outline level = "(" ++ (s.heading ++ nested (level + 1) s.parts) ++ ")" := by
  refine String.toList_inj.mp ?_
  cases s with
  | expression value => simp [outline, parenthesized_eq, heading, words, parts, nested]
  | print value => simp [outline, parenthesized_eq, heading, words, parts, nested]
  | declare target value =>
    cases value <;> simp [outline, parenthesized_eq, heading, words, parts, nested]
  | block body => simp [outline, heading, words, parts]
  | branch condition yes no =>
    cases no <;> simp [outline, heading, words, parts, nested]
  | loop condition body => simp [outline, heading, words, parts, nested]
  | function target parameters body => simp [outline, heading, words, parts]
  | returnValue keyword value =>
    cases value <;> simp [outline, parenthesized_eq, heading, words, parts, nested]

end Stmt

end LoxLang
