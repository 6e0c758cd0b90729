import LoxLang.Evaluation.Interrupt

/-!
# Operators on values

What the unary and binary operators do to values that are already there. Arithmetic and comparison
are those of IEEE 754 doubles, so division by zero is no error.
-/

namespace LoxLang

/-- Interrupts with a runtime error. -/
def fail {α : Type} (token : Token) (cause : RuntimeCause) : Except Interrupt α :=
  .error (.failure ⟨token, cause⟩)

/-- A **unary** operator: a minus takes a number, and every other operator is the negation of what
counts as true. -/
def applyUnary (op : Token) (operand : Value) : Except Interrupt Value :=
  if op.kind = .minus then
    match operand with
    | .number x => .ok (.number (-x))
    | _ => fail op .operandNotNumber
  else .ok (.bool (!operand.isTruthy))

/-- A unary operator fails **at itself**. -/
theorem eq_failure_of_applyUnary {op : Token} {operand : Value} {e : Interrupt}
    (h : applyUnary op operand = .error e) : ∃ cause, e = .failure ⟨op, cause⟩ := by
  unfold applyUnary at h
  split at h
  · split at h
    · cases h
    · exact ⟨_, (Except.error.inj h).symm⟩
  · cases h

/-- An operator on two numbers. -/
def applyNumbers (op : Token) (x y : Float) : Except Interrupt Value :=
  match op.kind with
  | .minus => .ok (.number (x - y))
  | .star => .ok (.number (x * y))
  | .slash => .ok (.number (x / y))
  | .greater => .ok (.bool (decide (y < x)))
  | .greaterEqual => .ok (.bool (decide (y ≤ x)))
  | .less => .ok (.bool (decide (x < y)))
  | .lessEqual => .ok (.bool (decide (x ≤ y)))
  | _ => .error (.abort (.unknownOperator op))

/-- A **binary** operator. A plus adds numbers and joins strings, equality takes any values, and the
other operators take numbers. -/
def applyBinary (op : Token) (left right : Value) : Except Interrupt Value :=
  match op.kind with
  | .plus =>
    match left, right with
    | .number x, .number y => .ok (.number (x + y))
    | .string s, .string t => .ok (.string (s ++ t))
    | _, _ => fail op .operandsNotAddable
  | .equalEqual => .ok (.bool (left.equals right))
  | .bangEqual => .ok (.bool (!left.equals right))
  | _ =>
    match left, right with
    | .number x, .number y => applyNumbers op x y
    | _, _ => fail op .operandsNotNumbers

/-- A binary operator fails **at itself**, if it is one. -/
theorem eq_failure_of_applyBinary {op : Token} {left right : Value} {e : Interrupt}
    (h : applyBinary op left right = .error e) :
    (∃ cause, e = .failure ⟨op, cause⟩) ∨ e = .abort (.unknownOperator op) := by
  unfold applyBinary at h
  split at h
  · split at h
    · cases h
    · cases h
    · exact .inl ⟨_, (Except.error.inj h).symm⟩
  · cases h
  · cases h
  · split at h
    · unfold applyNumbers at h
      split at h
      case h_8 => exact .inr (Except.error.inj h).symm
      all_goals cases h
    · exact .inl ⟨_, (Except.error.inj h).symm⟩

end LoxLang
