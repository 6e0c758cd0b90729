import LoxLang.Program
import LoxLang.Text

/-!
# Values

Values are what expressions evaluate to. They are never changed in place: assignment binds a name to
another value. A function value is a declaration together with an **identity**, a number that tells
it from every other execution of that declaration; it holds no scope, since a function sees nothing
but the globals and its own locals.
-/

namespace LoxLang

/-- A function declaration. -/
structure Function where
  name : Token
  parameters : List Token
  body : List Stmt

/-- A built-in function. The one that programs find in their globals is `clock`. -/
structure Native where
  name : String
  arity : Nat

/-- The **values** of the language. -/
inductive Value
  | nil
  | bool (value : Bool)
  | number (value : Float)
  | string (value : String)
  | native (function : Native) (identity : Nat)
  | function (function : Function) (identity : Nat)

namespace Value

/-- The value of a literal. -/
def ofLiteral : Literal → Value
  | .nil => nil
  | .bool b => bool b
  | .number x => number x
  | .string s => string s

/-- Only `nil` and `false` do not count as true. -/
def isTruthy : Value → Bool
  | nil => false
  | bool b => b
  | _ => true

/-- Whether a value is a number. -/
def isNumber : Value → Bool
  | number _ => true
  | _ => false

/-- Whether a value is a string. -/
def isString : Value → Bool
  | string _ => true
  | _ => false

theorem isNumber_iff {v : Value} : v.isNumber ↔ ∃ x, v = number x := by
  cases v <;> simp [isNumber]

theorem isString_iff {v : Value} : v.isString ↔ ∃ s, v = string s := by
  cases v <;> simp [isString]

/-- **Equality** of the language. Values of different kinds are different, numbers are compared as
doubles, and functions by identity. -/
def equals : Value → Value → Bool
  | nil, nil => true
  | bool a, bool b => a == b
  | number x, number y => x == y
  | string s, string t => s == t
  | native _ i, native _ j => i == j
  | function _ i, function _ j => i == j
  | _, _ => false

/-- How many arguments a value takes, if it can be called. -/
def arity? : Value → Option Nat
  | native f _ => some f.arity
  | function f _ => some f.parameters.length
  | _ => none

/-- The text that `print` writes. Numbers have two decimal places. -/
def display : Value → String
  | nil => "nil"
  | bool true => "true"
  | bool false => "false"
  | number x => String.ofList (Decimal.fixed 2 x)
  | string s => s
  | native _ _ => "<native fn>"
  | function f _ => "<fn " ++ f.name.lexeme ++ ">"

/-- The description of a function, which no program sees. -/
def description? : Value → Option String
  | native f _ =>
    some ("NativeFunction(" ++ quoted f.name ++ ", arity=" ++ toString f.arity ++ ")")
  | function f _ =>
    some ("UserFunction(" ++ quoted f.name.lexeme ++ ", arity=" ++
      toString f.parameters.length ++ ")")
  | _ => none

/-- The built-in `clock`, which takes nothing and gives the seconds since the epoch. -/
def clock : Value := native ⟨"clock", 0⟩ 0

end Value

end LoxLang
