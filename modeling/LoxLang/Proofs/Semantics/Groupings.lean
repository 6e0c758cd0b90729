import LoxLang.Proofs.Evaluation.ValueMaps

/-!
# Redundant parentheses

The **erasure** of a program has what every pair of parentheses groups in the place of the grouping,
in the bodies of its functions as well. Parentheses shape the tree and mean nothing behind that: a
program and its erasure print the same, come to the same end and leave the same memory, where values
count as the same if the functions among them have the same erasure.

Erasure works on the values of a memory as well. So a program runs as its erasure does on the erased
memory (`execute_erase`), unless it overflows: the grouping that is gone was one more step of
nesting. Two runs are compared by way of that third one (`executeAll_eq_of_erase_eq`).
-/

namespace LoxLang

/-! ### Erasure -/

/-- The **erasure** of an expression: every grouping is replaced by what it groups. -/
def Expr.erase : Expr → Expr
  | literal value => literal value
  | grouping inner => inner.erase
  | unary op operand => unary op operand.erase
  | binary left op right => binary left.erase op right.erase
  | logical left op right => logical left.erase op right.erase
  | name token => name token
  | assign target value => assign target value.erase
  | call callee paren arguments => call callee.erase paren (arguments.map erase)

/-- The **erasure** of a statement, down to the bodies of the functions it declares. -/
def Stmt.erase : Stmt → Stmt
  | expression value => expression value.erase
  | print value => print value.erase
  | declare target value => declare target (value.map Expr.erase)
  | block body => block (body.map erase)
  | branch condition yes none => branch condition.erase yes.erase none
  | branch condition yes (some no) => branch condition.erase yes.erase (some no.erase)
  | loop condition body => loop condition.erase body.erase
  | function target parameters body => function target parameters (body.map erase)
  | returnValue keyword value => returnValue keyword (value.map Expr.erase)

/-- The function with its body erased. -/
def Function.erase (f : Function) : Function := { f with body := f.body.map Stmt.erase }

/-- The **erasure** of a value, which changes the declarations of functions alone. -/
def Value.erase : Value → Value
  | function f identity => function f.erase identity
  | v => v

/-- The memory with every value erased. -/
def Memory.erase (m : Memory) : Memory := m.mapValues Value.erase

/-- Erasing each of a list twice erases it once, if that goes for its members. -/
private theorem map_map_of_idempotent {α : Type} {erase : α → α} {as : List α}
    (h : ∀ a ∈ as, erase (erase a) = erase a) : (as.map erase).map erase = as.map erase := by
  rw [List.map_map]
  exact List.map_congr_left h

/-- What is erased has nothing left to erase. -/
theorem Expr.erase_erase (e : Expr) : e.erase.erase = e.erase := by
  induction e using Expr.erase.induct with
  | case1 value => simp only [erase]
  | case2 inner ih => rw [erase, ih]
  | case3 op operand ih => simp only [erase, ih]
  | case4 left op right ihleft ihright => simp only [erase, ihleft, ihright]
  | case5 left op right ihleft ihright => simp only [erase, ihleft, ihright]
  | case6 token => simp only [erase]
  | case7 target value ih => simp only [erase, ih]
  | case8 callee paren arguments ih iharguments =>
    simp only [erase, ih, map_map_of_idempotent iharguments]

private theorem erase_erase_option (value : Option Expr) :
    (value.map Expr.erase).map Expr.erase = value.map Expr.erase := by
  cases value with
  | none => rfl
  | some e => exact congrArg some e.erase_erase

theorem Stmt.erase_erase (s : Stmt) : s.erase.erase = s.erase := by
  induction s using Stmt.erase.induct with
  | case1 value => simp only [erase, value.erase_erase]
  | case2 value => simp only [erase, value.erase_erase]
  | case3 target value => simp only [erase, erase_erase_option]
  | case4 body ih => simp only [erase, map_map_of_idempotent ih]
  | case5 condition yes ih => simp only [erase, condition.erase_erase, ih]
  | case6 condition yes no ihyes ihno => simp only [erase, condition.erase_erase, ihyes, ihno]
  | case7 condition body ih => simp only [erase, condition.erase_erase, ih]
  | case8 target parameters body ih => simp only [erase, map_map_of_idempotent ih]
  | case9 keyword value => simp only [erase, erase_erase_option]

theorem Stmt.map_erase_erase (program : List Stmt) :
    (program.map erase).map erase = program.map erase :=
  map_map_of_idempotent fun s _ => s.erase_erase

/-! ### Values -/

namespace Value

theorem erase_ofLiteral (l : Literal) : (ofLiteral l).erase = ofLiteral l := by
  cases l <;> rfl

theorem isTruthy_erase (v : Value) : v.erase.isTruthy = v.isTruthy := by cases v <;> rfl

theorem display_erase (v : Value) : v.erase.display = v.display := by cases v <;> rfl

/-- Functions are equal by their identities, which erasure keeps. -/
theorem equals_erase (v w : Value) : v.erase.equals w.erase = v.equals w := by
  cases v <;> cases w <;> rfl

end Value

open Eval

theorem applyUnary_erase (op : Token) (v : Value) :
    mapResult Value.erase Value.erase (applyUnary op v) = applyUnary op v.erase := by
  unfold applyUnary
  split
  · cases v <;> rfl
  · rw [v.isTruthy_erase]
    rfl

/-- An operator on numbers makes no functions. -/
theorem applyNumbers_erase (op : Token) (x y : Float) :
    mapResult Value.erase Value.erase (applyNumbers op x y) = applyNumbers op x y := by
  unfold applyNumbers
  split <;> rfl

theorem applyBinary_erase (op : Token) (v w : Value) :
    mapResult Value.erase Value.erase (applyBinary op v w) = applyBinary op v.erase w.erase := by
  unfold applyBinary
  split
  · cases v <;> cases w <;> rfl
  · rw [v.equals_erase w]
    rfl
  · rw [v.equals_erase w]
    rfl
  · cases v with
    | number x =>
      cases w with
      | number y => exact applyNumbers_erase op x y
      | _ => rfl
    | _ => cases w <;> rfl

/-! ### Runs -/

section

variable (host : Host)

/-- A call of an erased function follows the call of the function, if the runs of erased bodies
follow those of the bodies. -/
theorem apply_erase {run run' : List Stmt → Eval Unit}
    (hrun : ∀ body, Follows Value.erase id (run body) (run' (body.map Stmt.erase)))
    (paren : Token) (callee : Value) (arguments : List Value) :
    Follows Value.erase Value.erase (apply host run paren callee arguments)
      (apply host run' paren callee.erase (arguments.map Value.erase)) := by
  cases callee with
  | function f identity =>
    rw [Value.erase, apply_function, apply_function, List.length_map]
    change Follows _ _ _ (if arguments.length = f.parameters.length then
      Eval.call f.parameters (arguments.map Value.erase) (run' (f.body.map Stmt.erase))
      else Eval.ofResult (fail paren (.wrongArity f.parameters.length arguments.length)))
    split
    · exact .call _ _ (hrun f.body) rfl
    · exact .ofResult rfl
  | native f identity =>
    change Follows _ _ _ (apply host run' paren (.native f identity) (arguments.map Value.erase))
    rw [apply_native, apply_native, List.length_map]
    split
    · exact .readClock host fun _ => rfl
    · exact .ofResult rfl
  | _ => exact .ofResult rfl

/-- **A run and its erasure.** With as much room for nesting, an erased expression follows the
expression, and an erased statement the statement. -/
private theorem evaluate_execute_erase {n n' : Nat} (hn : n ≤ n') :
    (∀ e, Follows Value.erase Value.erase (evaluate host n e) (evaluate host n' e.erase)) ∧
      ∀ s, Follows Value.erase id (execute host n s) (execute host n' s.erase) := by
  induction n generalizing n' with
  | zero => exact ⟨fun _ => .overflow _, fun _ => .overflow _⟩
  | succ n ih =>
    obtain ⟨k, rfl⟩ : ∃ k, n' = k + 1 := ⟨n' - 1, by omega⟩
    have hk : n ≤ k := by omega
    have hevaluate := (ih hk).1
    have hexecute := (ih hk).2
    have hbody : ∀ body : List Stmt, Follows Value.erase id (body.forM (execute host n))
        ((body.map Stmt.erase).forM (execute host k)) := Follows.forM hexecute
    constructor
    · intro e
      cases e with
      | literal value =>
        rw [Expr.erase]
        exact .pure (Value.erase_ofLiteral value)
      -- The erasure has one step less here, and so one more to go on with.
      | grouping inner =>
        rw [Expr.erase]
        exact (ih (Nat.le_succ_of_le hk)).1 inner
      | unary op operand =>
        rw [Expr.erase]
        exact (hevaluate operand).bind fun v => .ofResult (applyUnary_erase op v)
      | binary left op right =>
        rw [Expr.erase]
        exact (hevaluate left).bind fun v => (hevaluate right).bind fun w =>
          .ofResult (applyBinary_erase op v w)
      | logical left op right =>
        rw [Expr.erase]
        refine (hevaluate left).bind fun v => ?_
        rw [v.isTruthy_erase]
        split
        · exact .pure rfl
        · exact hevaluate right
      | name token =>
        rw [Expr.erase]
        exact .lookup token
      | assign target value =>
        rw [Expr.erase]
        exact (hevaluate value).bind fun v => (Follows.assign target v).bind fun _ => .pure rfl
      | call callee paren arguments =>
        rw [Expr.erase]
        exact (hevaluate callee).bind fun f => (Follows.mapM hevaluate arguments).bind fun vs =>
          apply_erase host hbody paren f vs
    · intro s
      cases s with
      | expression value =>
        rw [Stmt.erase]
        exact (hevaluate value).bind fun _ => .pure rfl
      | print value =>
        rw [Stmt.erase]
        refine (hevaluate value).bind fun v => ?_
        rw [v.display_erase]
        exact .print v.display
      | declare target value =>
        rw [Stmt.erase]
        cases value with
        | none => exact .define target.lexeme .nil
        | some e => exact (hevaluate e).bind fun v => .define target.lexeme v
      | block body =>
        rw [Stmt.erase]
        exact (hbody body).inBlock
      | branch condition yes no =>
        have hbranch : ∀ {no' : Eval Unit} {no'' : Eval Unit}, Follows Value.erase id no' no'' →
            Follows Value.erase id
              (do if (← evaluate host n condition).isTruthy then execute host n yes else no')
              (do if (← evaluate host k condition.erase).isTruthy
                  then execute host k yes.erase else no'') := by
          intro no' no'' hno
          refine (hevaluate condition).bind fun v => ?_
          rw [v.isTruthy_erase]
          split
          · exact hexecute yes
          · exact hno
        cases no with
        | none =>
          rw [Stmt.erase]
          exact hbranch (.pure rfl)
        | some s =>
          rw [Stmt.erase]
          exact hbranch (hexecute s)
      | loop condition body =>
        rw [Stmt.erase]
        exact .repeatWhile ((hevaluate condition).map fun v => v.isTruthy_erase.symm)
          (hexecute body) host.rounds
      | function target parameters body =>
        rw [Stmt.erase]
        exact (Follows.newFunction fun _ => rfl).bind fun f => .define target.lexeme f
      | returnValue keyword value =>
        rw [Stmt.erase]
        cases value with
        | none => exact .throw rfl
        | some e => exact (hevaluate e).bind fun _ => .throw rfl

variable {n n' : Nat}

/-- With as much room for nesting, an erased statement comes to what the statement comes to. -/
theorem execute_erase (hn : n ≤ n') (s : Stmt) :
    Follows Value.erase id (execute host n s) (execute host n' s.erase) :=
  (evaluate_execute_erase host hn).2 s

theorem executeAll_erase (hn : n ≤ n') (program : List Stmt) :
    Follows Value.erase id (executeAll host n program)
      (executeAll host n' (program.map Stmt.erase)) :=
  Follows.forM (execute_erase host hn) program

/-- **Redundant parentheses mean nothing.** A program and its erasure run from memories that are the
same up to erasure. If neither run overflows, both print the same, fail with the same error at the
same token or not at all, come to the same end up to the erasure of a value that is returned, and
leave memories that are the same up to erasure. -/
theorem executeAll_eq_of_erase_eq (program : List Stmt) {m m' : Memory} (hm : m'.erase = m.erase)
    (hgiven : ((executeAll host n program).run m).1 ≠ .error (.abort .overflow))
    (herased : ((executeAll host n' (program.map Stmt.erase)).run m').1 ≠
      .error (.abort .overflow)) :
    let given := (executeAll host n program).run m
    let erased := (executeAll host n' (program.map Stmt.erase)).run m'
    erased.2.printed = given.2.printed ∧
      (∀ e, erased.1 = .error (.failure e) ↔ given.1 = .error (.failure e)) ∧
      mapResult Value.erase id erased.1 = mapResult Value.erase id given.1 ∧
      erased.2.erase = given.2.erase := by
  intro given erased
  -- Both are compared with the erasure on the erased memory, nested as deeply as either may be.
  have hfirst := (executeAll_erase host (Nat.le_max_left n n') program m).resolve_left hgiven
  have hsecond := (executeAll_erase host (Nat.le_max_right n n') (program.map Stmt.erase)
    m').resolve_left herased
  rw [Stmt.map_erase_erase] at hsecond
  have hmeet : (mapResult Value.erase id erased.1, erased.2.erase) =
      (mapResult Value.erase id given.1, given.2.erase) :=
    hsecond.symm.trans ((congrArg _ hm).trans hfirst)
  obtain ⟨hresult, hmemory⟩ := Prod.mk.injEq .. ▸ hmeet
  have hprinted : erased.2.erase.printed = given.2.erase.printed :=
    congrArg Memory.printed hmemory
  refine ⟨hprinted, fun e => ?_, hresult, hmemory⟩
  rw [← mapResult_eq_failure_iff, hresult, mapResult_eq_failure_iff]

end

/-- The memory of a program that declared `fun g() { return e; }`. -/
private def declared (e : Expr) : Memory :=
  ⟨Scopes.empty.define "g" (.function ⟨.of .identifier "g", [],
    [.returnValue (.of (.keyword .return_) "return") (some e)]⟩ 0), #[], 1, 0⟩

/-- One run declares `g` to return `(nil)`, the other one `nil`. Then `print (g()); -(g);` prints
the same and fails at the same minus in both, although its erasure nests less deeply. -/
theorem executeAll_eq_of_erase_eq_of_call :
    let g := Expr.name (.of .identifier "g")
    let minus := Token.of .minus "-"
    let called := Expr.call g (.of .rightParen ")") []
    let program := [Stmt.print (.grouping called), .expression (.unary minus (.grouping g))]
    let m := declared (.grouping (.literal .nil))
    let m' := declared (.literal .nil)
    let given := (executeAll ⟨fun _ => 0, 0⟩ 6 program).run m
    let erased := (executeAll ⟨fun _ => 0, 0⟩ 4 (program.map Stmt.erase)).run m'
    m'.erase = m.erase ∧ given.1 = .error (.failure ⟨minus, .operandNotNumber⟩) ∧
      erased.1 = .error (.failure ⟨minus, .operandNotNumber⟩) ∧
      erased.2.printed = #["nil"] ∧ given.2.printed = #["nil"] ∧
      erased.2.erase = given.2.erase := by
  intro g minus called program m m' given erased
  have hm : m'.erase = m.erase := by
    simp [m, m', declared, Memory.erase, Memory.mapValues, Scopes.mapValues, Scopes.define,
      Scopes.empty, Frame.mapValues, Frame.bind, Value.erase, Function.erase, Stmt.erase,
      Expr.erase]
  have hprogram : program.map Stmt.erase = [.print called, .expression (.unary minus g)] := by
    simp [program, called, g, Stmt.erase, Expr.erase]
  have hgiven : given.1 = .error (.failure ⟨minus, .operandNotNumber⟩) := rfl
  have herased : erased.1 = .error (.failure ⟨minus, .operandNotNumber⟩) := by
    simp only [erased, hprogram]
    rfl
  have hrun := executeAll_eq_of_erase_eq ⟨fun _ => 0, 0⟩ program hm
    (by rw [hgiven]; rintro ⟨⟩) (by rw [herased]; rintro ⟨⟩)
  exact ⟨hm, hgiven, herased, hrun.1.trans rfl, rfl, hrun.2.2.2⟩

end LoxLang
