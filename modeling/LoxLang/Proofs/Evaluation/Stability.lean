import LoxLang.Evaluation

/-!
# What holds across evaluation

A relation between two memories is **stable** if it is reflexive and transitive, holds across each
single change that evaluation makes to a memory, and holds across a block or a call whenever it
holds across what runs inside. The main statements are `Memory.Stable.evaluate` and
`Memory.Stable.execute`: a stable relation holds between the memory that an expression or a
statement finds and the memory it leaves, whether it runs to its end or is interrupted.

This is the one induction over evaluation that laws of the form "afterwards as before" need; each
of them is then a few facts about single operations.
-/

namespace LoxLang

/-- **Stable** relations between the memories before and after. -/
structure Memory.Stable (R : Memory → Memory → Prop) : Prop where
  refl : ∀ m, R m m
  trans : ∀ {l m n}, R l m → R m n → R l n
  define : ∀ x v m, R m { m with scopes := m.scopes.define x v }
  assign : ∀ {x v m scopes}, m.scopes.assign? x v = some scopes → R m { m with scopes }
  print : ∀ line m, R m { m with printed := m.printed.push line }
  newFunction : ∀ m, R m { m with created := m.created + 1 }
  readClock : ∀ m, R m { m with readings := m.readings + 1 }
  block : ∀ {m m'}, R { m with scopes := m.scopes.enterBlock } m' →
    R m { m' with scopes := m'.scopes.exitBlock }
  call : ∀ {m m'}, R { m with scopes := m.scopes.enterCall.enterBlock } m' →
    R m { m' with scopes := m'.scopes.exitCall }

namespace Eval

/-- The memory that a computation leaves stands in the relation `R` to the one it finds, however it
ends. -/
def Within {α : Type} (R : Memory → Memory → Prop) (p : Eval α) : Prop := ∀ m, R m (p.run m).2

/-- To turn a `return` into a value changes no memory. -/
theorem Within.returned {R : Memory → Memory → Prop} {body : Eval Unit} (hb : body.Within R) :
    (Eval.returned body).Within R := by
  intro m
  rw [run_returned]
  exact hb m

end Eval

namespace Memory.Stable

variable {R : Memory → Memory → Prop} {α β : Type}

/-! ### Computations built from others -/

theorem ofResult (hR : Stable R) (r : Except Interrupt α) : (Eval.ofResult r).Within R := by
  intro m
  rw [Eval.run_ofResult]
  exact hR.refl m

theorem pure (hR : Stable R) (a : α) : (Pure.pure a : Eval α).Within R := hR.ofResult (.ok a)

theorem throw (hR : Stable R) (e : Interrupt) : (MonadExcept.throw e : Eval α).Within R :=
  hR.ofResult (.error e)

/-- What comes second keeps the relation to what the first left. -/
theorem behind (hR : Stable R) (p : Eval α) {f : α → Eval β} (hf : ∀ a, (f a).Within R)
    (m : Memory) : R (p.run m).2 ((p >>= f).run m).2 := by
  rw [Eval.run_bind]
  rcases p.run m with ⟨e | a, m'⟩
  · exact hR.refl m'
  · exact hf a m'

theorem bind (hR : Stable R) {p : Eval α} {f : α → Eval β} (hp : p.Within R)
    (hf : ∀ a, (f a).Within R) : (p >>= f).Within R :=
  fun m => hR.trans (hp m) (hR.behind p hf m)

theorem map (hR : Stable R) {p : Eval α} (f : α → β) (hp : p.Within R) : (f <$> p).Within R := by
  rw [← bind_pure_comp]
  exact hR.bind hp fun a => hR.pure (f a)

theorem forM (hR : Stable R) {f : α → Eval Unit} (hf : ∀ a, (f a).Within R) (as : List α) :
    (as.forM f).Within R := by
  induction as with
  | nil => exact hR.pure ()
  | cons a as ih => exact hR.bind (hf a) fun _ => ih

theorem mapM (hR : Stable R) {f : α → Eval β} (hf : ∀ a, (f a).Within R) (as : List α) :
    (as.mapM f).Within R := by
  induction as with
  | nil => exact hR.pure []
  | cons a as ih =>
    rw [List.mapM_cons]
    exact hR.bind (hf a) fun b => hR.bind ih fun bs => hR.pure (b :: bs)

theorem repeatWhile (hR : Stable R) {condition : Eval Bool} {body : Eval Unit}
    (hc : condition.Within R) (hb : body.Within R) (n : Nat) :
    (Eval.repeatWhile condition body n).Within R := by
  induction n with
  | zero => exact hR.throw _
  | succ n ih =>
    refine hR.bind hc fun holds => ?_
    cases holds with
    | true => exact hR.bind hb fun _ => ih
    | false => exact hR.pure ()

theorem inBlock (hR : Stable R) {body : Eval α} (hb : body.Within R) :
    (Eval.inBlock body).Within R := by
  intro m
  rw [Eval.run_inBlock]
  exact hR.block (hb _)

/-! ### Variables and calls -/

theorem lookup (hR : Stable R) (name : Token) : (Eval.lookup name).Within R := by
  intro m
  rw [Eval.run_lookup]
  exact hR.refl m

theorem assignTo (hR : Stable R) (name : Token) (v : Value) : (Eval.assign name v).Within R := by
  intro m
  rw [Eval.run_assign]
  split
  · next h => exact hR.assign h
  · exact hR.refl m

theorem bindParameters (hR : Stable R) (parameters : List Token) (arguments : List Value) :
    (Eval.bindParameters parameters arguments).Within R := by
  refine hR.forM (fun entry => ?_) _
  exact hR.define entry.1.lexeme entry.2

theorem callOf (hR : Stable R) (parameters : List Token) (arguments : List Value)
    {body : Eval Unit} (hb : body.Within R) : (Eval.call parameters arguments body).Within R := by
  intro m
  rw [Eval.run_call]
  refine hR.call (Eval.Within.returned ?_ _)
  exact hR.bind (hR.bindParameters parameters arguments) fun _ => hR.inBlock hb

theorem apply (hR : Stable R) (host : Host) {run : List Stmt → Eval Unit}
    (hrun : ∀ body, (run body).Within R) (paren : Token) (callee : Value)
    (arguments : List Value) : (Eval.apply host run paren callee arguments).Within R := by
  cases callee with
  | function f identity =>
    rw [Eval.apply_function]
    split
    · exact hR.callOf f.parameters arguments (hrun f.body)
    · exact hR.ofResult _
  | native f identity =>
    rw [Eval.apply_native]
    split
    · exact hR.readClock
    · exact hR.ofResult _
  | _ =>
    rw [Eval.apply_of_arity?_eq_none host run paren rfl]
    exact hR.ofResult _

/-! ### Expressions and statements -/

/-- One more level of nesting: both kinds of steps are built from steps that nest less. -/
private theorem within_succ (hR : Stable R) (host : Host) {n : Nat}
    (he : ∀ e, (LoxLang.evaluate host n e).Within R)
    (hs : ∀ s, (LoxLang.execute host n s).Within R) :
    (∀ e, (LoxLang.evaluate host (n + 1) e).Within R) ∧
      ∀ s, (LoxLang.execute host (n + 1) s).Within R := by
  refine ⟨fun e => ?_, fun s => ?_⟩
  · cases e with
    | literal value => rw [LoxLang.evaluate]; exact hR.pure _
    | grouping inner => rw [LoxLang.evaluate]; exact he inner
    | unary op operand =>
      rw [LoxLang.evaluate]
      exact hR.bind (he operand) fun _ => hR.ofResult _
    | binary left op right =>
      rw [LoxLang.evaluate]
      exact hR.bind (he left) fun _ => hR.bind (he right) fun _ => hR.ofResult _
    | logical left op right =>
      rw [LoxLang.evaluate]
      refine hR.bind (he left) fun v => ?_
      split
      · exact hR.pure v
      · exact he right
    | name token => rw [LoxLang.evaluate]; exact hR.lookup token
    | assign target value =>
      rw [LoxLang.evaluate]
      exact hR.bind (he value) fun v => hR.bind (hR.assignTo target v) fun _ => hR.pure v
    | call callee paren arguments =>
      rw [LoxLang.evaluate]
      exact hR.bind (he callee) fun f => hR.bind (hR.mapM he arguments) fun vs =>
        hR.apply host (hR.forM hs) paren f vs
  · cases s with
    | expression value => rw [LoxLang.execute]; exact hR.bind (he value) fun _ => hR.pure ()
    | print value => rw [LoxLang.execute]; exact hR.bind (he value) fun v => hR.print v.display
    | declare target value =>
      cases value with
      | none => rw [LoxLang.execute]; exact hR.define target.lexeme .nil
      | some value =>
        rw [LoxLang.execute]
        exact hR.bind (he value) fun v => hR.define target.lexeme v
    | block body => rw [LoxLang.execute]; exact hR.inBlock (hR.forM hs body)
    | branch condition yes no =>
      cases no with
      | none =>
        rw [LoxLang.execute]
        refine hR.bind (he condition) fun v => ?_
        split
        · exact hs yes
        · exact hR.pure ()
      | some no =>
        rw [LoxLang.execute]
        refine hR.bind (he condition) fun v => ?_
        split
        · exact hs yes
        · exact hs no
    | loop condition body =>
      rw [LoxLang.execute]
      exact hR.repeatWhile (hR.map Value.isTruthy (he condition)) (hs body) _
    | function target parameters body =>
      rw [LoxLang.execute]
      exact hR.bind hR.newFunction fun f => hR.define target.lexeme f
    | returnValue keyword value =>
      cases value with
      | none => rw [LoxLang.execute]; exact hR.throw _
      | some value => rw [LoxLang.execute]; exact hR.bind (he value) fun v => hR.throw _

private theorem within (hR : Stable R) (host : Host) (n : Nat) :
    (∀ e, (LoxLang.evaluate host n e).Within R) ∧ ∀ s, (LoxLang.execute host n s).Within R := by
  induction n with
  | zero =>
    refine ⟨fun e => ?_, fun s => ?_⟩
    · rw [LoxLang.evaluate]; exact hR.throw _
    · rw [LoxLang.execute]; exact hR.throw _
  | succ n ih => exact hR.within_succ host ih.1 ih.2

/-- A stable relation holds across every **expression**. -/
theorem evaluate (hR : Stable R) (host : Host) (n : Nat) (e : Expr) :
    (LoxLang.evaluate host n e).Within R := (hR.within host n).1 e

/-- A stable relation holds across every **statement**. -/
theorem execute (hR : Stable R) (host : Host) (n : Nat) (s : Stmt) :
    (LoxLang.execute host n s).Within R := (hR.within host n).2 s

/-- A stable relation holds across every **list of statements**. -/
theorem executeAll (hR : Stable R) (host : Host) (n : Nat) (statements : List Stmt) :
    (LoxLang.executeAll host n statements).Within R := hR.forM (hR.execute host n) statements

end Memory.Stable

end LoxLang
