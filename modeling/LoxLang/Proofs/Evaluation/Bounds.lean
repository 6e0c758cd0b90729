import LoxLang.Proofs.Evaluation.Stability

/-!
# What the bounds on a run decide

A run is bounded in two ways: `n` bounds how deeply it nests, and the host bounds how many rounds a
loop makes. Here it is shown that larger bounds change no answer. A computation `q` **continues**
another one, `p`, if it does what `p` does wherever `p` is not cut off by a bound, and prints at
least as much where `p` is. The main statements are `execute_continues` and `executeAll_continues`:
a run with larger bounds continues a run with smaller ones.
-/

namespace LoxLang

/-- What is printed before is the beginning of what is printed afterwards. -/
def Memory.PrintsOn (m m' : Memory) : Prop := m.printed.toList <+: m'.printed.toList

/-- Lines are only ever printed behind those that are there. -/
theorem Memory.stable_printsOn : Memory.Stable Memory.PrintsOn where
  refl _ := List.prefix_refl _
  trans := List.IsPrefix.trans
  define _ _ _ := List.prefix_refl _
  assign _ := List.prefix_refl _
  print line m := by
    rw [Memory.PrintsOn, Array.toList_push]
    exact List.prefix_append _ _
  newFunction _ := List.prefix_refl _
  readClock _ := List.prefix_refl _
  block h := h
  call h := h

/-- The run has reached one of its **bounds**. -/
def Abort.IsBound : Abort → Prop
  | .overflow | .unfinished => True
  | .unknownOperator _ => False

namespace Eval

variable {K : Abort → Prop} {α β : Type}

/-- The computation was **cut off** by a bound. -/
def CutOff (result : Except Interrupt α) : Prop :=
  ∃ reason : Abort, reason.IsBound ∧ result = .error (.abort reason)

/-- The computation `q` **continues** `p`, which may be cut off for the reasons in `K`. -/
structure Continues (K : Abort → Prop) (p q : Eval α) : Prop where
  prints : q.Within Memory.PrintsOn
  runs : ∀ m, q.run m = p.run m ∨
    (∃ reason, K reason ∧ (p.run m).1 = .error (.abort reason)) ∧
      (p.run m).2.PrintsOn (q.run m).2

namespace Continues

/-- What is not cut off is not changed. -/
theorem run_eq {p q : Eval α} (h : Continues K p q) {m : Memory}
    (hp : ∀ reason, K reason → (p.run m).1 ≠ .error (.abort reason)) : q.run m = p.run m := by
  rcases h.runs m with heq | ⟨⟨reason, hK, hcut⟩, -⟩
  · exact heq
  · exact absurd hcut (hp reason hK)

theorem refl {p : Eval α} (h : p.Within Memory.PrintsOn) :
    Continues K p p := ⟨h, fun _ => .inl rfl⟩

/-- A computation that is cut off at once is continued by all that print. -/
theorem cut {reason : Abort} (hK : K reason) {q : Eval α}
    (h : q.Within Memory.PrintsOn) :
    Continues K (abort reason) q := ⟨h, fun m => .inr ⟨⟨reason, hK, rfl⟩, h m⟩⟩

theorem bind {p q : Eval α} {f g : α → Eval β} (hp : Continues K p q)
    (hf : ∀ a, Continues K (f a) (g a)) : Continues K (p >>= f) (q >>= g) := by
  refine ⟨Memory.stable_printsOn.bind hp.prints fun a => (hf a).prints, fun m => ?_⟩
  rcases hp.runs m with heq | ⟨⟨reason, hK, hcut⟩, hprinted⟩
  · rw [run_bind, run_bind, heq]
    rcases p.run m with ⟨e | a, m'⟩
    · exact .inl rfl
    · exact (hf a).runs m'
  -- The first computation is cut off: nothing of `f` runs, and what runs of `g` prints on.
  · have hbind : (p >>= f).run m = (.error (.abort reason), (p.run m).2) := by
      rw [run_bind]
      rcases h : p.run m with ⟨e | a, m'⟩ <;> rw [h] at hcut <;> cases hcut
      rfl
    rw [hbind]
    refine .inr ⟨⟨reason, hK, rfl⟩, List.IsPrefix.trans hprinted ?_⟩
    exact Memory.stable_printsOn.behind q (fun a => (hf a).prints) m

theorem map {p q : Eval α} (f : α → β) (hp : Continues K p q) :
    Continues K (f <$> p) (f <$> q) := by
  rw [← bind_pure_comp, ← bind_pure_comp]
  exact hp.bind fun a => refl (Memory.stable_printsOn.pure (f a))

theorem forM {f g : α → Eval Unit} (hf : ∀ a, Continues K (f a) (g a)) (as : List α) :
    Continues K (as.forM f) (as.forM g) := by
  induction as with
  | nil => exact refl (Memory.stable_printsOn.pure ())
  | cons a as ih => exact (hf a).bind fun _ => ih

theorem mapM {f g : α → Eval β} (hf : ∀ a, Continues K (f a) (g a)) (as : List α) :
    Continues K (as.mapM f) (as.mapM g) := by
  induction as with
  | nil => exact refl (Memory.stable_printsOn.pure [])
  | cons a as ih =>
    rw [List.mapM_cons, List.mapM_cons]
    exact (hf a).bind fun b => ih.bind fun bs => refl (Memory.stable_printsOn.pure (b :: bs))

/-- A computation inside of another one is continued there, when the outer one neither changes what
is printed nor takes up what was cut off. -/
theorem inside (enter leave : Memory → Memory)
    (result : Except Interrupt α → Except Interrupt β) {outer : Eval α → Eval β}
    (houter : ∀ p m, (outer p).run m =
      (result (p.run (enter m)).1, leave (p.run (enter m)).2))
    (henter : ∀ m, (enter m).printed = m.printed) (hleave : ∀ m, (leave m).printed = m.printed)
    (hresult : ∀ reason, result (.error (.abort reason)) = .error (.abort reason))
    {p q : Eval α} (h : Continues K p q) : Continues K (outer p) (outer q) := by
  refine ⟨fun m => ?_, fun m => ?_⟩
  · have hprinted := h.prints (enter m)
    rw [Memory.PrintsOn, henter] at hprinted
    rw [Memory.PrintsOn, houter, hleave]
    exact hprinted
  · rw [houter, houter]
    rcases h.runs (enter m) with heq | ⟨⟨reason, hK, hcut⟩, hprinted⟩
    · rw [heq]
      exact .inl rfl
    · refine .inr ⟨⟨reason, hK, ?_⟩, ?_⟩
      · rw [hcut, hresult]
      · rw [Memory.PrintsOn, hleave, hleave]
        exact hprinted

theorem inBlock {p q : Eval α} (h : Continues K p q) :
    Continues K (Eval.inBlock p) (Eval.inBlock q) :=
  h.inside (fun m => { m with scopes := m.scopes.enterBlock })
    (fun m => { m with scopes := m.scopes.exitBlock }) id run_inBlock (fun _ => rfl) (fun _ => rfl)
    fun _ => rfl

theorem inCall {p q : Eval α} (h : Continues K p q) :
    Continues K (Eval.inCall p) (Eval.inCall q) :=
  h.inside (fun m => { m with scopes := m.scopes.enterCall })
    (fun m => { m with scopes := m.scopes.exitCall }) id run_inCall (fun _ => rfl) (fun _ => rfl)
    fun _ => rfl

theorem returned {p q : Eval Unit} (h : Continues K p q) :
    Continues K (Eval.returned p) (Eval.returned q) :=
  h.inside id id callResult run_returned (fun _ => rfl) (fun _ => rfl) fun _ => rfl

theorem call (parameters : List Token) (arguments : List Value) {p q : Eval Unit}
    (h : Continues K p q) :
    Continues K (Eval.call parameters arguments p) (Eval.call parameters arguments q) := by
  have henter : (onScopes Scopes.enterBlock).Within Memory.PrintsOn := fun _ => List.prefix_refl _
  have hbind := Memory.stable_printsOn.bindParameters parameters arguments
  exact ((refl henter).bind fun _ => (refl hbind).bind fun _ => h.inBlock).returned.inCall

/-- With more rounds, or with the same number, a loop goes on as before. -/
theorem repeatWhile {c d : Eval Bool} {p q : Eval Unit} (hc : Continues K c d)
    (hp : Continues K p q) {r r' : Nat} (hr : r = r' ∨ r ≤ r' ∧ K .unfinished) :
    Continues K (Eval.repeatWhile c p r) (Eval.repeatWhile d q r') := by
  induction r generalizing r' with
  | zero =>
    -- Without rounds the loop is cut off at once, unless the other one has none either.
    rcases hr with rfl | ⟨-, hK⟩
    · exact refl (Memory.stable_printsOn.throw _)
    · exact cut hK (Memory.stable_printsOn.repeatWhile hc.prints hp.prints r')
  | succ r ih =>
    have hle : r + 1 ≤ r' := hr.elim Nat.le_of_eq And.left
    obtain ⟨r', rfl⟩ : ∃ k, r' = k + 1 := ⟨r' - 1, by omega⟩
    refine hc.bind fun holds => ?_
    cases holds with
    | false => exact refl (Memory.stable_printsOn.pure ())
    | true =>
      refine hp.bind fun _ => ih ?_
      exact hr.imp Nat.succ.inj fun h => ⟨Nat.le_of_succ_le_succ h.1, h.2⟩

theorem apply {clock : Nat → Float} {r r' : Nat} {run run' : List Stmt → Eval Unit}
    (hrun : ∀ body, Continues K (run body) (run' body)) (paren : Token) (callee : Value)
    (arguments : List Value) :
    Continues K (Eval.apply ⟨clock, r⟩ run paren callee arguments)
      (Eval.apply ⟨clock, r'⟩ run' paren callee arguments) := by
  cases callee with
  | function f identity =>
    rw [apply_function, apply_function]
    split
    · exact (hrun f.body).call f.parameters arguments
    · exact refl (Memory.stable_printsOn.ofResult _)
  | native f identity =>
    rw [apply_native, apply_native]
    split
    · exact refl Memory.stable_printsOn.readClock
    · exact refl (Memory.stable_printsOn.ofResult _)
  | _ =>
    rw [apply_of_arity?_eq_none ⟨clock, r⟩ run paren rfl,
      apply_of_arity?_eq_none ⟨clock, r'⟩ run' paren rfl]
    exact refl (Memory.stable_printsOn.ofResult _)

end Continues

/-! ### Expressions and statements -/

open Continues in
/-- One more level of nesting on both sides. -/
private theorem continues_succ {clock : Nat → Float} {r r' n n' : Nat}
    (hr : r = r' ∨ r ≤ r' ∧ K .unfinished)
    (he : ∀ e, Continues K (evaluate ⟨clock, r⟩ n e) (evaluate ⟨clock, r'⟩ n' e))
    (hs : ∀ s, Continues K (execute ⟨clock, r⟩ n s) (execute ⟨clock, r'⟩ n' s)) :
    (∀ e, Continues K (evaluate ⟨clock, r⟩ (n + 1) e) (evaluate ⟨clock, r'⟩ (n' + 1) e)) ∧
      ∀ s, Continues K (execute ⟨clock, r⟩ (n + 1) s) (execute ⟨clock, r'⟩ (n' + 1) s) := by
  have hP := Memory.stable_printsOn
  refine ⟨fun e => ?_, fun s => ?_⟩
  · cases e with
    | literal value => rw [evaluate, evaluate]; exact refl (hP.pure _)
    | grouping inner => rw [evaluate, evaluate]; exact he inner
    | unary op operand =>
      rw [evaluate, evaluate]
      exact (he operand).bind fun _ => refl (hP.ofResult _)
    | binary left op right =>
      rw [evaluate, evaluate]
      exact (he left).bind fun _ => (he right).bind fun _ => refl (hP.ofResult _)
    | logical left op right =>
      rw [evaluate, evaluate]
      refine (he left).bind fun v => ?_
      split
      · exact refl (hP.pure v)
      · exact he right
    | name token => rw [evaluate, evaluate]; exact refl (hP.lookup token)
    | assign target value =>
      rw [evaluate, evaluate]
      exact (he value).bind fun v => (refl (hP.assignTo target v)).bind fun _ => refl (hP.pure v)
    | call callee paren arguments =>
      rw [evaluate, evaluate]
      refine (he callee).bind fun f => (mapM he arguments).bind fun vs => ?_
      exact Continues.apply (fun body => forM hs body) paren f vs
  · cases s with
    | expression value =>
      rw [execute, execute]
      exact (he value).bind fun _ => refl (hP.pure ())
    | print value =>
      rw [execute, execute]
      exact (he value).bind fun v => refl (hP.print v.display)
    | declare target value =>
      cases value with
      | none => rw [execute, execute]; exact refl (hP.define target.lexeme .nil)
      | some value =>
        rw [execute, execute]
        exact (he value).bind fun v => refl (hP.define target.lexeme v)
    | block body => rw [execute, execute]; exact (forM hs body).inBlock
    | branch condition yes no =>
      cases no with
      | none =>
        rw [execute, execute]
        refine (he condition).bind fun v => ?_
        split
        · exact hs yes
        · exact refl (hP.pure ())
      | some no =>
        rw [execute, execute]
        refine (he condition).bind fun v => ?_
        split
        · exact hs yes
        · exact hs no
    | loop condition body =>
      rw [execute, execute]
      exact ((he condition).map Value.isTruthy).repeatWhile (hs body) hr
    | function target parameters body =>
      rw [execute, execute]
      exact refl (hP.bind hP.newFunction fun f => hP.define target.lexeme f)
    | returnValue keyword value =>
      cases value with
      | none => rw [execute, execute]; exact refl (hP.throw _)
      | some value =>
        rw [execute, execute]
        exact (he value).bind fun v => refl (hP.throw _)

private theorem continues (clock : Nat → Float) {r r' n n' : Nat} (hK : K .overflow)
    (hr : r = r' ∨ r ≤ r' ∧ K .unfinished) (hn : n ≤ n') :
    (∀ e, Continues K (evaluate ⟨clock, r⟩ n e) (evaluate ⟨clock, r'⟩ n' e)) ∧
      ∀ s, Continues K (execute ⟨clock, r⟩ n s) (execute ⟨clock, r'⟩ n' s) := by
  induction n generalizing n' with
  | zero =>
    refine ⟨fun e => ?_, fun s => ?_⟩
    · rw [evaluate]; exact .cut hK (Memory.stable_printsOn.evaluate _ n' e)
    · rw [execute]; exact .cut hK (Memory.stable_printsOn.execute _ n' s)
  | succ n ih =>
    obtain ⟨n', rfl⟩ : ∃ k, n' = k + 1 := ⟨n' - 1, by omega⟩
    obtain ⟨he, hs⟩ := ih (Nat.le_of_succ_le_succ hn)
    exact continues_succ hr he hs

end Eval

open Eval

variable {K : Abort → Prop} {r r' n n' : Nat}

/-- Larger bounds **continue** the evaluation of an expression. -/
theorem evaluate_continues (clock : Nat → Float) (hK : K .overflow)
    (hr : r = r' ∨ r ≤ r' ∧ K .unfinished) (hn : n ≤ n') (e : Expr) :
    Continues K (evaluate ⟨clock, r⟩ n e) (evaluate ⟨clock, r'⟩ n' e) :=
  (continues clock hK hr hn).1 e

/-- Larger bounds **continue** the execution of a statement. -/
theorem execute_continues (clock : Nat → Float) (hK : K .overflow)
    (hr : r = r' ∨ r ≤ r' ∧ K .unfinished) (hn : n ≤ n') (s : Stmt) :
    Continues K (execute ⟨clock, r⟩ n s) (execute ⟨clock, r'⟩ n' s) :=
  (continues clock hK hr hn).2 s

/-- Larger bounds **continue** the execution of a list of statements. -/
theorem executeAll_continues (clock : Nat → Float) (hK : K .overflow)
    (hr : r = r' ∨ r ≤ r' ∧ K .unfinished) (hn : n ≤ n') (statements : List Stmt) :
    Continues K (executeAll ⟨clock, r⟩ n statements) (executeAll ⟨clock, r'⟩ n' statements) :=
  .forM (execute_continues clock hK hr hn) statements

/-! ### Deeper nesting

If the host allows as many rounds, nothing but an overflow can be put off. -/

/-- What does not overflow is not changed by what **continues** it behind overflows alone. -/
theorem Eval.Continues.run_eq_of_ne_overflow {α : Type} {p q : Eval α}
    (h : Continues (· = .overflow) p q) {m : Memory}
    (hp : (p.run m).1 ≠ .error (.abort .overflow)) : q.run m = p.run m :=
  h.run_eq fun _ hreason => hreason ▸ hp

section

variable (host : Host) (hn : n ≤ n')

include hn

theorem execute_deeper (s : Stmt) :
    Continues (· = .overflow) (execute host n s) (execute host n' s) :=
  execute_continues (K := (· = .overflow)) host.clock rfl (.inl rfl) hn s

theorem executeAll_deeper (statements : List Stmt) :
    Continues (· = .overflow) (executeAll host n statements) (executeAll host n' statements) :=
  executeAll_continues (K := (· = .overflow)) host.clock rfl (.inl rfl) hn statements

end

end LoxLang
