import LoxLang.Evaluation

/-!
# The steps of a run

To evaluate an expression or to execute a statement is a **step**, and it starts other steps, in
memories that depend on what ran in front of them: the right operand of an operator on what the left
one left, the body of a function in the scopes of the call, a round of a loop behind all rounds in
front of it. `Starts` says which steps a step starts with at most `n` nested steps, and in which
memories, and `Takes` which steps a run takes on any level.

What interrupts a step interrupts the one that starts it, up to the call that takes up a `return`
(`InterruptedBy.of_starts`). A run **overflows** exactly if it takes a step on the level at which
nothing may nest any more (`overflows_iff_takes`): no operator, block, loop or call makes anything
else of an overflow, and none makes one up.
-/

namespace LoxLang

open Eval

/-! ### Interrupts of computations -/

namespace Eval

variable {α β : Type} {e : Interrupt}

/-- The computation is **interrupted by** `e` on a memory. -/
def InterruptedBy (e : Interrupt) (p : Eval α) (m : Memory) : Prop := (p.run m).1 = .error e

theorem interruptedBy_bind {p : Eval α} {f : α → Eval β} {m : Memory} :
    (p >>= f).InterruptedBy e m ↔
      p.InterruptedBy e m ∨ ∃ a m', p.run m = (.ok a, m') ∧ (f a).InterruptedBy e m' := by
  unfold InterruptedBy
  rw [run_bind]
  rcases p.run m with ⟨e' | a, m'⟩
  · constructor
    · rintro ⟨⟩
      exact .inl rfl
    · rintro (⟨⟨⟩⟩ | ⟨_, _, h, -⟩)
      · rfl
      · cases h
  · refine ⟨fun h => .inr ⟨a, m', rfl, h⟩, ?_⟩
    rintro (h | ⟨_, _, ha, h⟩)
    · cases h
    · cases ha
      exact h

theorem interruptedBy_map {p : Eval α} {f : α → β} {m : Memory} :
    (f <$> p).InterruptedBy e m ↔ p.InterruptedBy e m := by
  unfold InterruptedBy
  rw [run_map]
  rcases p.run m with ⟨e' | a, m'⟩ <;> simp [Except.map]

/-- A result that is there already is an interrupt only if it **is** that interrupt. -/
theorem interruptedBy_ofResult {r : Except Interrupt α} {m : Memory} :
    (ofResult r).InterruptedBy e m ↔ r = .error e := by
  rw [InterruptedBy, run_ofResult]

theorem run_forM_cons (f : α → Eval Unit) (a : α) (as : List α) (m : Memory) :
    ((a :: as).forM f).run m = match (f a).run m with
      | (.ok (), m') => (as.forM f).run m'
      | (.error e, m') => (.error e, m') := by
  change (f a >>= fun _ => as.forM f).run m = _
  rw [run_bind]
  rcases (f a).run m with ⟨_ | ⟨⟩, _⟩ <;> rfl

/-- Steps one after the other either all run to their ends, or up to the first that **does not**. -/
theorem exists_run_forM (f : α → Eval Unit) (as : List α) (m : Memory) :
    ∃ done rest m', as = done ++ rest ∧ (done.forM f).run m = (.ok (), m') ∧
      (∀ a ∈ rest.head?, ((f a).run m').1 ≠ .ok ()) ∧
      (as.forM f).run m = rest.head?.elim (.ok (), m') fun a => (f a).run m' := by
  induction as generalizing m with
  | nil => exact ⟨[], [], m, rfl, rfl, nofun, rfl⟩
  | cons a as ih =>
    rcases ha : (f a).run m with ⟨e | ⟨⟩, m₁⟩
    · refine ⟨[], a :: as, m, rfl, rfl, ?_, ?_⟩
      · rintro b ⟨⟩
        rw [ha]
        nofun
      · rw [run_forM_cons, List.head?_cons, Option.elim_some, ha]
    · obtain ⟨done, rest, m', rfl, hdone, hstop, hrun⟩ := ih m₁
      refine ⟨a :: done, rest, m', rfl, ?_, hstop, ?_⟩
      · rw [run_forM_cons, ha]
        exact hdone
      · rw [run_forM_cons, ha]
        exact hrun

/-- A list of steps is interrupted by the first one that is, in the memory that those in front of it
have left. -/
theorem interruptedBy_forM {f : α → Eval Unit} {as : List α} {m : Memory} :
    (as.forM f).InterruptedBy e m ↔
      ∃ front a behind m', as = front ++ a :: behind ∧ (front.forM f).run m = (.ok (), m') ∧
        (f a).InterruptedBy e m' := by
  constructor
  · intro h
    obtain ⟨front, rest, m', rfl, hfront, -, hrun⟩ := exists_run_forM f as m
    rw [InterruptedBy, hrun] at h
    cases rest with
    | nil => cases h
    | cons a behind => exact ⟨front, a, behind, m', rfl, hfront, h⟩
  · rintro ⟨front, a, behind, m', rfl, hfront, h⟩
    induction front generalizing m with
    | nil =>
      cases hfront
      exact interruptedBy_bind.mpr (.inl h)
    | cons b front ih =>
      rw [run_forM_cons] at hfront
      rcases hb : (f b).run m with ⟨e' | ⟨⟩, m₁⟩ <;> rw [hb] at hfront
      · cases hfront
      · exact interruptedBy_bind.mpr (.inr ⟨(), m₁, hb, ih hfront⟩)

theorem run_mapM_cons (f : α → Eval β) (a : α) (as : List α) (m : Memory) :
    ((a :: as).mapM f).run m = match (f a).run m with
      | (.ok b, m') => ((b :: ·) <$> as.mapM f).run m'
      | (.error e, m') => (.error e, m') := by
  rw [List.mapM_cons, run_bind]
  rcases (f a).run m with ⟨_ | _, m'⟩ <;> rfl

/-- Computations one after the other run to their ends if the first does, and those behind it. -/
theorem run_mapM_cons_eq_ok_iff {f : α → Eval β} {a : α} {as : List α} {bs : List β}
    {m m' : Memory} : ((a :: as).mapM f).run m = (.ok bs, m') ↔
      ∃ b m₁ cs, (f a).run m = (.ok b, m₁) ∧ (as.mapM f).run m₁ = (.ok cs, m') ∧
        bs = b :: cs := by
  rw [run_mapM_cons]
  rcases (f a).run m with ⟨e | b, m₁⟩
  · exact ⟨nofun, fun ⟨_, _, _, h, _⟩ => nomatch h⟩
  · dsimp only
    rw [run_map]
    constructor
    · intro h
      rcases has : (as.mapM f).run m₁ with ⟨e | cs, m₂⟩ <;> rw [has] at h <;> cases h
      exact ⟨b, m₁, cs, rfl, has, rfl⟩
    · rintro ⟨_, _, cs, ⟨⟩, has, rfl⟩
      rw [has]
      rfl

theorem interruptedBy_mapM {f : α → Eval β} {as : List α} {m : Memory} :
    (as.mapM f).InterruptedBy e m ↔
      ∃ front a behind bs m', as = front ++ a :: behind ∧ (front.mapM f).run m = (.ok bs, m') ∧
        (f a).InterruptedBy e m' := by
  induction as generalizing m with
  | nil =>
    constructor
    · intro h
      cases h
    · rintro ⟨front, a, behind, bs, m', h, -⟩
      exact absurd h.symm (List.append_ne_nil_of_right_ne_nil _ (List.cons_ne_nil _ _))
  | cons a as ih =>
    have hcons : ((a :: as).mapM f).InterruptedBy e m ↔
        (f a).InterruptedBy e m ∨
          ∃ b m', (f a).run m = (.ok b, m') ∧ (as.mapM f).InterruptedBy e m' := by
      rw [List.mapM_cons, interruptedBy_bind]
      simp only [bind_pure_comp, interruptedBy_map]
    rw [hcons]
    constructor
    · rintro (h | ⟨b, m₁, ha, has⟩)
      · exact ⟨[], a, as, [], m, rfl, rfl, h⟩
      · obtain ⟨front, a', behind, bs, m', rfl, hfront, hb⟩ := ih.mp has
        exact ⟨a :: front, a', behind, b :: bs, m', rfl,
          run_mapM_cons_eq_ok_iff.mpr ⟨b, m₁, bs, ha, hfront, rfl⟩, hb⟩
    · rintro ⟨_ | ⟨a', front⟩, b, behind, bs, m', h, hfront, hb⟩
      · cases h
        cases hfront
        exact .inl hb
      · cases h
        obtain ⟨c, m₁, cs, ha, has, rfl⟩ := run_mapM_cons_eq_ok_iff.mp hfront
        exact .inr ⟨c, m₁, ha, ih.mpr ⟨front, b, behind, cs, _, rfl, has, hb⟩⟩

theorem interruptedBy_inBlock {body : Eval α} {m : Memory} :
    (inBlock body).InterruptedBy e m ↔
      body.InterruptedBy e { m with scopes := m.scopes.enterBlock } := by
  rw [InterruptedBy, run_inBlock, InterruptedBy]

/-- The memory in which the body of a function runs, with its arguments bound to the parameters. -/
def entered (parameters : List Token) (arguments : List Value) (m : Memory) : Memory :=
  let bound := ((bindParameters parameters arguments).run
    { m with scopes := m.scopes.enterCall.enterBlock }).2
  { bound with scopes := bound.scopes.enterBlock }

theorem fst_run_bindParameters (parameters : List Token) (arguments : List Value) (m : Memory) :
    ((bindParameters parameters arguments).run m).1 = .ok () := by
  rw [bindParameters]
  induction parameters.zip arguments generalizing m with
  | nil => rfl
  | cons entry entries ih =>
    rw [run_forM_cons]
    exact ih _

/-- A call runs its **body** in the memory that it is entered with, and drops the frames of both. -/
theorem run_call_eq (parameters : List Token) (arguments : List Value) (body : Eval Unit)
    (m : Memory) :
    (call parameters arguments body).run m =
      let r := body.run (entered parameters arguments m)
      (callResult r.1, { r.2 with scopes := r.2.scopes.exitBlock.exitCall }) := by
  have hbound := fst_run_bindParameters parameters arguments
    { m with scopes := m.scopes.enterCall.enterBlock }
  rw [run_call, entered]
  dsimp only
  rw [run_returned, run_bind]
  rcases hparameters : (bindParameters parameters arguments).run
    { m with scopes := m.scopes.enterCall.enterBlock } with ⟨_ | ⟨⟩, bound⟩
  · rw [hparameters] at hbound
    cases hbound
  · rfl

/-- A call comes to what its **body** comes to, in the memory that it is entered with. -/
theorem fst_run_call (parameters : List Token) (arguments : List Value) (body : Eval Unit)
    (m : Memory) :
    ((call parameters arguments body).run m).1 =
      callResult (body.run (entered parameters arguments m)).1 :=
  congrArg Prod.fst (run_call_eq parameters arguments body m)

/-- A call passes on what interrupts its body, unless that is a `return`. -/
theorem interruptedBy_call (he : ∀ keyword v, e ≠ .returning keyword v) {parameters : List Token}
    {arguments : List Value} {body : Eval Unit} {m : Memory} :
    (call parameters arguments body).InterruptedBy e m ↔
      body.InterruptedBy e (entered parameters arguments m) := by
  rw [InterruptedBy, fst_run_call, InterruptedBy]
  generalize (body.run (entered parameters arguments m)).1 = r
  rcases r with (_ | ⟨keyword, v⟩ | _) | _
  · simp [callResult]
  · simp [callResult, (he keyword v).symm]
  · simp [callResult]
  · simp [callResult]

/-- `m'` is what a loop finds in front of its `k`-th **round**, counted from zero. -/
inductive Rounds (condition : Eval Bool) (body : Eval Unit) : Nat → Memory → Memory → Prop
  | start (m : Memory) : Rounds condition body 0 m m
  | next {k : Nat} {m m₁ m₂ m' : Memory} :
    condition.run m = (.ok true, m₁) → body.run m₁ = (.ok (), m₂) →
      Rounds condition body k m₂ m' → Rounds condition body (k + 1) m m'

/-- What interrupts a **round** interrupts the loop. -/
theorem InterruptedBy.repeatWhile {condition : Eval Bool} {body : Eval Unit} {n k : Nat}
    {m m' : Memory} (hk : k < n) (hrounds : Rounds condition body k m m')
    (h : condition.InterruptedBy e m' ∨
      ∃ m₁, condition.run m' = (.ok true, m₁) ∧ body.InterruptedBy e m₁) :
    (repeatWhile condition body n).InterruptedBy e m := by
  obtain ⟨n, rfl⟩ : ∃ n', n = n' + 1 := ⟨n - 1, by omega⟩
  rw [Eval.repeatWhile, interruptedBy_bind]
  induction hrounds generalizing n with
  | start =>
    refine h.imp_right fun ⟨m₁, hc, h⟩ => ⟨true, m₁, hc, ?_⟩
    exact interruptedBy_bind.mpr (.inl h)
  | @next k _ m₁ m₂ _ hc hb _ ih =>
    obtain ⟨n, rfl⟩ : ∃ n', n = n' + 1 := ⟨n - 1, by omega⟩
    have hrest : (Eval.repeatWhile condition body (n + 1)).InterruptedBy e m₂ := by
      rw [Eval.repeatWhile, interruptedBy_bind]
      exact ih h n (Nat.lt_of_succ_lt_succ hk)
    exact .inr ⟨true, m₁, hc, interruptedBy_bind.mpr (.inr ⟨(), m₂, hb, hrest⟩)⟩

/-- A loop that does not run out of rounds is interrupted **in one of them** only. -/
theorem interruptedBy_repeatWhile (he : e ≠ .abort .unfinished) {condition : Eval Bool}
    {body : Eval Unit} {n : Nat} {m : Memory} :
    (repeatWhile condition body n).InterruptedBy e m ↔
      ∃ k m', k < n ∧ Rounds condition body k m m' ∧
        (condition.InterruptedBy e m' ∨
          ∃ m₁, condition.run m' = (.ok true, m₁) ∧ body.InterruptedBy e m₁) := by
  refine ⟨fun h => ?_, fun ⟨k, m', hk, hrounds, h⟩ => .repeatWhile hk hrounds h⟩
  induction n generalizing m with
  | zero =>
    cases h
    exact absurd rfl he
  | succ n ih =>
    rw [repeatWhile, interruptedBy_bind] at h
    rcases h with h | ⟨_ | _, m₁, hc, h⟩
    · exact ⟨0, m, n.succ_pos, .start m, .inl h⟩
    · cases h
    · rcases interruptedBy_bind.mp h with h | ⟨⟨⟩, m₂, hb, h⟩
      · exact ⟨0, m, n.succ_pos, .start m, .inr ⟨m₁, hc, h⟩⟩
      · obtain ⟨k, m', hk, hrounds, h⟩ := ih h
        exact ⟨k + 1, m', Nat.succ_lt_succ hk, .next hc hb hrounds, h⟩

/-! ### Overflows of computations -/

/-- The computation **overflows** on a memory. -/
def Overflows (p : Eval α) (m : Memory) : Prop := (p.run m).1 = .error (.abort .overflow)

theorem overflows_bind {p : Eval α} {f : α → Eval β} {m : Memory} :
    (p >>= f).Overflows m ↔
      p.Overflows m ∨ ∃ a m', p.run m = (.ok a, m') ∧ (f a).Overflows m' :=
  interruptedBy_bind

theorem overflows_map {p : Eval α} {f : α → β} {m : Memory} :
    (f <$> p).Overflows m ↔ p.Overflows m :=
  interruptedBy_map

/-- A result that is there already overflows only if it **is** the overflow. -/
theorem overflows_ofResult {r : Except Interrupt α} {m : Memory} :
    (ofResult r).Overflows m ↔ r = .error (.abort .overflow) :=
  interruptedBy_ofResult

theorem not_overflows_pure (a : α) (m : Memory) : ¬ (pure a : Eval α).Overflows m := nofun

theorem not_overflows_lookup (name : Token) (m : Memory) : ¬ (lookup name).Overflows m := by
  rw [Overflows, run_lookup]
  split <;> nofun

theorem not_overflows_assign (name : Token) (v : Value) (m : Memory) :
    ¬ (assign name v).Overflows m := by
  rw [Overflows, run_assign]
  split <;> nofun

theorem not_overflows_applyUnary (op : Token) (v : Value) (m : Memory) :
    ¬ (ofResult (applyUnary op v)).Overflows m := by
  intro h
  obtain ⟨cause, ⟨⟩⟩ := eq_failure_of_applyUnary (overflows_ofResult.mp h)

theorem not_overflows_applyBinary (op : Token) (v w : Value) (m : Memory) :
    ¬ (ofResult (applyBinary op v w)).Overflows m := by
  intro h
  obtain ⟨cause, ⟨⟩⟩ | ⟨⟨⟩⟩ := eq_failure_of_applyBinary (overflows_ofResult.mp h)

/-- A list of steps overflows with the first one that does, in the memory that those in front of it
have left. -/
theorem overflows_forM {f : α → Eval Unit} {as : List α} {m : Memory} :
    (as.forM f).Overflows m ↔
      ∃ front a behind m', as = front ++ a :: behind ∧ (front.forM f).run m = (.ok (), m') ∧
        (f a).Overflows m' :=
  interruptedBy_forM

theorem overflows_mapM {f : α → Eval β} {as : List α} {m : Memory} :
    (as.mapM f).Overflows m ↔
      ∃ front a behind bs m', as = front ++ a :: behind ∧ (front.mapM f).run m = (.ok bs, m') ∧
        (f a).Overflows m' :=
  interruptedBy_mapM

theorem overflows_inBlock {body : Eval α} {m : Memory} :
    (inBlock body).Overflows m ↔
      body.Overflows { m with scopes := m.scopes.enterBlock } :=
  interruptedBy_inBlock

theorem overflows_call {parameters : List Token} {arguments : List Value} {body : Eval Unit}
    {m : Memory} :
    (call parameters arguments body).Overflows m ↔
      body.Overflows (entered parameters arguments m) :=
  interruptedBy_call (e := .abort .overflow) fun _ _ => Interrupt.noConfusion

/-- What is called overflows **in its body** only. -/
theorem exists_body_of_overflows_apply {host : Host} {run : List Stmt → Eval Unit} {paren : Token}
    {callee : Value} {arguments : List Value} {m : Memory}
    (h : (apply host run paren callee arguments).Overflows m) :
    ∃ f identity, callee = .function f identity ∧ arguments.length = f.parameters.length ∧
      (run f.body).Overflows (entered f.parameters arguments m) := by
  cases callee with
  | function f identity =>
    rw [apply_function] at h
    split at h
    · next harity => exact ⟨f, identity, rfl, harity, overflows_call.mp h⟩
    · cases overflows_ofResult.mp h
  | native f identity =>
    rw [apply_native] at h
    split at h
    · cases h
    · cases overflows_ofResult.mp h
  | _ =>
    rw [apply_of_arity?_eq_none host run paren rfl] at h
    cases overflows_ofResult.mp h

theorem overflows_repeatWhile {condition : Eval Bool} {body : Eval Unit} {n : Nat} {m : Memory} :
    (repeatWhile condition body n).Overflows m ↔
      ∃ k m', k < n ∧ Rounds condition body k m m' ∧
        (condition.Overflows m' ∨
          ∃ m₁, condition.run m' = (.ok true, m₁) ∧ body.Overflows m₁) :=
  interruptedBy_repeatWhile (e := .abort .overflow) nofun

end Eval

/-! ### Steps -/

/-- A **step** of a run. -/
inductive Step
  | expression (e : Expr)
  | statement (s : Stmt)

namespace Step

/-- The expression that a step evaluates **first** and once, in the memory it finds itself. -/
def first? : Step → Option Expr
  | expression (.grouping inner) => some inner
  | expression (.unary _ operand) => some operand
  | expression (.binary left _ _) | expression (.logical left _ _) => some left
  | expression (.assign _ value) => some value
  | expression (.call callee _ _) => some callee
  | expression _ => none
  | statement (.expression value) | statement (.print value) => some value
  | statement (.declare _ value) | statement (.returnValue _ value) => value
  | statement (.branch condition _ _) => some condition
  | statement _ => none

variable (host : Host) (n : Nat)

/-- With at most `n` nested steps, the step **overflows** on a memory. -/
def Overflows : Step → Memory → Prop
  | expression e => (evaluate host n e).Overflows
  | statement s => (execute host n s).Overflows

/-- With one more level than `n` for itself, a step **starts** another one, in a memory. -/
inductive Starts : Step → Memory → Step → Memory → Prop
  | first {t : Step} {e : Expr} {m : Memory} : t.first? = some e → Starts t m (expression e) m
  | right {left right : Expr} {op : Token} {v : Value} {m m' : Memory} :
    (evaluate host n left).run m = (.ok v, m') →
      Starts (expression (.binary left op right)) m (expression right) m'
  | second {left right : Expr} {op : Token} {v : Value} {m m' : Memory} :
    (evaluate host n left).run m = (.ok v, m') →
      v.isTruthy ≠ (op.kind = .keyword .or_ : Bool) →
      Starts (expression (.logical left op right)) m (expression right) m'
  | argument {callee e : Expr} {paren : Token} {front behind : List Expr} {f : Value}
    {vs : List Value} {m m₁ m' : Memory} :
    (evaluate host n callee).run m = (.ok f, m₁) →
      (front.mapM (evaluate host n)).run m₁ = (.ok vs, m') →
      Starts (expression (.call callee paren (front ++ e :: behind))) m (expression e) m'
  | called {callee : Expr} {paren : Token} {arguments : List Expr} {f : Function} {identity : Nat}
    {vs : List Value} {front behind : List Stmt} {s : Stmt} {m m₁ m₂ m' : Memory} :
    (evaluate host n callee).run m = (.ok (.function f identity), m₁) →
      (arguments.mapM (evaluate host n)).run m₁ = (.ok vs, m₂) →
      vs.length = f.parameters.length → f.body = front ++ s :: behind →
      (front.forM (execute host n)).run (entered f.parameters vs m₂) = (.ok (), m') →
      Starts (expression (.call callee paren arguments)) m (statement s) m'
  | inside {front behind : List Stmt} {s : Stmt} {m m' : Memory} :
    (front.forM (execute host n)).run { m with scopes := m.scopes.enterBlock } = (.ok (), m') →
      Starts (statement (.block (front ++ s :: behind))) m (statement s) m'
  | yes {condition : Expr} {yes : Stmt} {no : Option Stmt} {v : Value} {m m' : Memory} :
    (evaluate host n condition).run m = (.ok v, m') → v.isTruthy →
      Starts (statement (.branch condition yes no)) m (statement yes) m'
  | no {condition : Expr} {yes no : Stmt} {v : Value} {m m' : Memory} :
    (evaluate host n condition).run m = (.ok v, m') → ¬ v.isTruthy →
      Starts (statement (.branch condition yes (some no))) m (statement no) m'
  | condition {condition : Expr} {body : Stmt} {k : Nat} {m m' : Memory} : k < host.rounds →
      Rounds (Value.isTruthy <$> evaluate host n condition) (execute host n body) k m m' →
      Starts (statement (.loop condition body)) m (expression condition) m'
  | body {condition : Expr} {body : Stmt} {k : Nat} {m m₁ m' : Memory} : k < host.rounds →
      Rounds (Value.isTruthy <$> evaluate host n condition) (execute host n body) k m m₁ →
      (Value.isTruthy <$> evaluate host n condition).run m₁ = (.ok true, m') →
      Starts (statement (.loop condition body)) m (statement body) m'

/-- With at most `n` nested steps, the step is **interrupted by** `e` on a memory. -/
def InterruptedBy (e : Interrupt) : Step → Memory → Prop
  | expression x => (evaluate host n x).InterruptedBy e
  | statement s => (execute host n s).InterruptedBy e

variable {host n} {e : Interrupt}

theorem overflows_iff_interruptedBy {t : Step} {m : Memory} :
    t.Overflows host n m ↔ t.InterruptedBy host n (.abort .overflow) m := by
  cases t <;> rfl

/-- What a step evaluates first comes in front of all that it does. -/
theorem InterruptedBy.of_first {t : Step} {x : Expr} {m : Memory} (h : t.first? = some x)
    (hx : (evaluate host n x).InterruptedBy e m) : t.InterruptedBy host (n + 1) e m := by
  cases t with
  | expression x' =>
    cases x' with
    | grouping =>
      cases h
      rw [InterruptedBy, evaluate]
      exact hx
    | literal | name => cases h
    | _ =>
      cases h
      rw [InterruptedBy, evaluate]
      exact interruptedBy_bind.mpr (.inl hx)
  | statement s =>
    cases s with
    | block | loop | function => cases h
    | branch condition yes no =>
      cases h
      cases no <;>
      · rw [InterruptedBy, execute]
        exact interruptedBy_bind.mpr (.inl hx)
    | _ =>
      cases h
      rw [InterruptedBy, execute]
      exact interruptedBy_bind.mpr (.inl hx)

/-- What interrupts a step interrupts the one that **starts** it. Only calls take something up,
which is a `return`. -/
theorem InterruptedBy.of_starts {t t' : Step} {m m' : Memory} (h : Starts host n t m t' m')
    (hpasses : (∃ s, t = statement s) ∨ ∀ keyword v, e ≠ .returning keyword v)
    (h' : t'.InterruptedBy host n e m') : t.InterruptedBy host (n + 1) e m := by
  cases h with
  | first hfirst => exact .of_first hfirst h'
  | right hleft =>
    rw [InterruptedBy, evaluate]
    exact interruptedBy_bind.mpr (.inr ⟨_, _, hleft, interruptedBy_bind.mpr (.inl h')⟩)
  | second hleft htruthy =>
    rw [InterruptedBy, evaluate]
    refine interruptedBy_bind.mpr (.inr ⟨_, _, hleft, ?_⟩)
    rwa [if_neg htruthy]
  | argument hcallee hfront =>
    rw [InterruptedBy, evaluate]
    refine interruptedBy_bind.mpr (.inr ⟨_, _, hcallee, interruptedBy_bind.mpr (.inl ?_)⟩)
    exact interruptedBy_mapM.mpr ⟨_, _, _, _, _, rfl, hfront, h'⟩
  | called hcallee harguments harity hbody hfront =>
    have hreturn : ∀ keyword v, e ≠ .returning keyword v := hpasses.resolve_left nofun
    rw [InterruptedBy, evaluate]
    refine interruptedBy_bind.mpr (.inr ⟨_, _, hcallee, ?_⟩)
    refine interruptedBy_bind.mpr (.inr ⟨_, _, harguments, ?_⟩)
    rw [apply_function, if_pos harity, interruptedBy_call hreturn, hbody]
    exact interruptedBy_forM.mpr ⟨_, _, _, _, rfl, hfront, h'⟩
  | inside hfront =>
    rw [InterruptedBy, execute, interruptedBy_inBlock]
    exact interruptedBy_forM.mpr ⟨_, _, _, _, rfl, hfront, h'⟩
  | @yes _ _ no _ _ _ hcondition htruthy =>
    cases no <;>
    · rw [InterruptedBy, execute]
      refine interruptedBy_bind.mpr (.inr ⟨_, _, hcondition, ?_⟩)
      rwa [if_pos htruthy]
  | no hcondition htruthy =>
    rw [InterruptedBy, execute]
    refine interruptedBy_bind.mpr (.inr ⟨_, _, hcondition, ?_⟩)
    rwa [if_neg htruthy]
  | condition hk hrounds =>
    rw [InterruptedBy, execute]
    exact .repeatWhile hk hrounds (.inl (interruptedBy_map.mpr h'))
  | body hk hrounds hcondition =>
    rw [InterruptedBy, execute]
    exact .repeatWhile hk hrounds (.inr ⟨_, hcondition, h'⟩)

/-- An overflow is **never taken up**: what starts a step that overflows does so too. -/
theorem Overflows.of_starts {t t' : Step} {m m' : Memory} (h : Starts host n t m t' m')
    (ho : t'.Overflows host n m') : t.Overflows host (n + 1) m := by
  rw [overflows_iff_interruptedBy] at ho ⊢
  exact .of_starts h (.inr fun _ _ => Interrupt.noConfusion) ho

/-- An overflow is **never made up**: a step that may nest and overflows has started one that
does. -/
theorem Overflows.exists_starts {t : Step} {m : Memory} (ho : t.Overflows host (n + 1) m) :
    ∃ t' m', Starts host n t m t' m' ∧ t'.Overflows host n m' := by
  have hfirst : ∀ {e : Expr}, t.first? = some e → (evaluate host n e).Overflows m →
      ∃ t' m', Starts host n t m t' m' ∧ t'.Overflows host n m' :=
    fun {e} h ho => ⟨expression e, m, .first h, ho⟩
  cases t with
  | expression e =>
    rw [Overflows] at ho
    cases e with
    | literal value => rw [evaluate] at ho; exact absurd ho (not_overflows_pure _ m)
    | grouping inner => rw [evaluate] at ho; exact hfirst rfl ho
    | unary op operand =>
      rw [evaluate, overflows_bind] at ho
      rcases ho with ho | ⟨v, m₁, -, ho⟩
      · exact hfirst rfl ho
      · exact absurd ho (not_overflows_applyUnary op v m₁)
    | binary left op right =>
      rw [evaluate, overflows_bind] at ho
      rcases ho with ho | ⟨v, m₁, hleft, ho⟩
      · exact hfirst rfl ho
      rcases overflows_bind.mp ho with ho | ⟨w, m₂, -, ho⟩
      · exact ⟨expression right, m₁, .right hleft, ho⟩
      · exact absurd ho (not_overflows_applyBinary op v w m₂)
    | logical left op right =>
      rw [evaluate, overflows_bind] at ho
      rcases ho with ho | ⟨v, m₁, hleft, ho⟩
      · exact hfirst rfl ho
      split at ho
      · exact absurd ho (not_overflows_pure v m₁)
      · next htruthy => exact ⟨expression right, m₁, .second hleft htruthy, ho⟩
    | name token => rw [evaluate] at ho; exact absurd ho (not_overflows_lookup token m)
    | assign target value =>
      rw [evaluate, overflows_bind] at ho
      rcases ho with ho | ⟨v, m₁, -, ho⟩
      · exact hfirst rfl ho
      rcases overflows_bind.mp ho with ho | ⟨_, m₂, -, ho⟩
      · exact absurd ho (not_overflows_assign target v m₁)
      · exact absurd ho (not_overflows_pure v m₂)
    | call callee paren arguments =>
      rw [evaluate, overflows_bind] at ho
      rcases ho with ho | ⟨f, m₁, hcallee, ho⟩
      · exact hfirst rfl ho
      rcases overflows_bind.mp ho with ho | ⟨vs, m₂, harguments, ho⟩
      · obtain ⟨front, e, behind, vs, m', rfl, hfront, ho⟩ := overflows_mapM.mp ho
        exact ⟨expression e, m', .argument hcallee hfront, ho⟩
      obtain ⟨f, identity, rfl, harity, ho⟩ := exists_body_of_overflows_apply ho
      obtain ⟨front, s, behind, m', hbody, hfront, ho⟩ := overflows_forM.mp ho
      exact ⟨statement s, m', .called hcallee harguments harity hbody hfront, ho⟩
  | statement s =>
    rw [Overflows] at ho
    cases s with
    | expression value =>
      rw [execute, overflows_bind] at ho
      rcases ho with ho | ⟨v, m₁, -, ho⟩
      · exact hfirst rfl ho
      · exact absurd ho (not_overflows_pure () m₁)
    | print value =>
      rw [execute, overflows_bind] at ho
      rcases ho with ho | ⟨v, m₁, -, ho⟩
      · exact hfirst rfl ho
      · cases ho
    | declare target value =>
      cases value with
      | none => rw [execute] at ho; cases ho
      | some value =>
        rw [execute, overflows_bind] at ho
        rcases ho with ho | ⟨v, m₁, -, ho⟩
        · exact hfirst rfl ho
        · cases ho
    | block body =>
      rw [execute, overflows_inBlock] at ho
      obtain ⟨front, s, behind, m', rfl, hfront, ho⟩ := overflows_forM.mp ho
      exact ⟨statement s, m', .inside hfront, ho⟩
    | branch condition yes no =>
      cases no with
      | none =>
        rw [execute, overflows_bind] at ho
        rcases ho with ho | ⟨v, m₁, hcondition, ho⟩
        · exact hfirst rfl ho
        split at ho
        · next htruthy => exact ⟨statement yes, m₁, .yes hcondition htruthy, ho⟩
        · exact absurd ho (not_overflows_pure () m₁)
      | some no =>
        rw [execute, overflows_bind] at ho
        rcases ho with ho | ⟨v, m₁, hcondition, ho⟩
        · exact hfirst rfl ho
        split at ho
        · next htruthy => exact ⟨statement yes, m₁, .yes hcondition htruthy, ho⟩
        · next htruthy => exact ⟨statement no, m₁, .no hcondition htruthy, ho⟩
    | loop condition body =>
      rw [execute, overflows_repeatWhile] at ho
      obtain ⟨k, m', hk, hrounds, ho | ⟨m₁, hcondition, ho⟩⟩ := ho
      · exact ⟨expression condition, m', .condition hk hrounds, overflows_map.mp ho⟩
      · exact ⟨statement body, m₁, .body hk hrounds hcondition, ho⟩
    | function target parameters body => rw [execute] at ho; cases ho
    | returnValue keyword value =>
      cases value with
      | none => rw [execute] at ho; cases ho
      | some value =>
        rw [execute, overflows_bind] at ho
        rcases ho with ho | ⟨v, m₁, -, ho⟩
        · exact hfirst rfl ho
        · cases ho

/-! ### Runs -/

variable (host)

/-- A step with at most `n` nested steps in `m` **takes** a step with at most `n'` of them in `m'`:
itself, or one that a step it starts takes. -/
inductive Takes : Nat → Step → Memory → Nat → Step → Memory → Prop
  | self (n : Nat) (t : Step) (m : Memory) : Takes n t m n t m
  | inside {n n' : Nat} {t t₁ t' : Step} {m m₁ m' : Memory} :
    Starts host n t m t₁ m₁ → Takes n t₁ m₁ n' t' m' → Takes (n + 1) t m n' t' m'

/-- **A run overflows exactly if it takes a step where nothing may nest any more**, whatever stands
between the two. -/
theorem overflows_iff_takes {t : Step} {m : Memory} :
    t.Overflows host n m ↔ ∃ t' m', Takes host n t m 0 t' m' := by
  constructor
  · intro ho
    induction n generalizing t m with
    | zero => exact ⟨t, m, .self 0 t m⟩
    | succ n ih =>
      obtain ⟨t₁, m₁, hstarts, ho⟩ := ho.exists_starts
      obtain ⟨t', m', htakes⟩ := ih ho
      exact ⟨t', m', .inside hstarts htakes⟩
  · rintro ⟨t', m', htakes⟩
    generalize hzero : 0 = n' at htakes
    induction htakes with
    | self n t m =>
      subst hzero
      cases t <;> rfl
    | inside hstarts _ ih => exact .of_starts hstarts (ih hzero)

end Step

end LoxLang
