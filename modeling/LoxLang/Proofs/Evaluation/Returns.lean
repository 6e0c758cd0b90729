import LoxLang.Proofs.Evaluation.Steps

/-!
# Returns

A `return` ends the call in whose body it stands. Expressions never end with one, since a call takes
up every `return` of its body (`neverReturns_evaluate`), and a statement ends with one only if it
contains it outside of the functions it declares (`exists_contains_of_returning`).

A statement **runs** the statements of its own: itself and what its blocks, branches and loops make
of it, and nothing of the functions that are called meanwhile (`Step.Runs`). What interrupts one of
them interrupts the statement. So no statement runs more than one `return` (`Runs.return_unique`),
and a call whose body runs one has the value that is returned there. The other calls that have a
value are those whose body runs to its end (`fst_run_call_eq_ok_iff`).
-/

namespace LoxLang

open Eval

/-! ### Statements within others -/

/-- The statement `t` stands **within** another one, outside of the functions that it declares. -/
inductive Stmt.Within (t : Stmt) : Stmt → Prop
  | self : Within t t
  | block {body : List Stmt} {s : Stmt} : s ∈ body → Within t s → Within t (.block body)
  | yes {condition : Expr} {yes : Stmt} {no : Option Stmt} :
    Within t yes → Within t (.branch condition yes no)
  | no {condition : Expr} {yes no : Stmt} :
    Within t no → Within t (.branch condition yes (some no))
  | loop {condition : Expr} {body : Stmt} : Within t body → Within t (.loop condition body)

/-- Every `return` of a program is **inside of functions** that the program declares. -/
def ReturnsInFunctions (program : List Stmt) : Prop :=
  ∀ s ∈ program, ∀ keyword value, ¬ (Stmt.returnValue keyword value).Within s

/-! ### Computations that never return -/

namespace Eval

variable {α β : Type} {keyword : Token} {v : Value} {m : Memory}

/-- The computation **never returns**: it does not end with a `return` on its way to a call. -/
def NeverReturns (p : Eval α) : Prop :=
  ∀ keyword v m, ¬ p.InterruptedBy (.returning keyword v) m

namespace NeverReturns

theorem ofResult {r : Except Interrupt α} (hr : ∀ keyword v, r ≠ .error (.returning keyword v)) :
    (Eval.ofResult r).NeverReturns := fun keyword v _ h =>
  hr keyword v (interruptedBy_ofResult.mp h)

theorem pure (a : α) : (Pure.pure a : Eval α).NeverReturns := by
  refine ofResult (r := .ok a) fun keyword v h => ?_
  cases h

theorem fail (token : Token) (cause : RuntimeCause) :
    (Eval.ofResult (LoxLang.fail token cause) : Eval α).NeverReturns := by
  refine ofResult fun keyword v h => ?_
  cases h

theorem bind {p : Eval α} {f : α → Eval β} (hp : p.NeverReturns) (hf : ∀ a, (f a).NeverReturns) :
    (p >>= f).NeverReturns := by
  intro keyword v m h
  rcases interruptedBy_bind.mp h with h | ⟨a, m', -, h⟩
  · exact hp keyword v m h
  · exact hf a keyword v m' h

theorem map {p : Eval α} (hp : p.NeverReturns) (f : α → β) : (f <$> p).NeverReturns :=
  fun keyword v m h => hp keyword v m (interruptedBy_map.mp h)

theorem mapM {f : α → Eval β} (hf : ∀ a, (f a).NeverReturns) (as : List α) :
    (as.mapM f).NeverReturns := by
  induction as with
  | nil => exact pure []
  | cons a as ih =>
    rw [List.mapM_cons]
    exact (hf a).bind fun _ => ih.bind fun _ => pure _

theorem lookup (name : Token) : (Eval.lookup name).NeverReturns := by
  intro keyword v m h
  rw [InterruptedBy, run_lookup] at h
  split at h <;> cases h

theorem assign (name : Token) (w : Value) : (Eval.assign name w).NeverReturns := by
  intro keyword v m h
  rw [InterruptedBy, run_assign] at h
  split at h <;> cases h

theorem readClock (host : Host) : (Eval.readClock host).NeverReturns := by
  intro keyword v m h
  rw [InterruptedBy, run_readClock] at h
  cases h

theorem applyUnary (op : Token) (w : Value) :
    (Eval.ofResult (LoxLang.applyUnary op w)).NeverReturns := by
  refine ofResult fun keyword v h => ?_
  obtain ⟨cause, ⟨⟩⟩ := eq_failure_of_applyUnary h

theorem applyBinary (op : Token) (w w' : Value) :
    (Eval.ofResult (LoxLang.applyBinary op w w')).NeverReturns := by
  refine ofResult fun keyword v h => ?_
  obtain ⟨cause, ⟨⟩⟩ | ⟨⟨⟩⟩ := eq_failure_of_applyBinary h

/-- A call takes up every `return` of the body, **whatever** that is. -/
theorem call (parameters : List Token) (arguments : List Value) (body : Eval Unit) :
    (Eval.call parameters arguments body).NeverReturns := by
  intro keyword v m h
  rw [InterruptedBy, fst_run_call] at h
  generalize (body.run (entered parameters arguments m)).1 = r at h
  rcases r with (_ | _ | _) | _ <;> cases h

theorem apply (host : Host) (run : List Stmt → Eval Unit) (paren : Token) (callee : Value)
    (arguments : List Value) : (Eval.apply host run paren callee arguments).NeverReturns := by
  cases callee with
  | function f identity =>
    rw [apply_function]
    split
    · exact call f.parameters arguments (run f.body)
    · exact fail paren _
  | native f identity =>
    rw [apply_native]
    split
    · exact readClock host
    · exact fail paren _
  | _ => exact fail paren _

end NeverReturns

end Eval

/-- **Evaluation never returns**, whatever is called in the course of it. -/
theorem neverReturns_evaluate (host : Host) (n : Nat) (e : Expr) :
    (evaluate host n e).NeverReturns := by
  induction n generalizing e with
  | zero =>
    intro keyword v m h
    cases h
  | succ n ih =>
    cases e with
    | literal value => rw [evaluate]; exact .pure _
    | grouping inner => rw [evaluate]; exact ih inner
    | unary op operand =>
      rw [evaluate]
      exact (ih operand).bind fun v => .applyUnary op v
    | binary left op right =>
      rw [evaluate]
      exact (ih left).bind fun v => (ih right).bind fun w => .applyBinary op v w
    | logical left op right =>
      rw [evaluate]
      refine (ih left).bind fun v => ?_
      split
      · exact .pure v
      · exact ih right
    | name token => rw [evaluate]; exact .lookup token
    | assign target value =>
      rw [evaluate]
      exact (ih value).bind fun v => (NeverReturns.assign target v).bind fun _ => .pure v
    | call callee paren arguments =>
      rw [evaluate]
      exact (ih callee).bind fun f => (NeverReturns.mapM ih arguments).bind fun vs =>
        .apply host _ paren f vs

/-! ### Statements that are run -/

namespace Eval

variable {α : Type} {m m₁ m₂ : Memory}

/-- A list of steps has at most one that does **not** run to its end. -/
theorem forM_stop_unique {f : α → Eval Unit} {front front' behind behind' : List α} {a a' : α}
    {e e' : Interrupt} (hlist : front ++ a :: behind = front' ++ a' :: behind')
    (hfront : (front.forM f).run m = (.ok (), m₁)) (ha : (f a).InterruptedBy e m₁)
    (hfront' : (front'.forM f).run m = (.ok (), m₂)) (ha' : (f a').InterruptedBy e' m₂) :
    a = a' ∧ m₁ = m₂ := by
  induction front generalizing m front' with
  | nil =>
    cases hfront
    cases front' with
    | nil =>
      cases hfront'
      cases hlist
      exact ⟨rfl, rfl⟩
    | cons b front' =>
      cases hlist
      rw [run_forM_cons] at hfront'
      rcases hb : (f a).run m₁ with ⟨_ | ⟨⟩, m'⟩
      · rw [hb] at hfront'
        cases hfront'
      · rw [InterruptedBy, hb] at ha
        cases ha
  | cons b front ih =>
    rw [run_forM_cons] at hfront
    cases front' with
    | nil =>
      cases hlist
      cases hfront'
      rw [InterruptedBy] at ha'
      rcases hb : (f a').run m₂ with ⟨_ | ⟨⟩, m'⟩ <;> rw [hb] at hfront ha'
      · cases hfront
      · cases ha'
    | cons b' front' =>
      obtain ⟨rfl, htail⟩ := List.cons.inj hlist
      rw [run_forM_cons] at hfront'
      rcases hb : (f b).run m with ⟨_ | ⟨⟩, m'⟩ <;> rw [hb] at hfront hfront'
      · cases hfront
      · exact ih htail hfront hfront'

/-- A loop has at most one round whose body does **not** run to its end. -/
theorem Rounds.stop_unique {condition : Eval Bool} {body : Eval Unit} {k k' : Nat}
    {m₁' m₂' : Memory} {e e' : Interrupt} (hrounds : Rounds condition body k m m₁)
    (hcondition : condition.run m₁ = (.ok true, m₁')) (hbody : body.InterruptedBy e m₁')
    (hrounds' : Rounds condition body k' m m₂)
    (hcondition' : condition.run m₂ = (.ok true, m₂')) (hbody' : body.InterruptedBy e' m₂') :
    m₁' = m₂' := by
  induction hrounds generalizing k' with
  | start m =>
    cases hrounds' with
    | start => exact (Prod.mk.inj (hcondition.symm.trans hcondition')).2
    | next hc hb _ =>
      cases hcondition.symm.trans hc
      rw [InterruptedBy, hb] at hbody
      cases hbody
  | next hc hb _ ih =>
    cases hrounds' with
    | start =>
      cases hc.symm.trans hcondition'
      rw [InterruptedBy, hb] at hbody'
      cases hbody'
    | next hc' hb' hrounds' =>
      cases hc.symm.trans hc'
      cases hb.symm.trans hb'
      exact ih hcondition hrounds'

end Eval

namespace Step

variable {host : Host} {n n' : Nat} {s t : Stmt} {m m' : Memory} {e : Interrupt}

/-- What stands within a statement that another one starts stands within that one. -/
theorem Starts.within (h : Starts host n (statement s) m (statement t) m') {u : Stmt}
    (hu : u.Within t) : u.Within s := by
  cases h with
  | inside => exact .block (List.mem_append_right _ List.mem_cons_self) hu
  | yes => exact .yes hu
  | no => exact .no hu
  | body => exact .loop hu

/-- A statement starts at most one other that does **not** run to its end. -/
theorem Starts.stop_unique {t' : Stmt} {m'' : Memory} {e' : Interrupt}
    (h : Starts host n (statement s) m (statement t) m')
    (ht : (execute host n t).InterruptedBy e m')
    (h' : Starts host n (statement s) m (statement t') m'')
    (ht' : (execute host n t').InterruptedBy e' m'') : t = t' ∧ m' = m'' := by
  cases s with
  | block body =>
    generalize hbody : body = stmts at h'
    cases h with
    | inside hfront =>
      cases h' with
      | inside hfront' => exact forM_stop_unique hbody hfront ht hfront' ht'
  | branch condition yes no =>
    cases h with
    | yes hcondition htruthy =>
      cases h' with
      | yes hcondition' => exact ⟨rfl, (Prod.mk.inj (hcondition.symm.trans hcondition')).2⟩
      | no hcondition' htruthy' =>
        cases hcondition.symm.trans hcondition'
        exact absurd htruthy htruthy'
    | no hcondition htruthy =>
      cases h' with
      | yes hcondition' htruthy' =>
        cases hcondition.symm.trans hcondition'
        exact absurd htruthy' htruthy
      | no hcondition' => exact ⟨rfl, (Prod.mk.inj (hcondition.symm.trans hcondition')).2⟩
  | loop condition body =>
    cases h with
    | body _ hrounds hcondition =>
      cases h' with
      | body _ hrounds' hcondition' =>
        exact ⟨rfl, hrounds.stop_unique hcondition ht hrounds' hcondition' ht'⟩
  | _ => cases h

variable (host)

/-- A statement with at most `n` nested steps in `m` **runs** a statement with at most `n'` of them
in `m'`: itself, or one that a statement it starts runs. Calls are started by expressions, so
nothing that a call runs is among them. -/
inductive Runs : Nat → Stmt → Memory → Nat → Stmt → Memory → Prop
  | self (n : Nat) (s : Stmt) (m : Memory) : Runs n s m n s m
  | inside {n n' : Nat} {s s₁ s' : Stmt} {m m₁ m' : Memory} :
    Starts host n (statement s) m (statement s₁) m₁ → Runs n s₁ m₁ n' s' m' →
      Runs (n + 1) s m n' s' m'

/-- Statements in order **run** a statement if one of them does, behind others that run to their
ends. -/
def RunsAmong (n : Nat) (statements : List Stmt) (m : Memory) (n' : Nat) (s' : Stmt)
    (m' : Memory) : Prop :=
  ∃ front s behind m₁, statements = front ++ s :: behind ∧
    (front.forM (execute host n)).run m = (.ok (), m₁) ∧ Runs host n s m₁ n' s' m'

variable {host}

theorem Runs.within {s' : Stmt} (h : Runs host n s m n' s' m') : s'.Within s := by
  induction h with
  | self n s m => exact .self
  | inside hstarts _ ih => exact hstarts.within ih

/-- What interrupts a statement that is run interrupts **all** around it. -/
theorem Runs.interruptedBy {s' : Stmt} (h : Runs host n s m n' s' m')
    (hs' : (execute host n' s').InterruptedBy e m') : (execute host n s).InterruptedBy e m := by
  induction h with
  | self n s m => exact hs'
  | inside hstarts _ ih => exact InterruptedBy.of_starts hstarts (.inl ⟨_, rfl⟩) (ih hs')

theorem RunsAmong.interruptedBy {statements : List Stmt} {s' : Stmt}
    (h : RunsAmong host n statements m n' s' m')
    (hs' : (execute host n' s').InterruptedBy e m') :
    (executeAll host n statements).InterruptedBy e m := by
  obtain ⟨front, s, behind, m₁, rfl, hfront, hruns⟩ := h
  exact interruptedBy_forM.mpr ⟨front, s, behind, m₁, rfl, hfront, hruns.interruptedBy hs'⟩

/-! ### The `return` that is run -/

/-- The value that a `return` gives, with at most `n` nested steps. -/
def returnedValue (host : Host) (n : Nat) : Option Expr → Eval Value
  | none => pure .nil
  | some e => evaluate host n e

theorem execute_returnValue (keyword : Token) (value : Option Expr) :
    execute host (n + 1) (.returnValue keyword value) = (do
      let v ← returnedValue host n value
      throw (.returning keyword v)) := by
  cases value with
  | none => rw [execute]; rfl
  | some e => rw [execute]; rfl

theorem neverReturns_returnedValue (value : Option Expr) :
    (returnedValue host n value).NeverReturns := by
  cases value with
  | none => exact NeverReturns.pure Value.nil
  | some e => exact neverReturns_evaluate host n e

/-- A `return` ends with the value that it gives **and with nothing else**. -/
theorem returnValue_interruptedBy_iff {keyword keyword' : Token} {value : Option Expr}
    {v : Value} :
    (execute host (n + 1) (.returnValue keyword value)).InterruptedBy (.returning keyword' v) m ↔
      keyword = keyword' ∧ ∃ m', (returnedValue host n value).run m = (.ok v, m') := by
  rw [execute_returnValue, interruptedBy_bind]
  constructor
  · rintro (h | ⟨w, m', hvalue, h⟩)
    · exact absurd h (neverReturns_returnedValue value keyword' v m)
    · cases h
      exact ⟨rfl, m', hvalue⟩
  · rintro ⟨rfl, m', hvalue⟩
    exact .inr ⟨v, m', hvalue, rfl⟩

/-- A `return` does not run to its end. -/
theorem exists_returnValue_interruptedBy (keyword : Token) (value : Option Expr) (m : Memory) :
    ∃ e, (execute host n (.returnValue keyword value)).InterruptedBy e m := by
  cases n with
  | zero => exact ⟨.abort .overflow, rfl⟩
  | succ n =>
    rw [execute_returnValue]
    rcases hvalue : (returnedValue host n value).run m with ⟨e | v, m'⟩
    · exact ⟨e, interruptedBy_bind.mpr (.inl (congrArg Prod.fst hvalue))⟩
    · exact ⟨.returning keyword v, interruptedBy_bind.mpr (.inr ⟨v, m', hvalue, rfl⟩)⟩

/-- A statement that runs a `return` does not run to its end. -/
theorem Runs.exists_interruptedBy {keyword : Token} {value : Option Expr}
    (h : Runs host n s m n' (.returnValue keyword value) m') :
    ∃ e, (execute host n s).InterruptedBy e m :=
  (exists_returnValue_interruptedBy keyword value m').imp fun _ => h.interruptedBy

/-- **No statement runs two** `return`s. -/
theorem Runs.return_unique {n₁ n₂ : Nat} {keyword₁ keyword₂ : Token} {value₁ value₂ : Option Expr}
    {m₁ m₂ : Memory} (h₁ : Runs host n s m n₁ (.returnValue keyword₁ value₁) m₁)
    (h₂ : Runs host n s m n₂ (.returnValue keyword₂ value₂) m₂) :
    n₁ = n₂ ∧ keyword₁ = keyword₂ ∧ value₁ = value₂ ∧ m₁ = m₂ := by
  generalize ht : Stmt.returnValue keyword₁ value₁ = t at h₁
  induction h₁ with
  | self n s m =>
    subst ht
    cases h₂ with
    | self => exact ⟨rfl, rfl, rfl, rfl⟩
    | inside hstarts => cases hstarts
  | inside hstarts hruns ih =>
    subst ht
    cases h₂ with
    | self => cases hstarts
    | inside hstarts' hruns' =>
      -- Both of the statements that are started here do not run to their ends.
      obtain ⟨e₁, he₁⟩ := hruns.exists_interruptedBy
      obtain ⟨e₂, he₂⟩ := hruns'.exists_interruptedBy
      obtain ⟨rfl, rfl⟩ := hstarts.stop_unique he₁ hstarts' he₂
      exact ih hruns' rfl

theorem RunsAmong.return_unique {statements : List Stmt} {n₁ n₂ : Nat} {keyword₁ keyword₂ : Token}
    {value₁ value₂ : Option Expr} {m₁ m₂ : Memory}
    (h₁ : RunsAmong host n statements m n₁ (.returnValue keyword₁ value₁) m₁)
    (h₂ : RunsAmong host n statements m n₂ (.returnValue keyword₂ value₂) m₂) :
    n₁ = n₂ ∧ keyword₁ = keyword₂ ∧ value₁ = value₂ ∧ m₁ = m₂ := by
  obtain ⟨front, s, behind, m', rfl, hfront, hruns⟩ := h₁
  obtain ⟨front', s', behind', m'', hlist, hfront', hruns'⟩ := h₂
  obtain ⟨e₁, he₁⟩ := hruns.exists_interruptedBy
  obtain ⟨e₂, he₂⟩ := hruns'.exists_interruptedBy
  obtain ⟨rfl, rfl⟩ := forM_stop_unique hlist hfront he₁ hfront' he₂
  exact hruns.return_unique hruns'

/-- A statement that ends with a `return` **is** that `return`, or it starts a statement that ends
with it. -/
theorem exists_starts_of_returning {keyword : Token} {v : Value}
    (h : (execute host (n + 1) s).InterruptedBy (.returning keyword v) m) :
    (∃ value m', s = .returnValue keyword value ∧
        (returnedValue host n value).run m = (.ok v, m')) ∨
      ∃ t m', Starts host n (statement s) m (statement t) m' ∧
        (execute host n t).InterruptedBy (.returning keyword v) m' := by
  have hvalue : ∀ (value : Expr) (m : Memory),
      ¬ (evaluate host n value).InterruptedBy (.returning keyword v) m :=
    fun value => neverReturns_evaluate host n value keyword v
  cases s with
  | expression value =>
    rw [execute, interruptedBy_bind] at h
    rcases h with h | ⟨w, m', -, h⟩
    · exact absurd h (hvalue value m)
    · cases h
  | print value =>
    rw [execute, interruptedBy_bind] at h
    rcases h with h | ⟨w, m', -, h⟩
    · exact absurd h (hvalue value m)
    · cases h
  | declare target value =>
    cases value with
    | none => rw [execute] at h; cases h
    | some value =>
      rw [execute, interruptedBy_bind] at h
      rcases h with h | ⟨w, m', -, h⟩
      · exact absurd h (hvalue value m)
      · cases h
  | block body =>
    rw [execute, interruptedBy_inBlock] at h
    obtain ⟨front, t, behind, m', rfl, hfront, h⟩ := interruptedBy_forM.mp h
    exact .inr ⟨t, m', .inside hfront, h⟩
  | branch condition yes no =>
    cases no with
    | none =>
      rw [execute, interruptedBy_bind] at h
      rcases h with h | ⟨w, m', hcondition, h⟩
      · exact absurd h (hvalue condition m)
      split at h
      · next htruthy => exact .inr ⟨yes, m', .yes hcondition htruthy, h⟩
      · cases h
    | some no =>
      rw [execute, interruptedBy_bind] at h
      rcases h with h | ⟨w, m', hcondition, h⟩
      · exact absurd h (hvalue condition m)
      split at h
      · next htruthy => exact .inr ⟨yes, m', .yes hcondition htruthy, h⟩
      · next htruthy => exact .inr ⟨no, m', .no hcondition htruthy, h⟩
  | loop condition body =>
    have hunfinished : Interrupt.returning keyword v ≠ .abort .unfinished := by rintro ⟨⟩
    rw [execute, interruptedBy_repeatWhile hunfinished] at h
    obtain ⟨k, m₁, hk, hrounds, h | ⟨m', hcondition, h⟩⟩ := h
    · exact absurd (interruptedBy_map.mp h) (hvalue condition m₁)
    · exact .inr ⟨body, m', .body hk hrounds hcondition, h⟩
  | function target parameters body => rw [execute] at h; cases h
  | returnValue keyword' value =>
    obtain ⟨rfl, m', hrun⟩ := returnValue_interruptedBy_iff.mp h
    exact .inl ⟨value, m', rfl, hrun⟩

/-- A statement that ends with a `return` has **run** it. -/
theorem exists_runs_of_returning {keyword : Token} {v : Value}
    (h : (execute host n s).InterruptedBy (.returning keyword v) m) :
    ∃ k value m' m'', Runs host n s m (k + 1) (.returnValue keyword value) m' ∧
      (returnedValue host k value).run m' = (.ok v, m'') := by
  induction n generalizing s m with
  | zero => cases h
  | succ n ih =>
    rcases exists_starts_of_returning h with ⟨value, m', rfl, hvalue⟩ | ⟨t, m₁, hstarts, h⟩
    · exact ⟨n, value, m, m', .self (n + 1) _ m, hvalue⟩
    · obtain ⟨k, value, m', m'', hruns, hvalue⟩ := ih h
      exact ⟨k, value, m', m'', .inside hstarts hruns, hvalue⟩

/-- Statements in order end with a `return` exactly if they **run** one that gives its value. -/
theorem executeAll_returning_iff {statements : List Stmt} {keyword : Token} {v : Value} :
    (executeAll host n statements).InterruptedBy (.returning keyword v) m ↔
      ∃ k value m' m'', RunsAmong host n statements m (k + 1) (.returnValue keyword value) m' ∧
        (returnedValue host k value).run m' = (.ok v, m'') := by
  constructor
  · intro h
    obtain ⟨front, s, behind, m₁, hlist, hfront, h⟩ := interruptedBy_forM.mp h
    obtain ⟨k, value, m', m'', hruns, hvalue⟩ := exists_runs_of_returning h
    exact ⟨k, value, m', m'', ⟨front, s, behind, m₁, hlist, hfront, hruns⟩, hvalue⟩
  · rintro ⟨k, value, m', m'', hruns, hvalue⟩
    exact hruns.interruptedBy (returnValue_interruptedBy_iff.mpr ⟨rfl, m'', hvalue⟩)

end Step

open Step

/-- A statement ends with a `return` only if that stands **within** it. -/
theorem exists_within_of_returning {host : Host} {n : Nat} {s : Stmt} {m : Memory}
    {keyword : Token} {v : Value}
    (h : (execute host n s).InterruptedBy (.returning keyword v) m) :
    ∃ value, (Stmt.returnValue keyword value).Within s := by
  obtain ⟨_, value, _, _, hruns, _⟩ := exists_runs_of_returning h
  exact ⟨value, hruns.within⟩

/-- A program with every `return` inside of functions does not end with one. -/
theorem ReturnsInFunctions.neverReturns_executeAll {program : List Stmt}
    (h : ReturnsInFunctions program) (host : Host) (n : Nat) :
    (executeAll host n program).NeverReturns := by
  intro keyword v m hreturning
  obtain ⟨front, s, behind, m', rfl, -, hs⟩ := interruptedBy_forM.mp hreturning
  obtain ⟨value, hvalue⟩ := exists_within_of_returning hs
  exact h s (List.mem_append_right _ List.mem_cons_self) keyword value hvalue

/-! ### The value of a call -/

theorem callResult_eq_ok_iff {r : Except Interrupt Unit} {v : Value} :
    callResult r = .ok v ↔
      (r = .ok () ∧ v = .nil) ∨ ∃ keyword, r = .error (.returning keyword v) := by
  rcases r with (_ | _ | _) | _ <;> simp [callResult, eq_comm]

/-- A call of a function comes to what the call of its **body** comes to. -/
theorem fst_run_evaluate_call {host : Host} {n : Nat} {callee : Expr} {paren : Token}
    {arguments : List Expr} {f : Function} {identity : Nat} {vs : List Value} {m m₁ m₂ : Memory}
    (hcallee : (evaluate host n callee).run m = (.ok (.function f identity), m₁))
    (harguments : (arguments.mapM (evaluate host n)).run m₁ = (.ok vs, m₂))
    (harity : vs.length = f.parameters.length) :
    ((evaluate host (n + 1) (.call callee paren arguments)).run m).1 =
      callResult ((executeAll host n f.body).run (entered f.parameters vs m₂)).1 := by
  rw [evaluate, run_bind, hcallee]
  dsimp only
  rw [run_bind, harguments]
  dsimp only
  rw [apply_function, if_pos harity, fst_run_call]
  rfl

end LoxLang
