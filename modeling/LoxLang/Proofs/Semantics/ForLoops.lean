import LoxLang.Proofs.Evaluation.Bounds
import LoxLang.Proofs.Scopes.EmptyFrames
import LoxLang.Proofs.Scopes.Names

/-!
# What a `for` loop means

There is no node for a `for` loop: the parser builds it from a `while` loop and blocks. Here is what
such a loop means by itself. In one scope of its own, the start is executed; then, as long as the
condition holds, the body and behind it the step. Whatever is interrupted ends the loop.

The tree does the same (`parsed_forLoop_direct`), although it has a block around every round, in
which the step is evaluated, and none around a loop without a start. The first of these blocks is
empty whenever the step is evaluated, since the body of a loop is no declaration, and so neither can
be told from no block.
-/

namespace LoxLang

open Eval

/-! ### The direct meaning -/

/-- The start of a `for` loop, if there is one. -/
def executeStart (host : Host) (n : Nat) : Option Stmt → Eval Unit
  | some s => execute host n s
  | none => pure ()

/-- The condition of a `for` loop, which holds if it is missing. -/
def evaluateCondition (host : Host) (n : Nat) : Option Expr → Eval Bool
  | some e => Value.isTruthy <$> evaluate host n e
  | none => pure true

/-- The step of a `for` loop, if there is one. -/
def evaluateStep (host : Host) (n : Nat) : Option Expr → Eval Unit
  | some e => do
    let _ ← evaluate host n e
  | none => pure ()

/-- A `for` loop with the given clauses and body, in a scope of its own. -/
def Eval.forLoop (start : Eval Unit) (condition : Eval Bool) (body step : Eval Unit)
    (rounds : Nat) : Eval Unit :=
  inBlock do
    start
    repeatWhile condition (do body; step) rounds

/-- **Executes a `for` loop** directly, with at most `n` nested steps in each of its parts. -/
def executeFor (host : Host) (n : Nat) (start : Option Stmt) (condition step : Option Expr)
    (body : Stmt) : Eval Unit :=
  Eval.forLoop (executeStart host n start) (evaluateCondition host n condition)
    (execute host n body) (evaluateStep host n step) host.rounds

/-! ### Blocks that make no difference -/

section

variable {host : Host} {start : Option Stmt} {condition step : Option Expr} {body : Stmt}

theorem ignoresEmptyFrame_evaluateCondition (n : Nat) :
    (evaluateCondition host n condition).IgnoresEmptyFrame 0 := by
  cases condition with
  | none => exact .ofResult (.ok true)
  | some e => exact .map _ (ignoresEmptyFrame_evaluate host n e 0)

theorem ignoresEmptyFrame_evaluateStep (n : Nat) :
    (evaluateStep host n step).IgnoresEmptyFrame 0 := by
  cases step with
  | none => exact .ofResult (.ok ())
  | some e => exact (ignoresEmptyFrame_evaluate host n e 0).bind fun _ => .ofResult (.ok ())

variable (hbody : body.WellFormed) (hplain : ¬ body.IsDeclaration)

include hbody hplain

theorem ignoresEmptyFrame_round (c d : Nat) :
    (do execute host c body; evaluateStep host d step : Eval Unit).IgnoresEmptyFrame 0 :=
  (ignoresEmptyFrame_execute host c fun _ => ⟨hbody, hplain⟩).bind fun _ =>
    ignoresEmptyFrame_evaluateStep d

/-- Without a start, the scope of a **loop** makes no difference. -/
theorem forLoop_of_no_start (b c d r : Nat) :
    Eval.forLoop (pure ()) (evaluateCondition host b condition) (execute host c body)
      (evaluateStep host d step) r =
    repeatWhile (evaluateCondition host b condition)
      (do execute host c body; evaluateStep host d step) r :=
  inBlock_eq ((ignoresEmptyFrame_evaluateCondition b).repeatWhile
    (ignoresEmptyFrame_round hbody hplain c d) r)

end

/-! ### The tree of a loop -/

section

variable (host : Host) (n : Nat)

/-- A missing condition holds. -/
theorem evaluate_getD (condition : Option Expr) :
    Value.isTruthy <$> evaluate host (n + 1) (condition.getD (.literal (.bool true))) =
      evaluateCondition host (n + 1) condition := by
  cases condition with
  | some e => rfl
  | none =>
    rw [Option.getD_none, evaluate]
    rfl

/-- A block of two statements. -/
theorem execute_pair (s t : Stmt) :
    execute host (n + 1) (.block [s, t]) = inBlock (do execute host n s; execute host n t) := by
  rw [execute]
  exact congrArg (fun last => inBlock (execute host n s >>= fun _ => last)) (bind_pure _)

/-- The body of the loop in the tree of a `for` loop. -/
private def roundOf (step : Option Expr) (body : Stmt) : Stmt :=
  match step with
  | some e => .block [body, .expression e]
  | none => body

variable (condition step : Option Expr) {body : Stmt} (hbody : body.WellFormed)
  (hplain : ¬ body.IsDeclaration)

include hbody hplain

/-- A **round** is the body and the step, with or without a block around them. -/
private theorem exists_execute_roundOf :
    ∃ c d, (n ≤ c ∧ c ≤ n + 2) ∧ (n ≤ d ∧ d ≤ n + 2) ∧
      execute host (n + 2) (roundOf step body) =
        (do execute host c body; evaluateStep host d step) := by
  cases step with
  | none => exact ⟨n + 2, n, by omega, by omega, (bind_pure _).symm⟩
  | some e =>
    refine ⟨n + 1, n, by omega, by omega, ?_⟩
    have hround : (do execute host (n + 1) body; evaluateStep host n (some e) :
        Eval Unit).IgnoresEmptyFrame 0 := ignoresEmptyFrame_round hbody hplain (n + 1) n
    rw [roundOf, execute_pair, execute]
    exact inBlock_eq hround

private theorem exists_execute_loop :
    ∃ b c d, (n ≤ b ∧ b ≤ n + 2) ∧ (n ≤ c ∧ c ≤ n + 2) ∧ (n ≤ d ∧ d ≤ n + 2) ∧
      execute host (n + 3) (.loop (condition.getD (.literal (.bool true))) (roundOf step body)) =
        repeatWhile (evaluateCondition host b condition)
          (do execute host c body; evaluateStep host d step) host.rounds := by
  obtain ⟨c, d, hc, hd, hround⟩ := exists_execute_roundOf host n step hbody hplain
  refine ⟨n + 2, c, d, by omega, hc, hd, ?_⟩
  rw [execute, hround, evaluate_getD]

/-- The **tree of a `for` loop** does what the loop means, with its parts nested a little less
deeply than the whole. -/
theorem exists_execute_forLoop (start : Option Stmt) :
    ∃ a b c d, (n ≤ a ∧ a ≤ n + 4) ∧ (n ≤ b ∧ b ≤ n + 4) ∧ (n ≤ c ∧ c ≤ n + 4) ∧
      (n ≤ d ∧ d ≤ n + 4) ∧
      execute host (n + 4) (.forLoop start condition step body) =
        Eval.forLoop (executeStart host a start) (evaluateCondition host b condition)
          (execute host c body) (evaluateStep host d step) host.rounds := by
  cases start with
  | none =>
    obtain ⟨b, c, d, hb, hc, hd, hloop⟩ :=
      exists_execute_loop host (n + 1) condition step hbody hplain
    refine ⟨n, b, c, d, by omega, by omega, by omega, by omega, ?_⟩
    exact hloop.trans (forLoop_of_no_start hbody hplain b c d host.rounds).symm
  | some s =>
    obtain ⟨b, c, d, hb, hc, hd, hloop⟩ :=
      exists_execute_loop host n condition step hbody hplain
    refine ⟨n + 3, b, c, d, by omega, by omega, by omega, by omega, ?_⟩
    refine (execute_pair host (n + 3) s _).trans ?_
    exact congrArg (fun loop => inBlock (execute host (n + 3) s >>= fun _ => loop)) hloop

end

/-! ### Bounds -/

section

variable {K : Abort → Prop} (clock : Nat → Float) (hK : K .overflow) {r r' n n' : Nat}
  (hr : r = r' ∨ r ≤ r' ∧ K .unfinished) (hn : n ≤ n')

include hK hr hn

theorem continues_executeStart (start : Option Stmt) :
    Continues K (executeStart ⟨clock, r⟩ n start) (executeStart ⟨clock, r'⟩ n' start) := by
  cases start with
  | none => exact .refl (Memory.stable_printsOn.pure ())
  | some s => exact execute_continues clock hK hr hn s

theorem continues_evaluateCondition (condition : Option Expr) :
    Continues K (evaluateCondition ⟨clock, r⟩ n condition)
      (evaluateCondition ⟨clock, r'⟩ n' condition) := by
  cases condition with
  | none => exact .refl (Memory.stable_printsOn.pure true)
  | some e => exact (evaluate_continues clock hK hr hn e).map _

theorem continues_evaluateStep (step : Option Expr) :
    Continues K (evaluateStep ⟨clock, r⟩ n step) (evaluateStep ⟨clock, r'⟩ n' step) := by
  cases step with
  | none => exact .refl (Memory.stable_printsOn.pure ())
  | some e =>
    exact (evaluate_continues clock hK hr hn e).bind fun _ =>
      .refl (Memory.stable_printsOn.pure ())

/-- A **round** with larger bounds goes on as before. -/
theorem continues_round (step : Option Expr) (body : Stmt) :
    Continues K (do execute ⟨clock, r⟩ n body; evaluateStep ⟨clock, r⟩ n step)
      (do execute ⟨clock, r'⟩ n' body; evaluateStep ⟨clock, r'⟩ n' step) :=
  (execute_continues clock hK hr hn body).bind fun _ =>
    continues_evaluateStep clock hK hr hn step

end

/-- With deeper nesting in every part, a loop goes on as before. -/
theorem continues_forLoop (host : Host) {a b c d a' b' c' d' : Nat} (ha : a ≤ a') (hb : b ≤ b')
    (hc : c ≤ c') (hd : d ≤ d') (start : Option Stmt) (condition step : Option Expr)
    (body : Stmt) :
    Continues (· = .overflow)
      (Eval.forLoop (executeStart host a start) (evaluateCondition host b condition)
        (execute host c body) (evaluateStep host d step) host.rounds)
      (Eval.forLoop (executeStart host a' start) (evaluateCondition host b' condition)
        (execute host c' body) (evaluateStep host d' step) host.rounds) := by
  have hr : host.rounds = host.rounds ∨
      host.rounds ≤ host.rounds ∧ Abort.unfinished = .overflow := .inl rfl
  have hstart := continues_executeStart (K := (· = .overflow)) host.clock rfl hr ha start
  have hcondition :=
    continues_evaluateCondition (K := (· = .overflow)) host.clock rfl hr hb condition
  have hround := (execute_deeper host hc body).bind fun _ =>
    continues_evaluateStep (K := (· = .overflow)) host.clock rfl hr hd step
  exact (hstart.bind fun _ => hcondition.repeatWhile hround (.inl rfl)).inBlock

section

variable (host : Host) (n : Nat) (start : Option Stmt) (condition step : Option Expr) {body : Stmt}
  (hbody : body.WellFormed) (hplain : ¬ body.IsDeclaration) {m : Memory}

include hbody hplain

/-- What the **tree** of a loop does, the loop does directly. -/
theorem run_executeFor_of_execute
    (h : ((execute host n (.forLoop start condition step body)).run m).1 ≠
      .error (.abort .overflow)) :
    (executeFor host (n + 4) start condition step body).run m =
      (execute host n (.forLoop start condition step body)).run m := by
  obtain ⟨a, b, c, d, ⟨-, ha⟩, ⟨-, hb⟩, ⟨-, hc⟩, ⟨-, hd⟩, htree⟩ :=
    exists_execute_forLoop host n condition step hbody hplain start
  have hdeeper : (execute host (n + 4) (.forLoop start condition step body)).run m =
      (execute host n (.forLoop start condition step body)).run m :=
    (execute_deeper host (Nat.le_add_right n 4) _).run_eq_of_ne_overflow h
  rw [← hdeeper] at h ⊢
  rw [htree] at h ⊢
  exact (continues_forLoop host ha hb hc hd start condition step body).run_eq_of_ne_overflow h

/-- What a loop does **directly**, its tree does. -/
theorem run_execute_of_executeFor
    (h : ((executeFor host n start condition step body).run m).1 ≠ .error (.abort .overflow)) :
    (execute host (n + 4) (.forLoop start condition step body)).run m =
      (executeFor host n start condition step body).run m := by
  obtain ⟨a, b, c, d, ⟨ha, -⟩, ⟨hb, -⟩, ⟨hc, -⟩, ⟨hd, -⟩, htree⟩ :=
    exists_execute_forLoop host n condition step hbody hplain start
  rw [htree]
  exact (continues_forLoop host ha hb hc hd start condition step body).run_eq_of_ne_overflow h

end

end LoxLang
