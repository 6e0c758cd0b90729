import LoxLang.Proofs.Evaluation.Bounds
import LoxLang.Proofs.Semantics.Operations

/-!
# What the rules derive is reached

Whatever the reference semantics derives, evaluation comes to with large enough bounds on nesting
and on the rounds of loops. The proof is by induction on the derivation, in which the body of a
function called is a part. The bounds that are enough for the parts of a derivation, and one more
level of nesting, are enough for the whole.

Nothing is asked of programs or memories: where a rule applies, evaluation does as it says.
-/

namespace LoxLang

namespace Semantics

open Eval

variable {α β : Type} {callers : List (List Frame)} {m m' : Memory}

/-- With large enough bounds on rounds and nesting, the computation **reaches** the answer. -/
def Reaches (p : Nat → Nat → Eval α) (m : Memory) (answer : Except Interrupt α × Memory) : Prop :=
  ∃ N, ∀ rounds n, N ≤ rounds → N ≤ n → (p rounds n).run m = answer

namespace Reaches

variable {p : Nat → Nat → Eval α} {f : Nat → Nat → α → Eval β}
  {answer : Except Interrupt β × Memory}

theorem of_run {answer : Except Interrupt α × Memory}
    (h : ∀ rounds n, (p rounds n).run m = answer) : Reaches p m answer :=
  ⟨0, fun rounds n _ _ => h rounds n⟩

/-- One more level of nesting. -/
theorem succ {answer : Except Interrupt α × Memory}
    (h : Reaches (fun rounds n => p rounds (n + 1)) m answer) : Reaches p m answer := by
  obtain ⟨N, hN⟩ := h
  refine ⟨N + 1, fun rounds n hrounds hn => ?_⟩
  obtain ⟨k, rfl⟩ : ∃ k, n = k + 1 := ⟨n - 1, by omega⟩
  exact hN rounds k (by omega) (by omega)

theorem bind {v : α} (hp : Reaches p m (.ok v, m'))
    (hf : Reaches (fun rounds n => f rounds n v) m' answer) :
    Reaches (fun rounds n => p rounds n >>= f rounds n) m answer := by
  obtain ⟨N₁, h₁⟩ := hp
  obtain ⟨N₂, h₂⟩ := hf
  refine ⟨max N₁ N₂, fun rounds n hrounds hn => ?_⟩
  rw [run_bind, h₁ rounds n (by omega) (by omega)]
  exact h₂ rounds n (by omega) (by omega)

/-- An interrupt ends all there is to follow. -/
theorem bind_error {i : Interrupt} (hp : Reaches p m (.error i, m')) :
    Reaches (fun rounds n => p rounds n >>= f rounds n) m (.error i, m') := by
  obtain ⟨N, h⟩ := hp
  refine ⟨N, fun rounds n hrounds hn => ?_⟩
  rw [run_bind, h rounds n hrounds hn]

end Reaches

variable {clock : Nat → Float}

/-- The body of a function reaches the result of its call. -/
theorem Reaches.call {p : Nat → Nat → Eval Unit} {parameters : List Token} {arguments : List Value}
    {s s' : State} {o : Outcome}
    (h : Reaches p ({ s with locals := [[], parameterFrame parameters arguments] }.memory
      (s.locals :: callers)) (o.toExcept, s'.memory (s.locals :: callers))) :
    Reaches (fun rounds n => Eval.call parameters arguments (p rounds n)) (s.memory callers)
      (o.toResult.toExcept, { s' with locals := s.locals }.memory callers) := by
  obtain ⟨N, hN⟩ := h
  refine ⟨N, fun rounds n hrounds hn => ?_⟩
  rw [run_call, hN rounds n hrounds hn, ← callResult_toExcept]
  rfl

theorem Reaches.inBlock {p : Nat → Nat → Eval Unit} {s s' : State} {o : Outcome}
    (h : Reaches p ({ s with locals := [] :: s.locals }.memory callers)
      (o.toExcept, s'.memory callers)) :
    Reaches (fun rounds n => Eval.inBlock (p rounds n)) (s.memory callers)
      (o.toExcept, { s' with locals := s'.locals.tail }.memory callers) := by
  obtain ⟨N, hN⟩ := h
  refine ⟨N, fun rounds n hrounds hn => ?_⟩
  rw [run_inBlock, hN rounds n hrounds hn]
  rfl

/-- An outcome that is not normal ends all there is to follow. -/
theorem Reaches.stop {p q : Nat → Nat → Eval Unit} {o : Outcome}
    (hp : Reaches p m (o.toExcept, m')) (ho : o ≠ .normal) :
    Reaches (fun rounds n => p rounds n >>= fun _ => q rounds n) m (o.toExcept, m') := by
  cases o with
  | normal => exact absurd rfl ho
  | returning keyword v => exact hp.bind_error
  | error e => exact hp.bind_error

/-! ### Loops -/

section

variable {condition : Nat → Nat → Eval Bool} {body : Nat → Nat → Eval Unit}

/-- A loop evaluates its condition and then makes a round or ends. -/
theorem Reaches.repeatWhile {answer : Except Interrupt Unit × Memory}
    (h : Reaches (fun rounds n => condition rounds n >>= fun holds =>
      if holds then
        body rounds n >>= fun _ =>
          Eval.repeatWhile (condition rounds n) (body rounds n) (rounds - 1)
      else pure ()) m answer) :
    Reaches (fun rounds n => Eval.repeatWhile (condition rounds n) (body rounds n) rounds) m
      answer := by
  obtain ⟨N, hN⟩ := h
  refine ⟨N + 1, fun rounds n hrounds hn => ?_⟩
  obtain ⟨r, rfl⟩ : ∃ r, rounds = r + 1 := ⟨rounds - 1, by omega⟩
  exact hN (r + 1) n (by omega) (by omega)

/-- A loop that reaches an answer does so within one round less, if the bounds are large: then its
parts may make one round more, which continues what they do. -/
theorem Reaches.fewerRounds
    (hcondition : ∀ r n, Continues Abort.IsBound (condition r n) (condition (r + 1) n))
    (hbody : ∀ r n, Continues Abort.IsBound (body r n) (body (r + 1) n)) {o : Outcome}
    (h : Reaches (fun rounds n => Eval.repeatWhile (condition rounds n) (body rounds n) rounds) m
      (o.toExcept, m')) :
    Reaches (fun rounds n => Eval.repeatWhile (condition rounds n) (body rounds n) (rounds - 1)) m
      (o.toExcept, m') := by
  obtain ⟨N, hN⟩ := h
  refine ⟨N + 1, fun rounds n hrounds hn => ?_⟩
  obtain ⟨r, rfl⟩ : ∃ r, rounds = r + 1 := ⟨rounds - 1, by omega⟩
  have hrun : (Eval.repeatWhile (condition r n) (body r n) r).run m = (o.toExcept, m') :=
    hN r n (by omega) (by omega)
  have hmore : Continues Abort.IsBound (Eval.repeatWhile (condition r n) (body r n) r)
      (Eval.repeatWhile (condition (r + 1) n) (body (r + 1) n) r) :=
    (hcondition r n).repeatWhile (hbody r n) (.inl rfl)
  refine (hmore.run_eq fun reason _ hcut => ?_).trans hrun
  rw [hrun] at hcut
  cases o <;> cases hcut

end

/-- What holds of a bound that is one round larger. -/
theorem oneRoundMore (r : Nat) : r = r + 1 ∨ r ≤ r + 1 ∧ Abort.IsBound .unfinished :=
  .inr ⟨Nat.le_succ r, trivial⟩

section

variable {condition : Expr} {body : Stmt}

/-- A `while` loop reaches what its rounds reach. -/
private theorem reaches_loop {answer : Except Interrupt Unit × Memory}
    (h : Reaches (fun rounds n => evaluate ⟨clock, rounds⟩ n condition >>= fun v =>
      if v.isTruthy then
        execute ⟨clock, rounds⟩ n body >>= fun _ =>
          Eval.repeatWhile (Value.isTruthy <$> evaluate ⟨clock, rounds⟩ n condition)
            (execute ⟨clock, rounds⟩ n body) (rounds - 1)
      else pure ()) m answer) :
    Reaches (fun rounds n => execute ⟨clock, rounds⟩ (n + 1) (.loop condition body)) m answer := by
  simp only [execute]
  refine .repeatWhile ?_
  simp only [bind_map_left]
  exact h

/-- The rounds of a `while` loop reach what the loop reaches, also with one round less. -/
private theorem reaches_rounds {o : Outcome}
    (h : Reaches (fun rounds n => execute ⟨clock, rounds⟩ n (.loop condition body)) m
      (o.toExcept, m')) :
    Reaches (fun rounds n =>
      Eval.repeatWhile (Value.isTruthy <$> evaluate ⟨clock, rounds⟩ n condition)
        (execute ⟨clock, rounds⟩ n body) (rounds - 1)) m (o.toExcept, m') := by
  refine .fewerRounds (fun r n => ?_) (fun r n => ?_) ?_
  · exact (evaluate_continues clock trivial (oneRoundMore r) (Nat.le_refl n) condition).map _
  · exact execute_continues clock trivial (oneRoundMore r) (Nat.le_refl n) body
  · obtain ⟨N, hN⟩ := h
    refine ⟨N, fun rounds n hrounds hn => ?_⟩
    have hloop := hN rounds (n + 1) hrounds (Nat.le_succ_of_le hn)
    dsimp only at hloop
    rwa [execute] at hloop

end

mutual

/-- The result of an **expression** is reached. -/
theorem Evaluates.reaches {e : Expr} {s s' : State} {r : Result Value}
    (h : Evaluates clock e s r s') (callers : List (List Frame)) :
    Reaches (fun rounds n => evaluate ⟨clock, rounds⟩ n e) (s.memory callers)
      (r.toExcept, s'.memory callers) := by
  refine .succ ?_
  match h with
  | .literal value s =>
    simp only [evaluate]
    exact .of_run fun _ _ => rfl
  | .grouping hinner =>
    simp only [evaluate]
    exact hinner.reaches callers
  | .unary hoperand hr =>
    simp only [evaluate]
    refine (hoperand.reaches callers).bind (.of_run fun _ _ => ?_)
    rw [run_ofResult, hr.applyUnary]
  | .unaryError hoperand =>
    simp only [evaluate]
    exact (hoperand.reaches callers).bind_error
  | .binary hleft hright hr =>
    simp only [evaluate]
    refine (hleft.reaches callers).bind ((hright.reaches callers).bind (.of_run fun _ _ => ?_))
    rw [run_ofResult, hr.applyBinary]
  | .binaryLeft hleft =>
    simp only [evaluate]
    exact (hleft.reaches callers).bind_error
  | .binaryRight hleft hright =>
    simp only [evaluate]
    exact (hleft.reaches callers).bind (hright.reaches callers).bind_error
  | .decided hleft hdecides =>
    simp only [evaluate]
    refine (hleft.reaches callers).bind ?_
    simp only [if_pos hdecides.isTruthy_eq]
    exact .of_run fun _ _ => rfl
  | .deferred hleft hdefers hright =>
    simp only [evaluate]
    refine (hleft.reaches callers).bind ?_
    simp only [if_neg hdefers.isTruthy_ne]
    exact hright.reaches callers
  | .logicalError hleft =>
    simp only [evaluate]
    exact (hleft.reaches callers).bind_error
  | .name hv =>
    simp only [evaluate]
    exact .of_run fun _ _ => hv.run_lookup
  | .unbound hnone =>
    simp only [evaluate]
    exact .of_run fun _ _ => hnone.run_lookup
  | .assign hvalue hframes hs =>
    simp only [evaluate]
    refine (hvalue.reaches callers).bind ?_
    exact Reaches.bind (.of_run fun _ _ => hframes.run_assign hs) (.of_run fun _ _ => rfl)
  | .assignUnbound hvalue hnone =>
    simp only [evaluate]
    refine (hvalue.reaches callers).bind ?_
    exact Reaches.bind_error (.of_run fun _ _ => hnone.run_assign _)
  | .assignError hvalue =>
    simp only [evaluate]
    exact (hvalue.reaches callers).bind_error
  | .call hcallee harguments happlies =>
    simp only [evaluate]
    refine (hcallee.reaches callers).bind ((harguments.reaches callers).bind ?_)
    exact happlies.reaches callers
  | .calleeError hcallee =>
    simp only [evaluate]
    exact (hcallee.reaches callers).bind_error
  | .argumentError hcallee harguments =>
    simp only [evaluate]
    exact (hcallee.reaches callers).bind (harguments.reaches callers).bind_error

/-- The result of the **arguments** of a call is reached. -/
theorem EvaluatesAll.reaches {es : List Expr} {s s' : State} {r : Result (List Value)}
    (h : EvaluatesAll clock es s r s') (callers : List (List Frame)) :
    Reaches (fun rounds n => es.mapM (evaluate ⟨clock, rounds⟩ n)) (s.memory callers)
      (r.toExcept, s'.memory callers) := by
  match h with
  | .nil _ => exact .of_run fun _ _ => rfl
  | .cons hfirst hrest =>
    simp only [List.mapM_cons]
    exact (hfirst.reaches callers).bind ((hrest.reaches callers).bind (.of_run fun _ _ => rfl))
  | .first hfirst =>
    simp only [List.mapM_cons]
    exact (hfirst.reaches callers).bind_error
  | .later hfirst hrest =>
    simp only [List.mapM_cons]
    exact (hfirst.reaches callers).bind (hrest.reaches callers).bind_error

/-- The result of a **call** is reached. -/
theorem Applies.reaches {paren : Token} {f : Value} {vs : List Value} {s s' : State}
    {r : Result Value} (h : Applies clock paren f vs s r s') (callers : List (List Frame)) :
    Reaches (fun rounds n => apply ⟨clock, rounds⟩ (executeAll ⟨clock, rounds⟩ n) paren f vs)
      (s.memory callers) (r.toExcept, s'.memory callers) := by
  match h with
  | .notCallable paren vs s hnone =>
    refine .of_run fun _ _ => ?_
    rw [apply_of_arity?_eq_none _ _ paren hnone, run_ofResult]
    rfl
  | .wrongArity paren s hsome harity =>
    refine .of_run fun _ _ => ?_
    unfold apply
    rw [hsome]
    dsimp only
    rw [if_neg harity, run_ofResult]
    rfl
  | .native paren s harity =>
    refine .of_run fun _ _ => ?_
    rw [apply_native, if_pos harity, run_readClock]
    rfl
  | .function paren harity hbody =>
    simp only [apply_function, if_pos harity]
    exact (hbody.reaches (s.locals :: callers)).call

/-- The outcome of a **statement** is reached. -/
theorem Executes.reaches {stmt : Stmt} {s s' : State} {o : Outcome}
    (h : Executes clock stmt s o s') (callers : List (List Frame)) :
    Reaches (fun rounds n => execute ⟨clock, rounds⟩ n stmt) (s.memory callers)
      (o.toExcept, s'.memory callers) := by
  refine .succ ?_
  match h with
  | .expression hvalue =>
    simp only [execute]
    exact (hvalue.reaches callers).bind (.of_run fun _ _ => rfl)
  | .expressionError hvalue =>
    simp only [execute]
    exact (hvalue.reaches callers).bind_error
  | .print hvalue =>
    simp only [execute]
    exact (hvalue.reaches callers).bind (.of_run fun _ _ => rfl)
  | .printError hvalue =>
    simp only [execute]
    exact (hvalue.reaches callers).bind_error
  | .declare target s =>
    simp only [execute]
    exact .of_run fun _ _ => run_define _ _ s callers
  | .declareValue hvalue =>
    simp only [execute]
    exact (hvalue.reaches callers).bind (.of_run fun _ _ => run_define _ _ _ callers)
  | .declareError hvalue =>
    simp only [execute]
    exact (hvalue.reaches callers).bind_error
  | .block hbody =>
    simp only [execute]
    exact (hbody.reaches callers).inBlock
  | .branchYes hcondition hv hyes =>
    simp only [execute]
    refine (hcondition.reaches callers).bind ?_
    simp only [truthy_of_not_falsy hv, if_true]
    exact hyes.reaches callers
  | .branchNo hcondition hv hno =>
    simp only [execute]
    refine (hcondition.reaches callers).bind ?_
    simp only [falsy_iff.mp hv, Bool.false_eq_true, if_false]
    exact hno.reaches callers
  | .branchNone hcondition hv =>
    simp only [execute]
    refine (hcondition.reaches callers).bind ?_
    simp only [falsy_iff.mp hv, Bool.false_eq_true, if_false]
    exact .of_run fun _ _ => rfl
  | .branchError hcondition =>
    simp only [execute]
    exact (hcondition.reaches callers).bind_error
  | .loopEnd hcondition hv =>
    refine reaches_loop ((hcondition.reaches callers).bind ?_)
    simp only [falsy_iff.mp hv, Bool.false_eq_true, if_false]
    exact .of_run fun _ _ => rfl
  | .loopRound hcondition hv hbody hloop =>
    refine reaches_loop ((hcondition.reaches callers).bind ?_)
    simp only [truthy_of_not_falsy hv, if_true]
    exact (hbody.reaches callers).bind (reaches_rounds (hloop.reaches callers))
  | .loopStop hcondition hv hbody ho =>
    refine reaches_loop ((hcondition.reaches callers).bind ?_)
    simp only [truthy_of_not_falsy hv, if_true]
    exact (hbody.reaches callers).stop ho
  | .loopError hcondition => exact reaches_loop (hcondition.reaches callers).bind_error
  | .function target parameters body s =>
    simp only [execute]
    exact .of_run fun _ _ => run_define _ _ { s with created := s.created + 1 } callers
  | .returnNil keyword s =>
    simp only [execute]
    exact .of_run fun _ _ => rfl
  | .returnValue hvalue =>
    simp only [execute]
    exact (hvalue.reaches callers).bind (.of_run fun _ _ => rfl)
  | .returnError hvalue =>
    simp only [execute]
    exact (hvalue.reaches callers).bind_error

/-- The outcome of a **list of statements** is reached. -/
theorem ExecutesAll.reaches {stmts : List Stmt} {s s' : State} {o : Outcome}
    (h : ExecutesAll clock stmts s o s') (callers : List (List Frame)) :
    Reaches (fun rounds n => executeAll ⟨clock, rounds⟩ n stmts) (s.memory callers)
      (o.toExcept, s'.memory callers) := by
  match h with
  | .nil _ => exact .of_run fun _ _ => rfl
  | .cons hfirst hrest => exact (hfirst.reaches callers).bind (hrest.reaches callers)
  | .stop hfirst ho => exact (hfirst.reaches callers).stop ho

end

end Semantics

end LoxLang
