import LoxLang.Proofs.Evaluation.Steps
import LoxLang.Session

/-!
# The moments of a run

`Step.Starts` says which steps a step starts. Here they are listed in the order in which they are
started, each with the values that are **held** meanwhile: the left operand of an operator while the
right one is evaluated, the function and the arguments in front of it while an argument is, and both
while the body of the function runs. A run is then told as a list of **moments**, one where each
step begins and one where it ends, with the memory of that moment and all values that are held by
steps in progress.

The list is no more and no less than the run: a step is at one of the moments exactly if the run
takes it (`Step.takes_iff_exists_moment`).
-/

namespace LoxLang

open Eval

/-! ### What steps start -/

/-- A step that another one starts, where it starts, and what the other one **holds** meanwhile. -/
structure Substep where
  step : Step
  memory : Memory
  held : List Value

namespace Substep

variable {α β : Type}

/-- What is started behind a computation, **if** that runs to its end. -/
def behind (r : Except Interrupt α × Memory) (next : α → Memory → List Substep) : List Substep :=
  match r with
  | (.ok a, m) => next a m
  | (.error _, _) => []

/-- What is started **in order**: each behind those in front of it, with what is kept of them. -/
def inOrder (step : α → Step) (run : α → Eval β) (kept : β → List Value) (held : List Value) :
    List α → Memory → List Substep
  | [], _ => []
  | a :: as, m =>
    ⟨step a, m, held⟩ ::
      behind ((run a).run m) fun b m' => inOrder step run kept (kept b ++ held) as m'

/-- What is started in the **rounds** of a loop. -/
def rounds (host : Host) (n : Nat) (condition : Expr) (body : Stmt) : Nat → Memory → List Substep
  | 0, _ => []
  | k + 1, m =>
    ⟨.expression condition, m, []⟩ ::
      behind ((evaluate host n condition).run m) fun v m₁ =>
        if v.isTruthy then
          ⟨.statement body, m₁, []⟩ ::
            behind ((execute host n body).run m₁) fun _ m₂ => rounds host n condition body k m₂
        else []

/-- Statements in order. Nothing is kept of them. -/
def statements (host : Host) (n : Nat) (held : List Value) : List Stmt → Memory → List Substep :=
  inOrder .statement (execute host n) (fun _ => []) held

/-- The arguments of a call, in order. Each is held while the others are evaluated. -/
def arguments (host : Host) (n : Nat) (held : List Value) : List Expr → Memory → List Substep :=
  inOrder .expression (evaluate host n) (fun v => [v]) held

/-- The body of a function that is **called**. -/
def called (host : Host) (n : Nat) (vs : List Value) (m : Memory) : Value → List Substep
  | .function f identity =>
    if vs.length = f.parameters.length then
      statements host n (.function f identity :: vs) f.body (entered f.parameters vs m)
    else []
  | _ => []

end Substep

namespace Step

open Substep

variable (host : Host) (n : Nat)

/-- What a step starts behind what it evaluates first. -/
def later : Step → Memory → List Substep
  | expression (.binary left _ right), m =>
    behind ((evaluate host n left).run m) fun v m' => [⟨expression right, m', [v]⟩]
  | expression (.logical left op right), m =>
    behind ((evaluate host n left).run m) fun v m' =>
      if v.isTruthy = (op.kind = .keyword .or_ : Bool) then [] else [⟨expression right, m', [v]⟩]
  | expression (.call callee _ arguments), m =>
    behind ((evaluate host n callee).run m) fun f m₁ =>
      Substep.arguments host n [f] arguments m₁ ++
        behind ((arguments.mapM (evaluate host n)).run m₁) fun vs m₂ => called host n vs m₂ f
  | statement (.block body), m =>
    statements host n [] body { m with scopes := m.scopes.enterBlock }
  | statement (.branch condition yes no), m =>
    behind ((evaluate host n condition).run m) fun v m' =>
      if v.isTruthy then [⟨statement yes, m', []⟩]
      else no.toList.map fun s => ⟨statement s, m', []⟩
  | statement (.loop condition body), m => rounds host n condition body host.rounds m
  | _, _ => []

/-- **All that a step starts** with at most `n` nested steps, in order. -/
def substeps (t : Step) (m : Memory) : List Substep :=
  (t.first?.toList.map fun e => ⟨expression e, m, []⟩) ++ t.later host n m

end Step

/-! ### They are what is started -/

namespace Substep

variable {α β : Type}

theorem mem_behind {r : Except Interrupt α × Memory} {next : α → Memory → List Substep}
    {s : Substep} : s ∈ behind r next ↔ ∃ a m, r = (.ok a, m) ∧ s ∈ next a m := by
  rcases r with ⟨e | a, m⟩
  · exact ⟨nofun, fun ⟨_, _, h, _⟩ => nomatch h⟩
  · refine ⟨fun h => ⟨a, m, rfl, h⟩, ?_⟩
    rintro ⟨_, _, ⟨⟩, h⟩
    exact h

/-- What runs in order is started behind **all** in front of it. -/
theorem exists_mem_inOrder_iff {step : α → Step} {run : α → Eval β} {kept : β → List Value}
    {held : List Value} {as : List α} {m m' : Memory} {t : Step} :
    (∃ vs, ⟨t, m', vs⟩ ∈ inOrder step run kept held as m) ↔
      ∃ front a behind bs, as = front ++ a :: behind ∧ t = step a ∧
        (front.mapM run).run m = (.ok bs, m') := by
  induction as generalizing held m with
  | nil =>
    refine ⟨fun ⟨_, h⟩ => absurd h List.not_mem_nil, ?_⟩
    rintro ⟨front, a, rest, bs, h, -⟩
    exact absurd h.symm (List.append_ne_nil_of_right_ne_nil _ (List.cons_ne_nil _ _))
  | cons a as ih =>
    simp only [inOrder, List.mem_cons, mem_behind]
    constructor
    · rintro ⟨vs, h | ⟨b, m₁, ha, h⟩⟩
      · cases h
        exact ⟨[], a, as, [], rfl, rfl, rfl⟩
      · obtain ⟨front, a', rest, bs, rfl, rfl, hfront⟩ := ih.mp ⟨vs, h⟩
        exact ⟨a :: front, a', rest, b :: bs, rfl, rfl,
          run_mapM_cons_eq_ok_iff.mpr ⟨b, m₁, bs, ha, hfront, rfl⟩⟩
    · rintro ⟨_ | ⟨a', front⟩, a'', rest, bs, h, rfl, hfront⟩
      · cases h
        cases hfront
        exact ⟨held, .inl rfl⟩
      · cases h
        obtain ⟨b, m₁, cs, ha, has, rfl⟩ := run_mapM_cons_eq_ok_iff.mp hfront
        obtain ⟨vs, h⟩ := ih.mpr ⟨front, a'', rest, cs, rfl, rfl, has⟩
        exact ⟨vs, .inr ⟨b, m₁, ha, h⟩⟩

/-- Steps one after the other leave the same memory, whether their values are **kept** or not. -/
theorem run_forM_eq_ok_iff {f : α → Eval Unit} {as : List α} {m m' : Memory} :
    (as.forM f).run m = (.ok (), m') ↔ ∃ us, (as.mapM f).run m = (.ok us, m') := by
  induction as generalizing m with
  | nil =>
    refine ⟨fun h => ⟨[], ?_⟩, fun ⟨_, h⟩ => ?_⟩ <;>
    · cases h
      rfl
  | cons a as ih =>
    simp only [run_forM_cons, run_mapM_cons_eq_ok_iff]
    rcases (f a).run m with ⟨e | u, m₁⟩
    · exact ⟨nofun, fun ⟨_, _, _, _, h, _⟩ => nomatch h⟩
    · refine ih.trans ⟨fun ⟨us, h⟩ => ⟨u :: us, u, m₁, us, rfl, h, rfl⟩, ?_⟩
      rintro ⟨_, _, _, us, ⟨⟩, h, -⟩
      exact ⟨us, h⟩

variable {host : Host} {n : Nat} {held : List Value} {t : Step} {m m' : Memory}

theorem exists_mem_statements_iff {ss : List Stmt} :
    (∃ vs, ⟨t, m', vs⟩ ∈ statements host n held ss m) ↔
      ∃ front s behind, ss = front ++ s :: behind ∧ t = .statement s ∧
        (front.forM (execute host n)).run m = (.ok (), m') := by
  refine exists_mem_inOrder_iff.trans ⟨?_, ?_⟩
  · rintro ⟨front, s, rest, us, hss, ht, hfront⟩
    exact ⟨front, s, rest, hss, ht, run_forM_eq_ok_iff.mpr ⟨us, hfront⟩⟩
  · rintro ⟨front, s, rest, hss, ht, hfront⟩
    obtain ⟨us, hfront⟩ := run_forM_eq_ok_iff.mp hfront
    exact ⟨front, s, rest, us, hss, ht, hfront⟩

theorem exists_mem_arguments_iff {es : List Expr} :
    (∃ vs, ⟨t, m', vs⟩ ∈ arguments host n held es m) ↔
      ∃ front e behind vs, es = front ++ e :: behind ∧ t = .expression e ∧
        (front.mapM (evaluate host n)).run m = (.ok vs, m') :=
  exists_mem_inOrder_iff

/-- The value of a condition is the one that its expression has. -/
theorem run_isTruthy_eq_ok_iff {p : Eval Value} {b : Bool} :
    (Value.isTruthy <$> p).run m = (.ok b, m') ↔
      ∃ v, p.run m = (.ok v, m') ∧ v.isTruthy = b := by
  rw [run_map]
  rcases p.run m with ⟨e | v, m₁⟩
  · exact ⟨nofun, fun ⟨_, h, _⟩ => nomatch h⟩
  · constructor
    · rintro ⟨⟩
      exact ⟨v, rfl, rfl⟩
    · rintro ⟨_, ⟨⟩, rfl⟩
      rfl

theorem exists_mem_rounds_iff {condition : Expr} {body : Stmt} {k : Nat} :
    (∃ vs, ⟨t, m', vs⟩ ∈ rounds host n condition body k m) ↔
      ∃ j m₁, j < k ∧
        Rounds (Value.isTruthy <$> evaluate host n condition) (execute host n body) j m m₁ ∧
        ((t = .expression condition ∧ m' = m₁) ∨ (t = .statement body ∧
          (Value.isTruthy <$> evaluate host n condition).run m₁ = (.ok true, m'))) := by
  induction k generalizing m with
  | zero => exact ⟨fun ⟨_, h⟩ => absurd h List.not_mem_nil, fun ⟨_, _, h, _⟩ => nomatch h⟩
  | succ k ih =>
    simp only [rounds, List.mem_cons, mem_behind]
    constructor
    · rintro ⟨vs, h | ⟨v, m₁, hcondition, h⟩⟩
      · cases h
        exact ⟨0, _, k.succ_pos, .start _, .inl ⟨rfl, rfl⟩⟩
      split at h
      · next htruthy =>
        have hholds := run_isTruthy_eq_ok_iff.mpr ⟨v, hcondition, htruthy⟩
        rcases List.mem_cons.mp h with h | h
        · cases h
          exact ⟨0, m, k.succ_pos, .start m, .inr ⟨rfl, hholds⟩⟩
        · obtain ⟨_, m₂, hbody, h⟩ := mem_behind.mp h
          obtain ⟨j, m₃, hj, hrounds, h⟩ := ih.mp ⟨vs, h⟩
          exact ⟨j + 1, m₃, Nat.succ_lt_succ hj, .next hholds hbody hrounds, h⟩
      · exact absurd h List.not_mem_nil
    · rintro ⟨j, m₃, hj, hrounds, h⟩
      cases hrounds with
      | start =>
        rcases h with ⟨rfl, rfl⟩ | ⟨rfl, hholds⟩
        · exact ⟨[], .inl rfl⟩
        · obtain ⟨v, hcondition, htruthy⟩ := run_isTruthy_eq_ok_iff.mp hholds
          refine ⟨[], .inr ⟨v, m', hcondition, ?_⟩⟩
          rw [if_pos htruthy]
          exact List.mem_cons_self
      | next hholds hbody hrounds =>
        obtain ⟨v, hcondition, htruthy⟩ := run_isTruthy_eq_ok_iff.mp hholds
        obtain ⟨vs, h⟩ := ih.mpr ⟨_, _, Nat.lt_of_succ_lt_succ hj, hrounds, h⟩
        refine ⟨vs, .inr ⟨v, _, hcondition, ?_⟩⟩
        rw [if_pos htruthy]
        exact List.mem_cons_of_mem _ (mem_behind.mpr ⟨_, _, hbody, h⟩)

end Substep

namespace Step

open Substep

variable {host : Host} {n : Nat} {t t' : Step} {m m' : Memory}

theorem starts_of_mem_later {vs : List Value} (h : ⟨t', m', vs⟩ ∈ t.later host n m) :
    Starts host n t m t' m' := by
  cases t with
  | expression e =>
    cases e with
    | binary left op right =>
      obtain ⟨v, m₁, hleft, h⟩ := mem_behind.mp h
      cases List.mem_singleton.mp h
      exact .right hleft
    | logical left op right =>
      obtain ⟨v, m₁, hleft, h⟩ := mem_behind.mp h
      split at h
      · exact absurd h List.not_mem_nil
      · next htruthy =>
        cases List.mem_singleton.mp h
        exact .second hleft htruthy
    | call callee paren arguments =>
      obtain ⟨f, m₁, hcallee, h⟩ := mem_behind.mp h
      rcases List.mem_append.mp h with h | h
      · obtain ⟨front, e, rest, vs, rfl, rfl, hfront⟩ := exists_mem_arguments_iff.mp ⟨_, h⟩
        exact .argument hcallee hfront
      · obtain ⟨vs, m₂, harguments, h⟩ := mem_behind.mp h
        cases f with
        | function f identity =>
          rw [Substep.called] at h
          split at h
          · next harity =>
            obtain ⟨front, s, rest, hbody, rfl, hfront⟩ := exists_mem_statements_iff.mp ⟨_, h⟩
            exact .called hcallee harguments harity hbody hfront
          · exact absurd h List.not_mem_nil
        | _ => exact absurd h List.not_mem_nil
    | _ => exact absurd h List.not_mem_nil
  | statement s =>
    cases s with
    | block body =>
      obtain ⟨front, s, rest, rfl, rfl, hfront⟩ := exists_mem_statements_iff.mp ⟨_, h⟩
      exact .inside hfront
    | branch condition yes no =>
      obtain ⟨v, m₁, hcondition, h⟩ := mem_behind.mp h
      split at h
      · next htruthy =>
        cases List.mem_singleton.mp h
        exact .yes hcondition htruthy
      · next htruthy =>
        obtain ⟨s, hs, ⟨⟩⟩ := List.mem_map.mp h
        cases Option.mem_toList.mp hs
        exact .no hcondition htruthy
    | loop condition body =>
      obtain ⟨j, m₁, hj, hrounds, ⟨rfl, rfl⟩ | ⟨rfl, hcondition⟩⟩ :=
        exists_mem_rounds_iff.mp ⟨_, h⟩
      · exact .condition hj hrounds
      · exact .body hj hrounds hcondition
    | _ => exact absurd h List.not_mem_nil

/-- The substeps of a step are **exactly** the steps that it starts. -/
theorem starts_iff_exists_substep :
    Starts host n t m t' m' ↔ ∃ vs, ⟨t', m', vs⟩ ∈ t.substeps host n m := by
  simp only [substeps, List.mem_append, List.mem_map, Option.mem_toList]
  constructor
  · intro h
    cases h with
    | first hfirst => exact ⟨[], .inl ⟨_, hfirst, rfl⟩⟩
    | right hleft => exact ⟨_, .inr (mem_behind.mpr ⟨_, _, hleft, List.mem_singleton.mpr rfl⟩)⟩
    | @second _ _ _ v _ _ hleft htruthy =>
      refine ⟨[v], .inr (mem_behind.mpr ⟨_, _, hleft, ?_⟩)⟩
      rw [if_neg htruthy]
      exact List.mem_singleton.mpr rfl
    | argument hcallee hfront =>
      obtain ⟨vs, h⟩ := exists_mem_arguments_iff.mpr ⟨_, _, _, _, rfl, rfl, hfront⟩
      exact ⟨vs, .inr (mem_behind.mpr ⟨_, _, hcallee, List.mem_append_left _ h⟩)⟩
    | called hcallee harguments harity hbody hfront =>
      obtain ⟨vs, h⟩ := exists_mem_statements_iff.mpr ⟨_, _, _, hbody, rfl, hfront⟩
      refine ⟨vs, .inr (mem_behind.mpr ⟨_, _, hcallee, List.mem_append_right _ ?_⟩)⟩
      refine mem_behind.mpr ⟨_, _, harguments, ?_⟩
      rw [Substep.called, if_pos harity]
      exact h
    | inside hfront =>
      obtain ⟨vs, h⟩ := exists_mem_statements_iff.mpr ⟨_, _, _, rfl, rfl, hfront⟩
      exact ⟨vs, .inr h⟩
    | yes hcondition htruthy =>
      refine ⟨[], .inr (mem_behind.mpr ⟨_, _, hcondition, ?_⟩)⟩
      rw [if_pos htruthy]
      exact List.mem_singleton.mpr rfl
    | no hcondition htruthy =>
      refine ⟨[], .inr (mem_behind.mpr ⟨_, _, hcondition, ?_⟩)⟩
      rw [if_neg htruthy]
      exact List.mem_singleton.mpr rfl
    | condition hk hrounds =>
      obtain ⟨vs, h⟩ := exists_mem_rounds_iff.mpr ⟨_, _, hk, hrounds, .inl ⟨rfl, rfl⟩⟩
      exact ⟨vs, .inr h⟩
    | body hk hrounds hcondition =>
      obtain ⟨vs, h⟩ := exists_mem_rounds_iff.mpr ⟨_, _, hk, hrounds, .inr ⟨rfl, hcondition⟩⟩
      exact ⟨vs, .inr h⟩
  · rintro ⟨vs, ⟨e, hfirst, ⟨⟩⟩ | h⟩
    · exact .first hfirst
    · exact starts_of_mem_later h

end Step

/-! ### Moments of steps -/

/-- A **moment** of a run: one where a step begins, or one where a step or a program ends. -/
structure Moment where
  /-- The step that begins, with the number of steps that may nest there. -/
  begins : Option (Nat × Step)
  memory : Memory
  /-- The values that are **held** by the steps in progress, and the values that a step that ends
  comes to. -/
  held : List Value

/-- The values in a **result**: those of what it is, or the one on its way to a call. -/
def Eval.resultValues {α : Type} (kept : α → List Value) : Except Interrupt α → List Value
  | .ok a => kept a
  | .error (.returning _ v) => [v]
  | .error _ => []

namespace Step

open Eval

/-- The moment where a step **ends**. -/
def ending (host : Host) (n : Nat) (m : Memory) (held : List Value) : Step → Moment
  | expression e =>
    let r := (evaluate host n e).run m
    ⟨none, r.2, resultValues (fun v => [v]) r.1 ++ held⟩
  | statement s =>
    let r := (execute host n s).run m
    ⟨none, r.2, resultValues (fun _ => []) r.1 ++ held⟩

/-- **All moments** of a step, from where it begins to where it ends. -/
def moments (host : Host) : Nat → Step → Memory → List Value → List Moment
  | 0, t, m, held => [⟨some (0, t), m, held⟩, t.ending host 0 m held]
  | n + 1, t, m, held =>
    ⟨some (n + 1, t), m, held⟩ ::
      ((t.substeps host n m).flatMap fun s => moments host n s.step s.memory (s.held ++ held)) ++
        [t.ending host (n + 1) m held]

variable {host : Host} {n : Nat} {t t' : Step} {m m' : Memory}

/-- Where a step begins, none **ends**. -/
theorem ne_ending {b : Nat × Step} {held vs : List Value} :
    (⟨some b, m', vs⟩ : Moment) ≠ t.ending host n m held := by
  intro h
  have hbegins := congrArg Moment.begins h
  cases t <;> cases hbegins

theorem mem_moments_zero {held vs : List Value} {b : Nat × Step} :
    ⟨some b, m', vs⟩ ∈ t.moments host 0 m held ↔ b = (0, t) ∧ m' = m ∧ vs = held := by
  simp only [moments, List.mem_cons, List.not_mem_nil, ne_ending, or_false, Moment.mk.injEq,
    Option.some.injEq]

theorem mem_moments_succ {held vs : List Value} {b : Nat × Step} :
    ⟨some b, m', vs⟩ ∈ t.moments host (n + 1) m held ↔
      (b = (n + 1, t) ∧ m' = m ∧ vs = held) ∨ ∃ s ∈ t.substeps host n m,
        ⟨some b, m', vs⟩ ∈ s.step.moments host n s.memory (s.held ++ held) := by
  simp only [moments, List.mem_append, List.mem_cons, List.mem_flatMap, List.not_mem_nil, ne_ending,
    or_false, Moment.mk.injEq, Option.some.injEq]

/-- A run **takes** the steps that begin at its moments, and no others. -/
theorem takes_iff_exists_moment {k : Nat} (held : List Value) :
    Takes host n t m k t' m' ↔ ∃ vs, ⟨some (k, t'), m', vs⟩ ∈ t.moments host n m held := by
  induction n generalizing t m held with
  | zero =>
    simp only [mem_moments_zero]
    constructor
    · rintro ⟨⟩
      exact ⟨held, rfl, rfl, rfl⟩
    · rintro ⟨vs, h, rfl, rfl⟩
      cases h
      exact .self _ _ _
  | succ n ih =>
    simp only [mem_moments_succ]
    constructor
    · intro h
      cases h with
      | self => exact ⟨held, .inl ⟨rfl, rfl, rfl⟩⟩
      | inside hstarts htakes =>
        obtain ⟨ws, hsubstep⟩ := starts_iff_exists_substep.mp hstarts
        obtain ⟨vs, h⟩ := (ih (ws ++ held)).mp htakes
        exact ⟨vs, .inr ⟨_, hsubstep, h⟩⟩
    · rintro ⟨vs, ⟨h, rfl, rfl⟩ | ⟨⟨t₁, m₁, ws⟩, hsubstep, h⟩⟩
      · cases h
        exact .self _ _ _
      · exact .inside (starts_iff_exists_substep.mpr ⟨ws, hsubstep⟩) ((ih _).mpr ⟨vs, h⟩)

end Step

/-- All moments of a substep, where the step that starts it is started with values **held**. -/
def Substep.moments (host : Host) (n : Nat) (held : List Value) (s : Substep) : List Moment :=
  s.step.moments host n s.memory (s.held ++ held)

/-! ### Moments of programs -/

/-- A **program** that is run: its statements, in surroundings, with a bound on nesting. -/
structure Job where
  host : Host
  bound : Nat
  statements : List Stmt

namespace Job

open Substep

/-- What a program comes to, and the memory it leaves. -/
def result (j : Job) (m : Memory) : Except Interrupt Unit × Memory :=
  (executeAll j.host j.bound j.statements).run m

/-- All moments of a program, the last of them where it **ends**. -/
def moments (j : Job) (m : Memory) : List Moment :=
  (Substep.statements j.host j.bound [] j.statements m).flatMap
      (Substep.moments j.host j.bound []) ++
    [⟨none, (j.result m).2, resultValues (fun _ => []) (j.result m).1⟩]

/-- The memory that the next program starts from. What was printed is taken from it. -/
def next (m : Memory) (j : Job) : Memory := { (j.result m).2 with printed := #[] }

/-- It is the one that a **session** goes on with. -/
theorem next_eq_memory_interpret (machine : Machine) (statements : List Stmt) (s : Session) :
    next s.memory ⟨machine.toHost, machine.nesting, statements⟩ =
      (s.interpret machine statements).2.memory :=
  (s.memory_interpret machine statements).symm

/-- All moments of programs that are run **one after the other**, however each of them ends. -/
def history : List Job → Memory → List Moment
  | [], _ => []
  | j :: js, m => j.moments m ++ history js (next m j)

theorem exists_mem_moments_iff {j : Job} {n : Nat} {t : Step} {m m' : Memory} :
    (∃ vs, ⟨some (n, t), m', vs⟩ ∈ j.moments m) ↔
      ∃ front s behind m₁, j.statements = front ++ s :: behind ∧
        (front.forM (execute j.host j.bound)).run m = (.ok (), m₁) ∧
        Step.Takes j.host j.bound (.statement s) m₁ n t m' := by
  simp only [moments, List.mem_append, List.mem_flatMap, List.mem_singleton, Moment.mk.injEq,
    reduceCtorEq, false_and, or_false]
  constructor
  · rintro ⟨vs, ⟨t₁, m₁, ws⟩, hs, h⟩
    obtain ⟨front, s, rest, hstatements, rfl, hfront⟩ := exists_mem_statements_iff.mp ⟨ws, hs⟩
    exact ⟨front, s, rest, m₁, hstatements, hfront, (Step.takes_iff_exists_moment _).mpr ⟨vs, h⟩⟩
  · rintro ⟨front, s, rest, m₁, hstatements, hfront, htakes⟩
    obtain ⟨ws, hs⟩ := exists_mem_statements_iff.mpr ⟨front, s, rest, hstatements, rfl, hfront⟩
    obtain ⟨vs, h⟩ := (Step.takes_iff_exists_moment (ws ++ [])).mp htakes
    exact ⟨vs, _, hs, h⟩

/-- Programs that are run one after the other **take** a step: one of their statements does, behind
those in front of it. -/
def Takes (jobs : List Job) (m : Memory) (n : Nat) (t : Step) (m' : Memory) : Prop :=
  ∃ before j after front s behind m₁, jobs = before ++ j :: after ∧
    j.statements = front ++ s :: behind ∧
    (front.forM (execute j.host j.bound)).run (before.foldl next m) = (.ok (), m₁) ∧
    Step.Takes j.host j.bound (.statement s) m₁ n t m'

/-- Programs **take** the steps that begin at the moments of their history, and no others. -/
theorem takes_iff_exists_history {jobs : List Job} {n : Nat} {t : Step} {m m' : Memory} :
    Takes jobs m n t m' ↔ ∃ vs, ⟨some (n, t), m', vs⟩ ∈ history jobs m := by
  unfold Takes
  induction jobs generalizing m with
  | nil =>
    refine ⟨?_, fun ⟨_, h⟩ => absurd h List.not_mem_nil⟩
    rintro ⟨before, j, after, front, s, behind, m₁, h, -⟩
    exact absurd h.symm (List.append_ne_nil_of_right_ne_nil _ (List.cons_ne_nil _ _))
  | cons j jobs ih =>
    simp only [history, List.mem_append, exists_or, exists_mem_moments_iff, ← ih]
    constructor
    · rintro ⟨_ | ⟨j', before⟩, j'', after, front, s, rest, m₁, h, hrun⟩
      · cases h
        exact .inl ⟨front, s, rest, m₁, hrun⟩
      · cases h
        exact .inr ⟨before, j'', after, front, s, rest, m₁, rfl, hrun⟩
    · rintro (⟨front, s, rest, m₁, hrun⟩ | ⟨before, j', after, front, s, rest, m₁, rfl, hrun⟩)
      · exact ⟨[], j, jobs, front, s, rest, m₁, rfl, hrun⟩
      · exact ⟨j :: before, j', after, front, s, rest, m₁, rfl, hrun⟩

end Job

end LoxLang
