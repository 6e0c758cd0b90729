import Mathlib.Data.List.Permutation
import LoxLang.Proofs.Evaluation.Recursion
import LoxLang.Session

/-!
# Units of an interactive session

A unit of an interactive session starts from a fresh memory, and the console starts over behind it.
That last step is not taken behind a unit that is **cut off**, because it overflowed, say. The
console that watches over the unit then forgets its records, but keeps the flag for static errors
and sets the one for runtime errors. So the next unit is wrongly given the exit status of a runtime
error, unless it is cut off itself. Other than that, no unit depends on the units in front of it
(`interactive_units_independent_unless_cut_off`).
-/

namespace LoxLang

open Eval

namespace Session

/-! ### How a unit ends -/

/-- How the statements of a unit end that starts from a fresh memory. -/
def execution (machine : Machine) (source : String) : Except Interrupt Unit :=
  ((executeAll machine.toHost machine.nesting (Parse.ofSource source).statements).run .fresh).1

/-- Whether a unit is **cut off**: the run as a whole cannot go on. -/
def cutOff (machine : Machine) (source : String) : Bool :=
  match execution machine source with
  | .error (.abort _) => true
  | _ => false

/-- Whether statements ended with a runtime error. -/
def failed : Except Interrupt Unit → Bool
  | .error (.failure _) => true
  | _ => false

/-- The session shows its diagnostics at once, as an interactive one does. -/
structure Immediate (s : Session) : Prop where
  interactive : s.interactive = true
  immediate : s.console.immediate = true

theorem immediate_new (console : Console) (path : String) : (new console path true).Immediate :=
  ⟨rfl, rfl⟩

/-! ### One unit -/

section

variable (machine : Machine)

theorem hadError_interpret (statements : List Stmt) (s : Session) :
    (s.interpret machine statements).2.console.hadError = s.console.hadError := by
  rw [interpret]
  rcases (executeAll machine.toHost machine.nesting statements).run s.memory with
    ⟨(_ | _ | _) | _, m⟩
  · exact Console.hadError_record _ _
  · exact Console.hadError_record _ _
  · rfl
  · rfl

/-- Statements set the flag for runtime errors if they end with one. -/
theorem hadRuntimeError_interpret (statements : List Stmt) (s : Session) :
    (s.interpret machine statements).2.console.hadRuntimeError = (s.console.hadRuntimeError ||
      failed ((executeAll machine.toHost machine.nesting statements).run s.memory).1) := by
  rw [interpret]
  rcases (executeAll machine.toHost machine.nesting statements).run s.memory with
    ⟨(_ | _ | _) | _, m⟩
  · exact (Console.hadRuntimeError_record _ _).trans (Bool.or_true _).symm
  · exact (Console.hadRuntimeError_record _ _).trans (Bool.or_false _).symm
  · exact (Bool.or_false _).symm
  · exact (Bool.or_false _).symm

theorem Immediate.interpret {s : Session} (h : s.Immediate) (statements : List Stmt) :
    (s.interpret machine statements).2.Immediate := by
  rw [Session.interpret]
  rcases (executeAll machine.toHost machine.nesting statements).run s.memory with
    ⟨(_ | _ | _) | _, m⟩
  · exact ⟨h.interactive, (Console.immediate_record _ _).trans h.immediate⟩
  · exact ⟨h.interactive, (Console.immediate_record _ _).trans h.immediate⟩
  · exact ⟨h.interactive, h.immediate⟩
  · exact ⟨h.interactive, h.immediate⟩

/-- Statements go on to their end, unless they are aborted. -/
theorem fst_interpret (statements : List Stmt) (s : Session) :
    (s.interpret machine statements).1 =
      match ((executeAll machine.toHost machine.nesting statements).run s.memory).1 with
      | .error (.abort reason) => .error reason
      | .error _ => .ok false
      | .ok () => .ok true := by
  rw [interpret]
  rcases (executeAll machine.toHost machine.nesting statements).run s.memory with
    ⟨(_ | _ | _) | _, m⟩ <;> rfl

/-- A unit of an **interactive** session runs its statements on a fresh memory. -/
theorem run_of_interactive {s : Session} (h : s.interactive = true) (source : String) :
    s.run machine source =
      match ({ s with memory := .fresh }.parse source).2.interpret machine
        (Parse.ofSource source).statements with
      | (.ok _, t) =>
        (.ok t.console.exitStatus, if t.interactive then t.onConsole Console.reset else t)
      | (.error reason, t) => (.error reason, t) := by
  rw [run, if_pos h]
  rfl

/-- A unit runs its statements on a session with the flags it found and those that its static errors
and its ending set. Behind them the console starts over, unless the unit was cut off. -/
theorem exists_run {s : Session} (h : s.Immediate) (source : String) :
    ∃ t : Session, t.Immediate ∧
      t.console.hadError =
        (s.console.hadError || !(Parse.ofSource source).diagnostics.isEmpty) ∧
      t.console.hadRuntimeError =
        (s.console.hadRuntimeError || failed (execution machine source)) ∧
      s.run machine source = match execution machine source with
        | .error (.abort reason) => (.error reason, t)
        | _ => (.ok t.console.exitStatus, t.onConsole Console.reset) := by
  let started : Session := ({ s with memory := .fresh }.parse source).2
  have hstarted : started.Immediate :=
    ⟨h.interactive, (Console.immediate_reportAll _ _).trans h.immediate⟩
  let t := (started.interpret machine (Parse.ofSource source).statements).2
  refine ⟨t, hstarted.interpret machine _, ?_, ?_, ?_⟩
  · exact (hadError_interpret machine _ started).trans (Console.hadError_reportAll _ _)
  · refine (hadRuntimeError_interpret machine _ started).trans ?_
    rw [show started.console.hadRuntimeError = s.console.hadRuntimeError from
      Console.hadRuntimeError_reportAll _ _]
    rfl
  · have hanswer : (started.interpret machine (Parse.ofSource source).statements).1 =
        match execution machine source with
        | .error (.abort reason) => .error reason
        | .error _ => .ok false
        | .ok () => .ok true := fst_interpret machine _ started
    have hpair : started.interpret machine (Parse.ofSource source).statements = (_, t) :=
      Prod.ext hanswer rfl
    rw [run_of_interactive machine h.interactive, hpair]
    have hreset : (if t.interactive then t.onConsole Console.reset else t) =
        t.onConsole Console.reset := if_pos (hstarted.interpret machine _).interactive
    rcases execution machine source with (_ | _ | _) | _
    · exact congrArg (Prod.mk _) hreset
    · exact congrArg (Prod.mk _) hreset
    · rfl
    · exact congrArg (Prod.mk _) hreset

/-- The answer of a unit depends on its statements and, for the exit status, on the flags. -/
theorem fst_runWatched {s : Session} (h : s.Immediate) (source : String) :
    (s.runWatched machine source).1 = match execution machine source with
      | .error (.abort reason) => .error reason
      | result => .ok (if s.console.hadRuntimeError || failed result then 70
          else if s.console.hadError || !(Parse.ofSource source).diagnostics.isEmpty then 65
          else 0) := by
  obtain ⟨t, -, hstatic, hruntime, hrun⟩ := exists_run machine h source
  have hstatus : t.console.exitStatus =
      if s.console.hadRuntimeError || failed (execution machine source) then 70
      else if s.console.hadError || !(Parse.ofSource source).diagnostics.isEmpty then 65
      else 0 := by
    rw [Console.exitStatus, hruntime, hstatic]
  rw [runWatched, hrun]
  rcases hexecution : execution machine source with (_ | _ | _) | _
  · exact congrArg Except.ok (hexecution ▸ hstatus)
  · exact congrArg Except.ok (hexecution ▸ hstatus)
  · rfl
  · exact congrArg Except.ok (hexecution ▸ hstatus)

/-- **Behind a unit**, the console has no records. It has no flags either, unless the unit was cut
off: then there is the flag for runtime errors, and the one for static errors is kept. -/
theorem snd_runWatched {s : Session} (h : s.Immediate) (source : String) :
    (s.runWatched machine source).2.Immediate ∧
      (s.runWatched machine source).2.console.records = #[] ∧
      (s.runWatched machine source).2.console.hadRuntimeError = cutOff machine source ∧
      (s.runWatched machine source).2.console.hadError = (cutOff machine source &&
        (s.console.hadError || !(Parse.ofSource source).diagnostics.isEmpty)) := by
  obtain ⟨t, ht, hstatic, -, hrun⟩ := exists_run machine h source
  have hstop : ∀ message internal, (t.console.flush.stop message internal none).1.immediate = true ∧
      (t.console.flush.stop message internal none).1.records = #[] ∧
      (t.console.flush.stop message internal none).1.hadRuntimeError = true ∧
      (t.console.flush.stop message internal none).1.hadError = t.console.hadError := by
    intro message internal
    rw [Console.flush_of_immediate _ ht.immediate]
    exact ⟨ht.immediate, rfl, rfl, rfl⟩
  rw [← hstatic, runWatched, hrun, cutOff]
  rcases execution machine source with (_ | _ | reason) | _
  · exact ⟨⟨ht.interactive, ht.immediate⟩, rfl, rfl, rfl⟩
  · exact ⟨⟨ht.interactive, ht.immediate⟩, rfl, rfl, rfl⟩
  · cases reason with
    | overflow =>
      obtain ⟨himmediate, hrest⟩ := hstop "maximum recursion depth exceeded" false
      exact ⟨⟨ht.interactive, himmediate⟩, hrest⟩
    | _ =>
      obtain ⟨himmediate, hrest⟩ := hstop _ true
      exact ⟨⟨ht.interactive, himmediate⟩, hrest⟩
  · exact ⟨⟨ht.interactive, ht.immediate⟩, rfl, rfl, rfl⟩

end

/-! ### Many units -/

theorem after_append_singleton (units : List (Machine × String)) (machine : Machine)
    (source : String) (s : Session) :
    s.after (units ++ [(machine, source)]) = ((s.after units).runWatched machine source).2 := by
  rw [after, after, List.foldl_append]
  rfl

/-- Whether the last of the units, if there is one, was cut off. -/
def lastCutOff (units : List (Machine × String)) : Bool :=
  units.getLast?.any fun (machine, source) => cutOff machine source

theorem lastCutOff_append_singleton (units : List (Machine × String)) (machine : Machine)
    (source : String) : lastCutOff (units ++ [(machine, source)]) = cutOff machine source := by
  rw [lastCutOff, List.getLast?_append]
  rfl

/-- **Behind all units**, there are flags only if the last unit was cut off. -/
theorem console_after {fresh : Session} (h : fresh.Immediate)
    (hstatic : fresh.console.hadError = false) (hruntime : fresh.console.hadRuntimeError = false)
    (units : List (Machine × String)) :
    (fresh.after units).Immediate ∧
      (fresh.after units).console.hadRuntimeError = lastCutOff units ∧
      (lastCutOff units = false → (fresh.after units).console.hadError = false) := by
  induction units using List.reverseRecOn with
  | nil => exact ⟨h, hruntime, fun _ => hstatic⟩
  | append_singleton units unit ih =>
    obtain ⟨machine, source⟩ := unit
    obtain ⟨himmediate, -, hruntime, hstatic⟩ := snd_runWatched machine ih.1 source
    rw [after_append_singleton, lastCutOff_append_singleton]
    refine ⟨himmediate, hruntime, fun hnot => ?_⟩
    rw [hstatic, hnot, Bool.false_and]

end Session

/-- **The units of an interactive session are independent, unless one is cut off.** Whatever units
were run before, a unit is cut off exactly if it is cut off alone, and its exit status is the one it
has alone, except that it is 70 if the unit just before was cut off. Behind it there are no records,
and the flag for runtime errors is set exactly if the unit itself was cut off; the flag for static
errors is not, unless it was, and then tells of the static errors of this unit and of those that
were cut off just before. -/
theorem interactive_units_independent_unless_cut_off (immediate fatal styled : Bool) (path : String)
    (units : List (Machine × String)) (machine : Machine) (source : String) :
    let fresh := Session.new (Console.new immediate fatal styled) path true
    let unit := (fresh.after units).runWatched machine source
    unit.1 = (fresh.runWatched machine source).1.map
        (fun status => if Session.lastCutOff units then 70 else status) ∧
      unit.2.console.records = #[] ∧
      unit.2.console.hadRuntimeError = Session.cutOff machine source ∧
      unit.2.console.hadError = (Session.cutOff machine source &&
        ((fresh.after units).console.hadError ||
          !(Parse.ofSource source).diagnostics.isEmpty)) := by
  intro fresh unit
  have hfresh : fresh.Immediate := Session.immediate_new _ _
  obtain ⟨hafter, hruntime, hstatic⟩ := Session.console_after hfresh rfl rfl units
  obtain ⟨-, hrecords, hflags⟩ := Session.snd_runWatched machine hafter source
  refine ⟨?_, hrecords, hflags⟩
  rw [Session.fst_runWatched machine hafter, Session.fst_runWatched machine hfresh, hruntime]
  have hclear : fresh.console.hadRuntimeError = false ∧ fresh.console.hadError = false := ⟨rfl, rfl⟩
  rcases hlast : Session.lastCutOff units
  · -- There were no flags, as on a fresh session.
    rw [hstatic hlast, hclear.1, hclear.2]
    rcases Session.execution machine source with (_ | _ | _) | _ <;> rfl
  · rcases Session.execution machine source with (_ | _ | _) | _ <;> rfl

/-! ### A unit that is cut off -/

/-- A function that calls itself, and a call of it. -/
private def endless : String := "fun f() \x7b f(); \x7d f();"

/-- The name in it. -/
private def endlessName : Token := ⟨.identifier, "f", .nil, 1⟩

private def endlessCall : Stmt := callOf endlessName ⟨.rightParen, ")", .nil, 1⟩

private theorem ofSource_endless :
    Parse.ofSource endless = ⟨[.function endlessName [] [endlessCall], endlessCall], []⟩ := by
  rw [Parse.ofSource]
  generalize hscan : scan endless = scanned
  conv at hscan => lhs; cbv
  rw [← hscan]
  rfl

/-- It is cut off, **however deeply** it may nest. -/
private theorem execution_endless (machine : Machine) :
    Session.execution machine endless = .error (.abort .overflow) := by
  let f : Value := .function ⟨endlessName, [], [endlessCall]⟩ 0
  let m : Memory := { Memory.fresh with
    scopes := Memory.fresh.scopes.define "f" f
    created := 1 }
  obtain ⟨host, nesting⟩ := machine
  rw [Session.execution, ofSource_endless]
  cases nesting with
  | zero => rfl
  | succ n =>
    have hdeclared : (execute host (n + 1) (.function endlessName [] [endlessCall])).run .fresh =
        (.ok (), m) := rfl
    have hcalled : ((execute host (n + 1) endlessCall).run m).1 = .error (.abort .overflow) :=
      execute_of_endless host rfl rfl (n + 1) m rfl rfl
    change ((execute host (n + 1) (.function endlessName [] [endlessCall]) >>= fun _ =>
      [endlessCall].forM (execute host (n + 1))).run .fresh).1 = _
    rw [run_bind, hdeclared]
    exact fst_run_bind_of_error hcalled

/-- Units are not independent of a unit that was cut off: the empty unit behind it has the status of
a runtime error, and alone it has none. -/
theorem not_interactive_units_independent :
    ¬ ∀ (units : List (Machine × String)) (machine : Machine) (source : String) (status : Nat),
      let fresh := Session.new (Console.new true false false) Session.noFile true
      (fresh.runWatched machine source).1 = .ok status →
        ((fresh.after units).runWatched machine source).1 = .ok status := by
  intro h
  let machine : Machine := { clock := fun _ => 0, rounds := 0 }
  let fresh := Session.new (Console.new true false false) Session.noFile true
  have hfresh : fresh.Immediate := Session.immediate_new _ _
  have hempty : Parse.ofSource "" = ⟨[], []⟩ := by
    have hscan : scan "" = ⟨[⟨.eof, "", .nil, 1⟩], []⟩ := by cbv
    rw [Parse.ofSource, hscan]
    rfl
  have hexecution : Session.execution machine "" = .ok () := by
    rw [Session.execution, hempty]
    rfl
  have halone : (fresh.runWatched machine "").1 = .ok 0 := by
    rw [Session.fst_runWatched machine hfresh, hexecution, hempty]
    rfl
  have hcutOff : Session.lastCutOff [(machine, endless)] = true := by
    refine (Session.lastCutOff_append_singleton [] machine endless).trans ?_
    rw [Session.cutOff, execution_endless]
  obtain ⟨hafter, hruntime, -⟩ := Session.console_after hfresh rfl rfl [(machine, endless)]
  have hbehind : ((fresh.after [(machine, endless)]).runWatched machine "").1 = .ok 70 := by
    rw [Session.fst_runWatched machine hafter, hexecution, hruntime, hcutOff]
    rfl
  have hsame := h [(machine, endless)] machine "" 0 halone
  cases hbehind.symm.trans hsame

end LoxLang
