import LoxLang.Proofs.Sessions.Independence
import LoxLang.Proofs.Syntax.Following

/-!
# Records and the transcript

What an operation of a console does to it as a whole: to the records, to the flags and to the
transcript. A session that runs a unit does the same three things on every console: it records the
static errors, adds the lines that the program prints, and records why the program was **stopped**,
if it was (`Session.run_eq`). An immediate console shows each record where it arises, and the others
keep them for a flush.
-/

namespace LoxLang

/-- The lines that diagnostics are shown as. -/
def shownLines (styled : Bool) (ds : List Diagnostic) : List Entry :=
  ds.map fun d => .shown (d.text styled ++ "\n")

namespace Console

variable (c : Console)

/-- What a console shows of diagnostics when it records them: an immediate one all of them. -/
def shownAtOnce (ds : List Diagnostic) : List Entry :=
  if c.immediate then shownLines c.styled ds else []

/-! ### Recording -/

theorem record_eq (d : Diagnostic) :
    c.record d =
      { c with
        records := c.records.push d
        transcript := c.transcript ++ (c.shownAtOnce [d]).toArray } := by
  rw [record, shownAtOnce]
  split
  · simp [display, writeLine, write, add, shownLines]
  · simp

/-- Reporting **static errors** keeps them in order, and sets the flag if there are any. -/
theorem reportAll_eq {ds : List Diagnostic} (hds : ∀ d ∈ ds, d.severity = .static) :
    c.reportAll ds =
      { c with
        records := c.records ++ ds.toArray
        hadError := c.hadError || !ds.isEmpty
        transcript := c.transcript ++ (c.shownAtOnce ds).toArray } := by
  induction ds generalizing c with
  | nil => simp [reportAll, shownAtOnce, shownLines]
  | cons d ds ih =>
    obtain ⟨hd, hds⟩ := List.forall_mem_cons.mp hds
    have hstatic : (⟨d.line, d.place, d.message, .static⟩ : Diagnostic) = d := by rw [← hd]
    rw [reportAll_cons, ih _ hds, report, hstatic, record_eq]
    unfold shownAtOnce
    split <;> simp [shownLines]

theorem runtimeError_eq (t : Token) (message : String) :
    c.runtimeError (some t) message =
      { c with
        records := c.records.push (.atToken .runtime t message)
        hadRuntimeError := true
        transcript := c.transcript ++ (c.shownAtOnce [.atToken .runtime t message]).toArray } :=
  record_eq _ _

/-! ### Flushing -/

/-- What a flush shows: on an immediate console nothing, and else the records, below a headline if
more than one is an error. -/
def flushed : List Entry :=
  let errors := c.records.countP fun d => d.severity != .warning
  if c.immediate then []
  else
    (if 1 < errors then [.shown (headline c.styled errors ++ "\n")] else []) ++
      shownLines c.styled c.records.toList

private theorem foldl_display (ds : List Diagnostic) :
    ds.foldl (fun c d => c.display d) c =
      { c with transcript := c.transcript ++ (shownLines c.styled ds).toArray } := by
  induction ds generalizing c with
  | nil => simp [shownLines]
  | cons d ds ih =>
    rw [List.foldl_cons, ih]
    simp [display, writeLine, write, add, shownLines]

theorem flush_eq :
    c.flush =
      { c with records := #[], transcript := c.transcript ++ c.flushed.toArray } := by
  rw [flush, flushed]
  split
  · simp
  · dsimp only
    rw [← Array.foldl_toList, foldl_display]
    split
    · simp [writeLine, write, add]
    · simp

/-! ### Stopping -/

/-- The line that says why a console stops. -/
def stopLine (styled internal : Bool) (message : String) : Entry :=
  .shown ((if internal then emphasised styled (some .red) "[internal] " else "") ++
    emphasised styled (some .red) "error: " ++ message ++ "\n")

/-- The line that says why a run could not go on. -/
def lastWords (styled : Bool) : Abort → Entry
  | .overflow => stopLine styled false "maximum recursion depth exceeded"
  | .unfinished => stopLine styled true "unknown error: 'a loop did not end'"
  | .unknownOperator op =>
    stopLine styled true ("unknown error: '" ++ ("no operator " ++ op.lexeme) ++ "'")

/-- Behind a run that could not go on, a console shows what it has not shown yet and then **why**,
and leaves if it is fatal. -/
theorem conclude_endingOf_error {α : Type} (reason : Abort) :
    c.conclude (Session.endingOf (.error reason : Except Abort α)) =
      ({ c with
          records := #[]
          hadRuntimeError := true
          transcript := c.transcript ++ (c.flushed ++ [lastWords c.styled reason]).toArray },
        if c.fatal then some ⟨some 70⟩ else none) := by
  cases reason <;>
    simp [Session.endingOf, conclude, stop, flush_eq, writeLine, write, add, lastWords, stopLine,
      exitStatus, String.append_assoc]

end Console

/-! ### Units -/

namespace Session

/-- The diagnostics of a text that is not run yet are **static errors**. -/
theorem severity_of_mem_diagnostics {source : String} {d : Diagnostic}
    (h : d ∈ (Parse.ofSource source).diagnostics) : d.severity = .static := by
  rcases List.mem_append.mp h with h | h
  · obtain ⟨fault, -, rfl⟩ := List.mem_map.mp h
    rfl
  · have hfaults : d ∈ (Parse.ofTokens (scan source).tokens).diagnostics := h
    rw [Parse.diagnostics_ofTokens] at hfaults
    obtain ⟨fault, -, rfl⟩ := List.mem_map.mp hfaults
    rfl

theorem reportAll_diagnostics (c : Console) (source : String) :
    let static := (Parse.ofSource source).diagnostics
    c.reportAll static =
      { c with
        records := c.records ++ static.toArray
        hadError := c.hadError || !static.isEmpty
        transcript := c.transcript ++ (c.shownAtOnce static).toArray } :=
  c.reportAll_eq fun _ => severity_of_mem_diagnostics

/-- What is recorded of statements that were **stopped**, by a runtime error or a `return`. -/
def stopped? : Except Interrupt Unit → Option Diagnostic
  | .error (.failure e) => some (.atToken .runtime e.token e.message)
  | .error (.returning keyword _) => some (.atToken .warning keyword returnOutside)
  | _ => none

end Session

/-- The console behind statements that have printed something and ended in some way. -/
def Console.ran (result : Except Interrupt Unit) (printed : Array String) (c : Console) : Console :=
  { c with
    records := c.records ++ (Session.stopped? result).toArray
    hadRuntimeError := c.hadRuntimeError || Session.failed result
    transcript :=
      c.transcript ++ printed.map Entry.printed ++
        (c.shownAtOnce (Session.stopped? result).toList).toArray }

/-- What statements have printed is added to the transcript, and then it is recorded why they were
**stopped**, if they were. -/
theorem Console.ran_eq (result : Except Interrupt Unit) (printed : Array String) (c : Console) :
    c.ran result printed =
      match result with
      | .error (.failure e) => (c.printAll printed).runtimeError (some e.token) e.message
      | .error (.returning keyword _) => (c.printAll printed).warn keyword Session.returnOutside
      | _ => c.printAll printed := by
  rcases result with (e | _ | _) | _
  · simp [ran, runtimeError_eq, printAll, Session.stopped?, Session.failed, shownAtOnce]
  · simp [ran, warn, record_eq, printAll, Session.stopped?, Session.failed, shownAtOnce]
  · simp [ran, printAll, Session.stopped?, Session.failed, shownAtOnce, shownLines]
  · simp [ran, printAll, Session.stopped?, Session.failed, shownAtOnce, shownLines]

namespace Session

variable (machine : Machine) (s : Session)

/-- **Statements** that are stopped leave a record of it, and all of them what they print. -/
theorem interpret_eq (statements : List Stmt) :
    let run := (executeAll machine.toHost machine.nesting statements).run s.memory
    s.interpret machine statements =
      (match run.1 with
        | .ok () => .ok true
        | .error (.abort reason) => .error reason
        | .error _ => .ok false,
      { s with
        memory := { run.2 with printed := #[] }
        console := s.console.ran run.1 run.2.printed }) := by
  dsimp only
  rw [interpret, Console.ran_eq]
  rcases (executeAll machine.toHost machine.nesting statements).run s.memory with
    ⟨(_ | _ | _) | _, m⟩ <;> rfl

/-- How the statements of a unit end where nothing was run before, and the memory they leave. -/
def freshRun (source : String) : Except Interrupt Unit × Memory :=
  (executeAll machine.toHost machine.nesting (Parse.ofSource source).statements).run .fresh

/-- How the statements of a unit end, and the memory they leave. -/
def unitRun (source : String) : Except Interrupt Unit × Memory :=
  (executeAll machine.toHost machine.nesting (Parse.ofSource source).statements).run
    (if s.interactive then .fresh else s.memory)

/-- The session behind the statements of a unit, with all that they record and print. -/
def unitEnd (source : String) : Session :=
  let run := s.unitRun machine source
  { s with
    memory := { run.2 with printed := #[] }
    console := (s.console.reportAll (Parse.ofSource source).diagnostics).ran run.1 run.2.printed }

/-- **A unit** ends with its exit status, unless its statements were aborted. An interactive session
starts over with the console. -/
theorem run_eq (source : String) :
    s.run machine source =
      match (s.unitRun machine source).1 with
      | .error (.abort reason) => (.error reason, s.unitEnd machine source)
      | _ => (.ok (s.unitEnd machine source).console.exitStatus,
          if s.interactive then (s.unitEnd machine source).onConsole Console.reset
          else s.unitEnd machine source) := by
  have hstarted : (if s.interactive then { s with memory := .fresh } else s : Session) =
      { s with memory := if s.interactive then .fresh else s.memory } := by split <;> rfl
  rw [run, hstarted]
  simp only [parse, onConsole, interpret_eq]
  unfold unitEnd unitRun
  rcases (executeAll machine.toHost machine.nesting (Parse.ofSource source).statements).run
    (if s.interactive then .fresh else s.memory) with ⟨(_ | _ | _) | _, m⟩
  all_goals rfl

end Session

end LoxLang
