import LoxLang.Diagnostic

/-!
# Consoles

A console collects the diagnostics of a program and shows them to its user. An **immediate** console
shows each as it is recorded; the others keep them until they are flushed. A console remembers
whether it has seen errors, which decides the exit status, and a **fatal** one leaves the program
after an error that stops it.

All that a user sees is in the transcript, in order: what the program prints and what the console
shows.
-/

namespace LoxLang

/-- What a user sees. -/
inductive Entry
  /-- A line that the program printed. -/
  | printed (line : String)
  /-- Text from the console, with its line ends. -/
  | shown (text : String)
  deriving DecidableEq

/-- The text of an entry. -/
def Entry.text : Entry → String
  | printed line => line ++ "\n"
  | shown text => text

/-- Leaving the program, with a status if one was given. -/
structure Exit where
  status : Option Int
  deriving DecidableEq

/-- How the work that a console watches over can end. -/
inductive Ending
  | completed
  /-- The work asked to leave the program. -/
  | exit (request : Exit)
  /-- The user interrupted it. -/
  | interrupted
  /-- It was nested too deeply. -/
  | overflow
  /-- A runtime error, with its token if it has one. -/
  | failure (token : Option Token) (message : String)
  /-- Something else went wrong. -/
  | internal (description : String)

/-- A **console**. -/
structure Console where
  immediate : Bool
  fatal : Bool
  styled : Bool
  /-- The diagnostics that were neither flushed nor reset, in order. -/
  records : Array Diagnostic
  hadError : Bool
  hadRuntimeError : Bool
  transcript : Array Entry

namespace Console

/-- A console that has seen nothing. -/
def new (immediate fatal styled : Bool) : Console :=
  ⟨immediate, fatal, styled, #[], false, false, #[]⟩

/-- The exit status of a program: 70 after a runtime error, else 65 after a static error. -/
def exitStatus (c : Console) : Nat := if c.hadRuntimeError then 70 else if c.hadError then 65 else 0

/-! ### Showing -/

/-- Adds to the transcript. -/
def add (e : Entry) (c : Console) : Console := { c with transcript := c.transcript.push e }

/-- Shows text as it is. -/
def write (text : String) (c : Console) : Console := c.add (.shown text)

/-- Shows a line. -/
def writeLine (line : String) (c : Console) : Console := c.write (line ++ "\n")

/-- Adds the lines that a program printed. -/
def printAll (lines : Array String) (c : Console) : Console :=
  { c with transcript := c.transcript ++ lines.map Entry.printed }

/-- Shows a diagnostic. -/
def display (d : Diagnostic) (c : Console) : Console := c.writeLine (d.text c.styled)

/-- The text of the transcript from its `n`-th entry on. -/
def textFrom (n : Nat) (c : Console) : String :=
  String.join ((c.transcript.toList.drop n).map Entry.text)

/-! ### Recording -/

/-- Records a diagnostic, and shows it on an immediate console. -/
def record (d : Diagnostic) (c : Console) : Console :=
  let c := { c with records := c.records.push d }
  if c.immediate then c.display d else c

/-- Records a **static error**. -/
def report (line : Int) (place message : String) (c : Console) : Console :=
  { c with hadError := true }.record ⟨line, place, message, .static⟩

/-- Records a **runtime error**, on line zero if it has no token. -/
def runtimeError (token : Option Token) (message : String) (c : Console) : Console :=
  { c with hadRuntimeError := true }.record
    ⟨(token.map Token.line).getD 0, locate token, message, .runtime⟩

/-- Records a **warning**, which changes no exit status. -/
def warn (t : Token) (message : String) (c : Console) : Console :=
  c.record (.atToken .warning t message)

/-- Records the diagnostics of a program that was not run yet. -/
def reportAll (ds : List Diagnostic) (c : Console) : Console :=
  ds.foldl (fun c d => c.report d.line d.place d.message) c

/-- The line above several errors. -/
def headline (styled : Bool) (errors : Nat) : String :=
  emphasised styled none ("Found " ++ toString errors ++ " errors:")

/-- Shows the records that were not shown yet, under a headline if more than one is an error, and
forgets them all. -/
def flush (c : Console) : Console :=
  let forget (c : Console) : Console := { c with records := #[] }
  if c.immediate then forget c
  else
    let errors := c.records.countP fun d => d.severity != .warning
    let c := if 1 < errors then c.writeLine (headline c.styled errors) else c
    forget (c.records.foldl (fun c d => c.display d) c)

/-- Starts over with the records and the exit status, but not with the transcript. -/
def reset (c : Console) : Console :=
  { c with records := #[], hadError := false, hadRuntimeError := false }

/-! ### What an operation leaves alone -/

section

variable (c : Console)

theorem immediate_record (d : Diagnostic) : (c.record d).immediate = c.immediate := by
  rw [record]
  split <;> rfl

theorem hadError_record (d : Diagnostic) : (c.record d).hadError = c.hadError := by
  rw [record]
  split <;> rfl

theorem hadRuntimeError_record (d : Diagnostic) :
    (c.record d).hadRuntimeError = c.hadRuntimeError := by
  rw [record]
  split <;> rfl

theorem reportAll_cons (d : Diagnostic) (ds : List Diagnostic) :
    c.reportAll (d :: ds) = (c.report d.line d.place d.message).reportAll ds := rfl

theorem immediate_reportAll (ds : List Diagnostic) :
    (c.reportAll ds).immediate = c.immediate := by
  induction ds generalizing c with
  | nil => rfl
  | cons d ds ih => rw [reportAll_cons, ih, report, immediate_record]

/-- Reporting sets the flag for static errors if there is anything to report. -/
theorem hadError_reportAll (ds : List Diagnostic) :
    (c.reportAll ds).hadError = (c.hadError || !ds.isEmpty) := by
  induction ds generalizing c with
  | nil => exact (Bool.or_false _).symm
  | cons d ds ih =>
    rw [reportAll_cons, ih, report, hadError_record]
    exact (Bool.or_true _).symm

theorem hadRuntimeError_reportAll (ds : List Diagnostic) :
    (c.reportAll ds).hadRuntimeError = c.hadRuntimeError := by
  induction ds generalizing c with
  | nil => rfl
  | cons d ds ih => rw [reportAll_cons, ih, report, hadRuntimeError_record]

/-- An immediate console has shown its records already, and only forgets them. -/
theorem flush_of_immediate (h : c.immediate) : c.flush = { c with records := #[] } := by
  rw [flush, if_pos h]

end

/-! ### Stopping -/

/-- Shows an error that is not one of the program's text, and leaves if the console is **fatal**,
with the given status or else the exit status. -/
def stop (message : String) (internal : Bool) (status : Option Int) (c : Console) :
    Console × Option Exit :=
  let mark := if internal then emphasised c.styled (some .red) "[internal] " else ""
  let c := c.writeLine (mark ++ emphasised c.styled (some .red) "error: " ++ message)
  let c := { c with hadRuntimeError := true }
  (c, if c.fatal then some ⟨status.getD c.exitStatus⟩ else none)

/-- **Concludes** watched work. A request to leave is passed on; every other ending is absorbed,
after the records so far were flushed, with a line that says what happened and an exit if the
console is fatal. -/
def conclude (c : Console) : Ending → Console × Option Exit
  | .completed => (c, none)
  | .exit request => (c, some request)
  | .interrupted => c.flush.stop "keyboard interrupt" false none
  | .overflow => c.flush.stop "maximum recursion depth exceeded" false none
  | .failure token message =>
    let c := (c.runtimeError token message).flush
    (c, if c.fatal then some ⟨some (c.exitStatus : Int)⟩ else none)
  | .internal description => c.flush.stop ("unknown error: '" ++ description ++ "'") true none

end Console

end LoxLang
