import LoxLang.Console
import LoxLang.Evaluation
import LoxLang.Program.Outline
import LoxLang.Program.Parser
import LoxLang.Text

/-!
# Sessions

A session runs units of program text on one console. In a **script session** the units share their
memory, so that what one declares the next can use, and the console keeps diagnostics until it is
flushed. In an **interactive session** every unit starts from a fresh memory, its diagnostics are
shown at once, and the console starts over behind each unit.
-/

namespace LoxLang

/-- A **session**. -/
structure Session where
  console : Console
  /-- The file that `load` reads. -/
  path : String
  interactive : Bool
  memory : Memory

/-- The files there are: the bytes behind a path, if the path can be opened for reading. -/
abbrev Files := String → Option ByteArray

namespace Session

/-- The path of a session that reads no file. -/
def noFile : String := "<in>"

/-- The exit status when a file cannot be opened. -/
def noInput : Int := 66

/-- The exit status when a file is not text. -/
def badData : Int := 65

/-- Opens a session. Interactive sessions show diagnostics at once and do not leave on errors. -/
def new (console : Console) (path : String) (interactive : Bool) : Session :=
  let console := if interactive then { console with immediate := true, fatal := false } else console
  ⟨console, path, interactive, .fresh⟩

/-- Changes the console. -/
def onConsole (f : Console → Console) (s : Session) : Session := { s with console := f s.console }

/-! ### Running -/

/-- Parses a text and records what is wrong with it. -/
def parse (source : String) (s : Session) : List Stmt × Session :=
  let parsed := Parse.ofSource source
  (parsed.statements, s.onConsole (Console.reportAll parsed.diagnostics))

/-- What to say about a `return` that returns from nothing. -/
def returnOutside : String := "'return' outside of a function stops the program."

/-- Executes statements up to the first runtime error or `return`, which is recorded. Answers
whether all of them ran, or why the run could not go on. -/
def interpret (machine : Machine) (statements : List Stmt) (s : Session) :
    Except Abort Bool × Session :=
  let (result, memory) := (executeAll machine.toHost machine.nesting statements).run s.memory
  let console := s.console.printAll memory.printed
  let s := { s with console, memory := { memory with printed := #[] } }
  match result with
  | .ok () => (.ok true, s)
  | .error (.failure e) => (.ok false, s.onConsole (Console.runtimeError (some e.token) e.message))
  | .error (.returning keyword _) => (.ok false, s.onConsole (Console.warn keyword returnOutside))
  | .error (.abort reason) => (.error reason, s)

/-- The memory behind a program is what its statements leave, with nothing left to print. -/
theorem memory_interpret (machine : Machine) (statements : List Stmt) (s : Session) :
    (s.interpret machine statements).2.memory =
      { ((executeAll machine.toHost machine.nesting statements).run s.memory).2 with
        printed := #[] } := by
  rw [interpret]
  rcases (executeAll machine.toHost machine.nesting statements).run s.memory with
    ⟨(_ | _ | _) | _, m⟩ <;> rfl

/-- **Runs** a unit. Answers its exit status, or why the run could not go on. -/
def run (machine : Machine) (source : String) (s : Session) : Except Abort Nat × Session :=
  let s := if s.interactive then { s with memory := .fresh } else s
  let (statements, s) := s.parse source
  match s.interpret machine statements with
  | (.ok _, s) =>
    let status := s.console.exitStatus
    (.ok status, if s.interactive then s.onConsole Console.reset else s)
  | (.error reason, s) => (.error reason, s)

/-- The memory behind a unit. The units of an interactive session start over, all others go on with
what there is. -/
theorem memory_run (machine : Machine) (source : String) (s : Session) :
    (s.run machine source).2.memory =
      { ((executeAll machine.toHost machine.nesting (Parse.ofSource source).statements).run
          (if s.interactive then .fresh else s.memory)).2 with printed := #[] } := by
  have hstart : (if s.interactive then { s with memory := .fresh } else s : Session).memory =
      if s.interactive then .fresh else s.memory := by split <;> rfl
  rw [← hstart, run]
  generalize (if s.interactive then { s with memory := .fresh } else s : Session) = started
  refine Eq.trans ?_ (memory_interpret machine _ (started.parse source).2)
  dsimp only
  split
  · next h =>
    split
    · exact congrArg (memory ·.2) h.symm
    · exact congrArg (memory ·.2) h.symm
  · next h => exact congrArg (memory ·.2) h.symm

/-- How a run ended, for the console that watches over it. -/
def endingOf {α : Type} : Except Abort α → Ending
  | .ok _ => .completed
  | .error .overflow => .overflow
  | .error .unfinished => .internal "a loop did not end"
  | .error (.unknownOperator op) => .internal ("no operator " ++ op.lexeme)

/-- Runs a unit **watched over** by the console, which absorbs whatever ends the run. -/
def runWatched (machine : Machine) (source : String) (s : Session) : Except Abort Nat × Session :=
  let (result, s) := s.run machine source
  (result, s.onConsole fun console => (console.conclude (endingOf result)).1)

/-- The session behind units that were run one after the other, each with its own machine. -/
def after (units : List (Machine × String)) (s : Session) : Session :=
  units.foldl (fun s (machine, source) => (s.runWatched machine source).2) s

/-! ### Input -/

/-- How often a kind of token occurs. -/
def countKind (kind : TokenKind) (tokens : List Token) : Nat :=
  tokens.countP fun t => t.kind = kind

/-- Whether braces or parentheses are left open at the end of a text. Those in strings and comments
do not count. -/
def needsMore (source : String) : Bool :=
  let tokens := (scan source).tokens
  decide (countKind .rightBrace tokens < countKind .leftBrace tokens ∨
    countKind .rightParen tokens < countKind .leftParen tokens)

/-- Joins a line to the pending ones, and says whether the unit **needs more** lines. -/
def joinLine (line pending : String) : String × Bool :=
  let joined := if pending.isEmpty then line else pending ++ "\n" ++ line
  (joined, needsMore joined)

/-- What reading the file of a session comes to. -/
inductive Loaded
  | text (source : String)
  /-- The file could not be read, which is fatal on some consoles. -/
  | refused (exit : Option Exit)
  /-- The path is none. -/
  | broken (description : String)

/-- **Reads** the file of the session. -/
def load (files : Files) (s : Session) : Loaded × Session :=
  let refuse (reason : String) (status : Int) : Loaded × Session :=
    let (console, exit) := s.console.stop ("'" ++ s.path ++ "' " ++ reason) false (some status)
    (.refused exit, { s with console })
  if s.path.contains '\x00' then (.broken "ValueError: embedded null byte", s)
  else
    match files s.path with
    | none => refuse "could not be opened" noInput
    | some bytes =>
      match decode? bytes with
      | some source => (.text source, s)
      | none => refuse "is not valid UTF-8" badData

end Session

end LoxLang
