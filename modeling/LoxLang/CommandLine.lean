import LoxLang.CommandLine.Arguments
import LoxLang.Shell

/-!
# The command line

What the program does with its arguments: it shows a message, runs a file, shows the outline of a
file, or starts the shell. Everything but the reading of lines and files is decided here;
`CommandLine.run` is the whole program on an input that is known in advance.
-/

namespace LoxLang

/-- What the program leaves behind: its exit status, if it ends with one, and its two outputs. -/
structure Outcome where
  status : Option Int
  output : String
  errors : String

namespace CommandLine

/-- The usage line. -/
def usage : String := "usage: lox [-h] [--ast] [file]\n"

/-- The answer to `--help`. -/
def helpText : String :=
  usage ++ "\n" ++
  "Tree-walking interpreter for the lox language.\n\n" ++
  "positional arguments:\n" ++
  "  file        file to interpret and run (if empty, goes to command-line mode)\n\n" ++
  "options:\n" ++
  "  -h, --help  show this help message and exit\n" ++
  "  --ast       print the parsed program instead of running it\n"

/-- The complaint about wrong arguments. -/
def complaint (e : UsageError) : String := usage ++ "lox: error: " ++ e.message ++ "\n"

/-- The console of the program: it keeps diagnostics until they are flushed, and leaves after an
error that stops it. -/
def console (styled : Bool) : Console := .new false true styled

/-- What the program leaves behind on its console. -/
def outcomeOf (status : Option Int) (c : Console) : Outcome := ⟨status, c.textFrom 0, ""⟩

/-- Ends the work of the program on its console. -/
def concluded (ending : Ending) (c : Console) : Outcome :=
  let (c, exit) := c.conclude ending
  outcomeOf (exit.bind Exit.status) c

/-- Shows what is left to show, and leaves with a status. -/
def finish (status : Nat) (c : Console) : Outcome :=
  concluded (.exit ⟨some (status : Int)⟩) c.flush

/-- Runs the file of a session. -/
def runUnit (machine : Machine) (source : String) (s : Session) : Outcome :=
  match s.run machine source with
  | (.ok status, s) => finish status s.console
  | (.error reason, s) => concluded (Session.endingOf (.error reason : Except Abort Unit)) s.console

/-- Shows the outline of the file of a session. -/
def outlineUnit (source : String) (s : Session) : Outcome :=
  let (statements, s) := s.parse source
  let c := s.console.printAll #[outline statements]
  finish c.exitStatus c

/-- Does something with the text of a file. -/
def withFile (styled : Bool) (files : Files) (path : String)
    (use : String → Session → Outcome) : Outcome :=
  match (Session.new (console styled) path false).load files with
  | (.text source, s) => use source s
  | (.refused exit, s) => outcomeOf (exit.bind Exit.status) s.console
  | (.broken description, s) => concluded (.internal description) s.console

/-- What the program comes to before it reads any line. -/
inductive Start
  | finished (outcome : Outcome)
  /-- Lines are to be read. -/
  | dialogue (shell : Shell)

/-- **Starts** the program on its arguments. -/
def start (machine : Machine) (styled : Bool) (files : Files) (arguments : List String) : Start :=
  match Request.ofArguments arguments with
  | .error e => .finished ⟨some 2, "", complaint e⟩
  | .ok .showHelp => .finished ⟨some 0, helpText, ""⟩
  | .ok .startShell => .dialogue (.new (.new (console styled) Session.noFile true))
  | .ok (.runFile path) => .finished (withFile styled files path (runUnit machine))
  | .ok (.showOutline path) => .finished (withFile styled files path outlineUnit)

/-- The **whole program**, on the text of its standard input. -/
def run (machine : Machine) (styled : Bool) (files : Files) (arguments : List String)
    (input : String) : Outcome :=
  match start machine styled files arguments with
  | .finished outcome => outcome
  | .dialogue shell =>
    outcomeOf none (shell.dialogue machine (linesOf (unixLines input))).session.console

/-- The file that the program reads, if it reads one. -/
def file? (arguments : List String) : Option String :=
  match Request.ofArguments arguments with
  | .ok (.runFile path) | .ok (.showOutline path) => some path
  | _ => none

end CommandLine

end LoxLang
