import LoxLang.Session

/-!
# The interactive shell

The shell reads lines and runs them as units of an interactive session. A line that leaves a brace
or parenthesis open is kept **pending**, and the unit is run when a later line closes the last of
them. While something is pending the shell asks with another **prompt**, which it keeps beside the
pending text. A few words are commands of the shell: `help`, `exit`, and `EOF`, which stands for the
end of the input.
-/

namespace LoxLang

/-- A **shell**. -/
structure Shell where
  session : Session
  /-- The lines of a unit that is not complete. -/
  pending : String
  /-- What is shown in front of the next line. -/
  prompt : String

namespace Shell

/-- The prompt where a unit begins. -/
def firstPrompt : String := "> "

/-- The prompt where a unit goes on. -/
def secondPrompt : String := ". "

/-- A shell on a session. -/
def new (session : Session) : Shell := ⟨session, "", firstPrompt⟩

/-- What the shell shows first. -/
def intro : String :=
  "Lox interpreter :: Python backend\nType '?' or 'help' for more information."

/-- The answer to `help`. -/
def helpText : String :=
  "Lox interpreter shell.\n\n" ++
  "Each input is run as its own program: nothing declared in one input is visible\n" ++
  "in the next. An input continues on the '. ' prompt while braces or parentheses\n" ++
  "are left open, so a whole function can be typed over several lines.\n\n" ++
  "Try 'print \"hello\" + \" world\";' or 'fun twice(n) \x7b return n * 2; \x7d print twice(4);'.\n\n" ++
  "Commands:\n" ++
  "  help       show this message\n" ++
  "  exit, ^D   leave the shell"

/-- What a line is to the shell. -/
inductive Command
  | nothing
  | help
  | leave
  /-- The input has ended. -/
  | endOfInput
  /-- A line of the program being typed. -/
  | input (line : String)
  deriving DecidableEq

/-- The command of a line without blank space around it. The word in front decides, whatever
follows it, and a leading question mark asks for help. -/
def Command.ofStripped (cs : List Char) : Command :=
  match cs with
  | [] => .nothing
  | '?' :: _ => .help
  | cs =>
    let word := String.ofList (cs.takeWhile fun c => isAlphanumeric c)
    if word = "help" then .help
    else if word = "exit" then .leave
    else if word = "EOF" then .endOfInput
    else .input (String.ofList cs)

/-- The command of a line. Blank space around it does not count. -/
def Command.ofLine (line : String) : Command := .ofStripped (stripped line.toList)

/-- Takes a line of the program being typed, and runs the unit if it is complete. What is pending
and the prompt are settled before the run, which may be cut off. -/
def feed (machine : Machine) (line : String) (shell : Shell) : Shell × Option Exit :=
  match Session.joinLine line shell.pending with
  | (pending, true) => ({ shell with pending, prompt := secondPrompt }, none)
  | (source, false) =>
    let shell := { shell with pending := "", prompt := firstPrompt }
    let (result, session) := shell.session.run machine source
    let (console, exit) := session.console.conclude (Session.endingOf result)
    ({ shell with session := { session with console } }, exit)

/-- Shows text as it is. -/
def write (text : String) (shell : Shell) : Shell :=
  { shell with session := shell.session.onConsole (Console.write text) }

/-- Takes **one line**. Answers whether the shell is to be left. -/
def step (machine : Machine) (line : String) (shell : Shell) : Shell × Bool :=
  match Command.ofLine line with
  | .nothing => (shell, false)
  | .help => (shell.write (helpText ++ "\n"), false)
  | .leave => (shell, true)
  | .endOfInput => (shell.write "\n", true)
  | .input line =>
    let (shell, exit) := shell.feed machine line
    (shell, exit.isSome)

/-- Reads lines until the shell is left, with the prompt in front of each. Behind the last line the
input ends. -/
def readAll (machine : Machine) : List String → Shell → Shell
  | [], shell => ((shell.write shell.prompt).step machine "EOF").1
  | line :: lines, shell =>
    match (shell.write shell.prompt).step machine line with
    | (shell, true) => shell
    | (shell, false) => readAll machine lines shell

/-- A whole **dialogue**: the greeting, and then all lines. -/
def dialogue (machine : Machine) (lines : List String) (shell : Shell) : Shell :=
  readAll machine lines (shell.write (intro ++ "\n"))

end Shell

end LoxLang
