import LoxLang.CommandLine
import Std.Time.DateTime.Timestamp

/-!
# The program

The outer layer: it reads files, lines and the clock, and writes what the library answers.
-/

namespace LoxLang

/-- The host of this process: the clock goes on by a microsecond with every reading after the
first, and loops may make more rounds than any run has time for. -/
def currentHost : IO Host := do
  let now ← Std.Time.Timestamp.now
  let seconds := Float.ofInt now.toNanosecondsSinceUnixEpoch.toInt / 1e9
  pure ⟨fun n => seconds + Float.ofNat n / 1e6, 1000000000000000000⟩

/-- Whether output is styled: on a terminal, unless the environment says otherwise. -/
def wantsStyle : IO Bool := do
  if (← IO.getEnv "NO_COLOR").isSome then pure false
  else if (← IO.getEnv "FORCE_COLOR").isSome then pure true
  else if (← IO.getEnv "TERM") == some "dumb" then pure false
  else (← IO.getStdout).isTty

/-- The bytes of a file, if it can be read. -/
def readFile? (path : String) : IO (Option ByteArray) := do
  try pure (some (← IO.FS.readBinFile path)) catch _ => pure none

/-- Writes what was added to a transcript since it had `n` entries. -/
def writeFrom (n : Nat) (shell : Shell) : IO Unit := do
  IO.print (shell.session.console.textFrom n)
  (← IO.getStdout).flush

/-- The lines that come next on standard input. Its end is the line `EOF`. -/
def nextLines : IO (List String) := do
  let line ← (← IO.getStdin).getLine
  pure (if line.isEmpty then ["EOF"] else linesOf (unixLines line))

/-- Feeds lines to a shell until it is left: those waiting, and then those of standard input. -/
partial def converse (waiting : List String) (shell : Shell) : IO Unit := do
  let prompted := shell.write shell.prompt
  writeFrom shell.session.console.transcript.size prompted
  match ← (if waiting.isEmpty then nextLines else pure waiting) with
  | [] => pure ()
  | line :: rest =>
    let (next, left) := prompted.step (← currentHost) line
    writeFrom prompted.session.console.transcript.size next
    if left then pure () else converse rest next

end LoxLang

open LoxLang

/-- The entry point. -/
def main (arguments : List String) : IO UInt32 := do
  let bytes ← match CommandLine.file? arguments with
    | some path => readFile? path
    | none => pure none
  match CommandLine.start (← currentHost) (← wantsStyle) (fun _ => bytes) arguments with
  | .finished outcome =>
    IO.print outcome.output
    IO.eprint outcome.errors
    pure (UInt32.ofNat (outcome.status.getD 0).toNat)
  | .dialogue shell =>
    let greeted := shell.write (Shell.intro ++ "\n")
    writeFrom 0 greeted
    converse [] greeted
    pure 0
