import LoxLang.Text

/-!
# Arguments of the command line

`Request.ofArguments` reads the arguments of the program: an optional file, `--ast` to show the
program of the file instead of running it, and `-h` or `--help`. Long options may be cut short as
long as one option is meant, `--` ends the options, and a dash alone is a file name.

Every argument is first classified on its own; an ambiguous option is found here, before anything
else. Then the arguments are taken in order, and `-h` and options with a value they do not take end
the reading at once, while arguments that are left over are only complained about at the end.
-/

namespace LoxLang

/-- The options. -/
inductive Flag
  | help
  | ast
  deriving DecidableEq

/-- How an option is named in messages. -/
def Flag.title : Flag → String
  | help => "-h/--help"
  | ast => "--ast"

/-- The long names of the options. -/
def longNames : List (String × Flag) := [("--help", .help), ("--ast", .ast)]

/-- What is wrong with the arguments. -/
inductive UsageError
  | ambiguous (argument : String) (candidates : List String)
  /-- An option was given a value that it does not take. -/
  | ignoredValue (flag : Flag) (value : String)
  | unrecognized (arguments : List String)
  | fileRequired
  deriving DecidableEq

/-- The wording of a usage error. -/
def UsageError.message : UsageError → String
  | ambiguous argument candidates =>
    "ambiguous option: " ++ argument ++ " could match " ++ ", ".intercalate candidates
  | ignoredValue flag value =>
    "argument " ++ flag.title ++ ": ignored explicit argument " ++ quoted value
  | unrecognized arguments => "unrecognized arguments: " ++ " ".intercalate arguments
  | fileRequired => "--ast requires a file"

/-- What an argument is, by itself. -/
inductive ArgumentForm
  /-- An option under one of its names, with the value behind an equals sign. -/
  | long (flag : Flag) (value : Option String)
  /-- `-h` with a value, directly behind it or behind an equals sign. -/
  | short (value : List Char)
  | unknown (argument : String)
  | operand (argument : String)
  /-- The first `--`. -/
  | separator
  deriving DecidableEq

/-! ### Classification -/

/-- Whether the characters are a negative number: digits with at most one point in or before them,
and a line feed at the end does not count. -/
def isNegativeNumber : List Char → Bool
  | '-' :: cs =>
    let cs := if cs.getLast? = some '\n' then cs.dropLast else cs
    let whole := cs.takeWhile isDecimalDigit
    match cs.dropWhile isDecimalDigit with
    | [] => !whole.isEmpty
    | '.' :: fraction => !fraction.isEmpty && fraction.all isDecimalDigit
    | _ => false
  | _ => false

/-- The text before the first equals sign, and the text behind it if there is one. -/
def splitValue (cs : List Char) : String × Option String :=
  (String.ofList (cs.takeWhile fun c => c != '='),
    match cs.dropWhile fun c => c != '=' with
    | [] => none
    | _ :: value => some (String.ofList value))

/-- What an argument in front of `--` is that starts with a dash and names no option. -/
def unnamedForm (argument : String) : ArgumentForm :=
  if isNegativeNumber argument.toList || argument.contains ' ' then .operand argument
  else .unknown argument

/-- **Classifies** an argument in front of `--`. -/
def ArgumentForm.of (argument : String) : Except UsageError ArgumentForm :=
  match argument.toList with
  | '-' :: '-' :: cs =>
    let (name, value) := splitValue ('-' :: '-' :: cs)
    match longNames.find? fun p => p.1 == name with
    | some (_, flag) => .ok (.long flag value)
    | none =>
      match longNames.filter fun p => p.1.startsWith name with
      | [] => .ok (unnamedForm argument)
      | [(_, flag)] => .ok (.long flag value)
      | several => .error (.ambiguous argument (several.map Prod.fst))
  | ['-', 'h'] => .ok (.long .help none)
  | '-' :: 'h' :: '=' :: value | '-' :: 'h' :: value => .ok (.short value)
  | ['-'] => .ok (.operand argument)
  | '-' :: _ => .ok (unnamedForm argument)
  | _ => .ok (.operand argument)

/-- Classifies all arguments. Behind the first `--` there are operands only. -/
def classify : List String → Except UsageError (List ArgumentForm)
  | [] => .ok []
  | argument :: arguments =>
    if argument = "--" then .ok (.separator :: arguments.map .operand)
    else do
      let form ← ArgumentForm.of argument
      let forms ← classify arguments
      pure (form :: forms)

/-! ### Reading -/

/-- What the program is asked to do. -/
inductive Request
  | showHelp
  | startShell
  | runFile (path : String)
  | showOutline (path : String)
  deriving DecidableEq

/-- What was read of the arguments. -/
structure Reading where
  file : Option String
  /-- Whether the place of the file is taken, be it by nothing but a `--`. -/
  placed : Bool
  ast : Bool
  leftOver : List String

namespace Reading

/-- What is wrong with the value of an `-h`, if it is not made of `h`s alone, which only repeat the
option. The option does not take what follows the last of them. -/
def shortError? (value : List Char) : Option UsageError :=
  let rest := value.dropWhile fun c => c = 'h'
  if !value.isEmpty && rest.isEmpty then none
  else some (.ignoredValue .help (String.ofList rest))

/-- Takes an operand that no `--` comes before: it is the file, or left over. -/
def operand (argument : String) (r : Reading) : Reading :=
  if r.placed then { r with leftOver := r.leftOver ++ [argument] }
  else { r with file := some argument, placed := true }

/-- Takes the arguments from the first `--` on. Where the file is still missing, the first operand
behind it is the file. A `--` directly behind the file belongs to the file, and else is left over
like the operands. -/
def separated (behindFile : Bool) (operands : List String) (r : Reading) : Reading :=
  if r.placed then
    let rest := if behindFile then operands else "--" :: operands
    { r with leftOver := r.leftOver ++ rest }
  else
    match operands with
    | [] => { r with placed := true }
    | file :: rest => { r with file := some file, placed := true, leftOver := r.leftOver ++ rest }

/-- The text of an operand. -/
def operandText : ArgumentForm → Option String
  | .operand argument => some argument
  | _ => none

/-- Takes the arguments in order. `behindFile` says that the argument before was the file. -/
def take (behindFile : Bool) (r : Reading) :
    List ArgumentForm → Except UsageError (Option Reading)
  | [] => .ok (some r)
  | .long .help none :: _ => .ok none
  | .long .ast none :: forms => take false { r with ast := true } forms
  | .long flag (some value) :: _ => .error (.ignoredValue flag value)
  | .short value :: _ =>
    match shortError? value with
    | some e => .error e
    | none => .ok none
  | .unknown argument :: forms =>
    take false { r with leftOver := r.leftOver ++ [argument] } forms
  | .operand argument :: forms => take (!r.placed) (r.operand argument) forms
  | .separator :: forms => .ok (some (r.separated behindFile (forms.filterMap operandText)))

end Reading

/-- **Reads** the arguments of the program. -/
def Request.ofArguments (arguments : List String) : Except UsageError Request := do
  let forms ← classify arguments
  match ← Reading.take false ⟨none, false, false, []⟩ forms with
  | none => pure .showHelp
  | some r =>
    if !r.leftOver.isEmpty then throw (.unrecognized r.leftOver)
    else
      match r.ast, r.file with
      | false, none => pure .startShell
      | true, none => throw .fileRequired
      | false, some path => pure (.runFile path)
      | true, some path => pure (.showOutline path)

end LoxLang
