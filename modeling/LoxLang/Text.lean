import LoxLang.Text.Characters

/-!
# Text read and shown

Files and standard input are UTF-8 with any of three line ends. `decode?` is strict: a sequence
that is too long, a surrogate, or a value beyond Unicode makes the whole input undecodable.
`unixLines` turns the line ends into single line feeds, `linesOf` cuts a text at them, and
`stripped` removes the blank space around a line.

`quoted s` writes a text so that its ends and its hidden characters can be seen: in single quotes,
or in double quotes when it holds single quotes and no double ones; a backslash, the quote in use,
and every character that is not printable are escaped.
-/

namespace LoxLang

/-! ### Lines -/

/-- The text with `\n` for every line end: for `\r\n`, and for a `\r` that stands alone. -/
def unixLines (s : String) : String :=
  let cs := s.toList
  let followed := cs.zip (cs.tail.map some ++ [none])
  String.ofList <| followed.filterMap fun (c, next) =>
    if c = '\r' then (if next = some '\n' then none else some '\n') else some c

/-- The text of a file's bytes, if they are valid UTF-8. A byte order mark stays a character. -/
def decode? (bytes : ByteArray) : Option String := (String.fromUTF8? bytes).map unixLines

/-- The lines of a text without their line feeds. A last line without a line feed counts. -/
def linesOf (s : String) : List String :=
  let pieces := s.splitOn "\n"
  if pieces.getLast? = some "" then pieces.dropLast else pieces

/-- The characters of `cs` from the first to the last that is not blank. -/
def stripped (cs : List Char) : List Char :=
  ((cs.dropWhile isBlank).reverse.dropWhile isBlank).reverse

/-! ### Quotes -/

/-- The last `width` hexadecimal digits of `n`, in lower case. -/
def hexDigits : Nat → Nat → List Char
  | 0, _ => []
  | width + 1, n => hexDigits width (n / 16) ++ [Nat.digitChar (n % 16)]

/-- The quote around a text. -/
def quoteFor (cs : List Char) : Char :=
  if cs.contains '\'' && !cs.contains '"' then '"' else '\''

/-- One character between the quotes `quote`. -/
def escaped (quote c : Char) : List Char :=
  if c = quote ∨ c = '\\' then ['\\', c]
  else if c = '\n' then ['\\', 'n']
  else if c = '\r' then ['\\', 'r']
  else if c = '\t' then ['\\', 't']
  else if isPrintable c then [c]
  else if c.toNat < 0x100 then '\\' :: 'x' :: hexDigits 2 c.toNat
  else if c.toNat < 0x10000 then '\\' :: 'u' :: hexDigits 4 c.toNat
  else '\\' :: 'U' :: hexDigits 8 c.toNat

/-- The text in **quotes**. -/
def quoted (s : String) : String :=
  let quote := quoteFor s.toList
  String.ofList (quote :: s.toList.flatMap (escaped quote) ++ [quote])

end LoxLang
