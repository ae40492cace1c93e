import GraphQL.Text.Class

/-!
# String literals

What the content of a string literal denotes. `unescape` resolves the escapes of both kinds of
strings; `dedent` first takes the common indentation off the lines of a block string, the first
line apart, and drops the blank lines at either end.
-/

namespace GraphQL.StringLiteral

/-- The character that a letter after a backslash stands for. -/
def simpleEscape? (c : Char) : Option Char :=
  if c = '"' then some '"'
  else if c = '\\' then some '\\'
  else if c = '/' then some '/'
  else if c = 'b' then some '\x08'
  else if c = 'f' then some '\x0c'
  else if c = 'n' then some '\n'
  else if c = 'r' then some '\r'
  else if c = 't' then some '\t'
  else none

/-- The character of four hexadecimal digits; a surrogate is none. -/
def unicodeEscape? (a b c d : Char) : Option Char := do
  let a ← Text.hexValue? a
  let b ← Text.hexValue? b
  let c ← Text.hexValue? c
  let d ← Text.hexValue? d
  let n := ((a * 16 + b) * 16 + c) * 16 + d
  if n.isValidChar then some (Char.ofNat n) else none

/-- Resolves the escapes of a string; none when one of them is not valid. -/
def unescape : List Char → Option (List Char)
  | [] => some []
  | '\\' :: 'u' :: a :: b :: c :: d :: rest => do
    let c ← unicodeEscape? a b c d
    let rest ← unescape rest
    pure (c :: rest)
  | '\\' :: c :: rest => do
    let c ← simpleEscape? c
    let rest ← unescape rest
    pure (c :: rest)
  | ['\\'] => none
  | c :: rest => (unescape rest).map (c :: ·)

/-- The lines of a text, which end with `\n`, `\r\n` or a `\r` alone. There is always one. -/
def lines : List Char → List (List Char)
  | [] => [[]]
  | '\r' :: '\n' :: cs => [] :: lines cs
  | '\r' :: cs => [] :: lines cs
  | '\n' :: cs => [] :: lines cs
  | c :: cs =>
    match lines cs with
    | [] => [[c]]
    | line :: rest => (c :: line) :: rest

/-- The characters that indent a line. -/
def isIndent (c : Char) : Bool :=
  c = ' ' || c = '\t'

/-- How many characters indent a line. -/
def indentation (line : List Char) : Nat :=
  (line.takeWhile isIndent).length

def isBlankLine (line : List Char) : Bool :=
  line.all isIndent

/-- The least indentation of the lines that are not blank, zero if there are none. -/
def commonIndentation (lines : List (List Char)) : Nat :=
  ((lines.filter fun line => !isBlankLine line).map indentation).min?.getD 0

/-- Takes the common indentation off all lines but the first. -/
def unindent : List (List Char) → List (List Char)
  | [] => []
  | first :: rest => first :: rest.map (List.drop (commonIndentation rest))

/-- Drops the blank lines at both ends. -/
def trimBlank (lines : List (List Char)) : List (List Char) :=
  ((lines.dropWhile isBlankLine).reverse.dropWhile isBlankLine).reverse

/-- The content of a block string without its indentation, its lines separated by `\n`. -/
def dedent (content : List Char) : List Char :=
  Text.joined ['\n'] (trimBlank (unindent (lines content)))

end GraphQL.StringLiteral
