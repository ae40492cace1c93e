import GraphQL.Value

/-!
# The text of values

How values are written in documents and messages: items and fields separated by a comma and a
blank, strings in double quotes. `quoted` is the only form in which strings are written, also
those that were read from block strings.
-/

namespace GraphQL

namespace Text

/-- How a character is written inside a string: quotes, backslashes and control characters are
escaped, anything else stands for itself. -/
def escaped (c : Char) : List Char :=
  if c = '\r' then ['\\', 'r']
  else if c = '\n' then ['\\', 'n']
  else if c = '\t' then ['\\', 't']
  else if c = '"' then ['\\', '"']
  else if c = '\\' then ['\\', '\\']
  else if isControl c then '\\' :: 'u' :: hexFour true c.toNat
  else [c]

/-- A string literal for the text. -/
def quoted (s : List Char) : List Char :=
  '"' :: s.flatMap escaped ++ ['"']

end Text

namespace Value

mutual

/-- The text of a value literal. -/
def chars : Literal → List Char
  | .variable name => '$' :: name.toList
  | .null => ['n', 'u', 'l', 'l']
  | .number n => n.chars
  | .string s => Text.quoted s.toList
  | .bool true => ['t', 'r', 'u', 'e']
  | .bool false => ['f', 'a', 'l', 's', 'e']
  | .enum name => name.toList
  | .list items => '[' :: Text.joined [',', ' '] (itemChars items) ++ [']']
  | .object fields => '{' :: Text.joined [',', ' '] (fieldChars fields) ++ ['}']

def itemChars : List Literal → List (List Char)
  | [] => []
  | item :: rest => item.chars :: itemChars rest

def fieldChars : List (Name × Literal) → List (List Char)
  | [] => []
  | (name, value) :: rest => (name.toList ++ ':' :: ' ' :: value.chars) :: fieldChars rest

end

/-- The text of a value literal. -/
def text (v : Literal) : String :=
  String.ofList v.chars

end Value

namespace Const

/-- The text of a constant, that of the literal it is. -/
def chars (c : Const) : List Char :=
  Value.chars (Value.ofConst c)

/-- The text of a constant. -/
def text (c : Const) : String :=
  String.ofList c.chars

end Const

end GraphQL
