import GraphQL.Assoc
import GraphQL.Number

/-!
# JSON

JSON values with ordered objects, and their compact text: no blanks, keys in order. Requests,
resolved values and responses are JSON.
-/

namespace GraphQL

/-- A JSON value. The keys of an object are distinct and keep their order. -/
inductive Json where
  | null
  | bool (value : Bool)
  | number (value : Number)
  | string (value : String)
  | array (items : List Json)
  | object (fields : List (String × Json))
  deriving Inhabited

namespace Json

def ofInt (n : Int) : Json :=
  .number (.int n)

def ofNat (n : Nat) : Json :=
  .number (.int n)

/-- The object of a list of pairs that may repeat keys. -/
def ofPairs (pairs : List (String × Json)) : Json :=
  .object (Assoc.ofList pairs)

/-- The value of a key; none for anything but an object. -/
def field? : Json → String → Option Json
  | .object fields, key => Assoc.get? fields key
  | _, _ => none

def string? : Json → Option String
  | .string s => some s
  | _ => none

def isNull : Json → Bool
  | .null => true
  | _ => false

/-- What kind of value this is, in words. -/
def kind : Json → String
  | .null => "null"
  | .bool _ => "boolean"
  | .number _ => "number"
  | .string _ => "string"
  | .array _ => "list"
  | .object _ => "object"

/-- How a character is written inside a string: quotes, backslashes and the control characters
below U+0020 are escaped, anything else stands for itself. -/
def escaped (c : Char) : List Char :=
  if c = '"' then ['\\', '"']
  else if c = '\\' then ['\\', '\\']
  else if c = '\x08' then ['\\', 'b']
  else if c = '\x0c' then ['\\', 'f']
  else if c = '\n' then ['\\', 'n']
  else if c = '\r' then ['\\', 'r']
  else if c = '\t' then ['\\', 't']
  else if c.val < 0x20 then '\\' :: 'u' :: Text.hexFour false c.toNat
  else [c]

/-- A string in quotes. -/
def quoted (s : String) : List Char :=
  '"' :: s.toList.flatMap escaped ++ ['"']

mutual

/-- The compact text of a value. -/
def chars : Json → List Char
  | .null => ['n', 'u', 'l', 'l']
  | .bool true => ['t', 'r', 'u', 'e']
  | .bool false => ['f', 'a', 'l', 's', 'e']
  | .number n => n.chars
  | .string s => quoted s
  | .array items => '[' :: Text.joined [','] (itemChars items) ++ [']']
  | .object fields => '{' :: Text.joined [','] (fieldChars fields) ++ ['}']

def itemChars : List Json → List (List Char)
  | [] => []
  | item :: rest => item.chars :: itemChars rest

def fieldChars : List (String × Json) → List (List Char)
  | [] => []
  | (key, value) :: rest => (quoted key ++ ':' :: value.chars) :: fieldChars rest

end

def text (j : Json) : String :=
  String.ofList j.chars

end Json

end GraphQL
