import GraphQL.Value.Printer

/-!
# Built-in scalars

The five scalar types that every schema has, with the values they accept as input and the JSON
they give as output. Input is strict: only identifiers are converted, from integers. Output is
lenient: strings are also made of numbers and booleans.
-/

namespace GraphQL

/-- The integer of 32 bits with a sign that a number is, if it is one. A double without a
fractional part counts as the integer it denotes. -/
def Number.toInt32? (n : Number) : Option Int :=
  (match n with
    | .int n => some n
    | .double x => x.toInt?).filter fun n => -0x80000000 ≤ n && n < 0x80000000

inductive Scalar where
  | int
  | float
  | string
  | boolean
  | id
  deriving DecidableEq

namespace Scalar

def all : List Scalar :=
  [int, float, string, boolean, id]

def name : Scalar → Name
  | int => "Int"
  | float => "Float"
  | string => "String"
  | boolean => "Boolean"
  | id => "ID"

def ofName? (name : Name) : Option Scalar :=
  all.find? fun s => s.name = name

/-- What is said of a value that the scalar cannot represent. -/
def rejection (s : Scalar) (shown : String) : String :=
  match s with
  | int => s!"Int cannot represent non 32-bit signed integer value: {shown}"
  | float => s!"Float cannot represent non numeric value: {shown}"
  | string => s!"String cannot represent a non string value: {shown}"
  | boolean => s!"Boolean cannot represent a non boolean value: {shown}"
  | id => s!"ID cannot represent a non-string and non-integer value: {shown}"

/-- The value of an input that the scalar accepts. -/
def parse? : Scalar → Const → Option Const
  | int, .number n => n.toInt32?.map fun _ => .number n
  | float, .number n => some (.number n)
  | string, .string s => some (.string s)
  | boolean, .bool b => some (.bool b)
  | id, .string s => some (.string s)
  | id, .number n => if n.isInt then some (.string n.text) else none
  | _, _ => none

/-- The output for a value that the scalar can represent. -/
def serialize? : Scalar → Json → Option Json
  | int, .number n => n.toInt32?.map Json.ofInt
  | float, .number n => some (.number n)
  | string, .string s => some (.string s)
  | string, .number n => some (.string n.text)
  | string, .bool b => some (.string (Json.text (.bool b)))
  | id, .string s => some (.string s)
  | id, .number n => if n.isInt then some (.string n.text) else none
  | boolean, .bool b => some (.bool b)
  | _, _ => none

end Scalar

end GraphQL
