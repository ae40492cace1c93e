import GraphQL.Name

/-!
# Type references

A type reference names a type, or is a list of another reference; an exclamation mark after
either says that null is not among its values. `TypeRef.read?` reads the compact text by which
schemas give their types; a document is read by its parser instead.
-/

namespace GraphQL

/-- A reference to a type. -/
inductive TypeRef where
  | named (name : Name) (nullable : Bool)
  | list (item : TypeRef) (nullable : Bool)
  deriving DecidableEq

namespace TypeRef

def nullable : TypeRef → Bool
  | named _ nullable => nullable
  | list _ nullable => nullable

def withNullable : TypeRef → Bool → TypeRef
  | named name _, nullable => named name nullable
  | list item _, nullable => list item nullable

/-- The same type with null among its values. -/
def asNullable (t : TypeRef) : TypeRef :=
  t.withNullable true

/-- The same type without null among its values. -/
def required (t : TypeRef) : TypeRef :=
  t.withNullable false

def isList : TypeRef → Bool
  | named _ _ => false
  | list _ _ => true

/-- The name inside all the lists. -/
def innermost : TypeRef → Name
  | named name _ => name
  | list item _ => item.innermost

/-- The mark of a type that is not nullable. -/
def bang (nullable : Bool) : List Char :=
  if nullable then [] else ['!']

def chars : TypeRef → List Char
  | named name nullable => name.toList ++ bang nullable
  | list item nullable => '[' :: item.chars ++ ']' :: bang nullable

def text (t : TypeRef) : String :=
  String.ofList t.chars

/-- Splits the last character off when it is the one given. -/
def stripLast (c : Char) (cs : List Char) : Option (List Char) :=
  if cs.getLast? = some c then some cs.dropLast else none

/-- Reads a reference, taking whatever is neither a trailing exclamation mark nor an enclosing
pair of brackets as the name. The fuel bounds the nesting. -/
def ofChars? : Nat → List Char → Option TypeRef
  | 0, _ => none
  | fuel + 1, cs =>
    let (nullable, cs) := match stripLast '!' cs with
      | some rest => (false, rest)
      | none => (true, cs)
    match cs with
    | '[' :: rest => do
      let inner ← stripLast ']' rest
      let item ← ofChars? fuel inner
      pure (list item nullable)
    | _ => some (named (String.ofList cs) nullable)

/-- Reads the text of a type reference. It fails only on a bracket that is not closed at the
end. -/
def read? (text : String) : Option TypeRef :=
  ofChars? (text.toList.length + 1) text.toList

/-- The type reference of a text. One that cannot be read names a type that does not exist. -/
def ofText (text : String) : TypeRef :=
  (read? text).getD (named text true)

end TypeRef

end GraphQL
