import GraphQL.Json

/-!
# Response paths

A path leads from the root of a response to one of its values, through the keys of objects and
the indices of lists.
-/

namespace GraphQL

/-- One step down into a value. -/
inductive Segment where
  | field (key : String)
  | index (i : Nat)
  deriving DecidableEq

/-- The steps from the root of a response, outermost first. -/
abbrev Path :=
  List Segment

namespace Path

/-- The path one step further. -/
def child (path : Path) (segment : Segment) : Path :=
  path ++ [segment]

/-- Whether the path leads to an element of a list. -/
def isElement (path : Path) : Bool :=
  match path.getLast? with
  | some (.index _) => true
  | _ => false

/-- The steps after the first one, each with its mark. -/
def tailChars : List Segment → List Char
  | [] => []
  | .field key :: rest => '.' :: key.toList ++ tailChars rest
  | .index i :: rest => '[' :: Text.decimal i ++ ']' :: tailChars rest

def chars : Path → List Char
  | .field key :: rest => key.toList ++ tailChars rest
  | path => tailChars path

/-- The path as in `users[2].name`. -/
def text (path : Path) : String :=
  String.ofList path.chars

def toJson (path : Path) : Json :=
  .array (path.map fun
    | .field key => .string key
    | .index i => .ofNat i)

end Path

end GraphQL
