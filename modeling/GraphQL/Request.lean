import GraphQL.Variables

/-!
# Requests

A request asks for an operation of a document, with values for its variables. As JSON it is an
object of `query`, `operationName` and `variables`, or an array of the three.
-/

namespace GraphQL

/-- Values that resolvers can ask for, by the name of their type. -/
abbrev Data :=
  Assoc Json

structure Request where
  query : String
  operationName : Option Name
  variableValues : Variables
  /-- The file the query was read from, named in front of what is wrong with it. -/
  filename : Option String
  data : Data

namespace Request

/-- A request for the only operation of a document without variables. -/
def ofQuery (query : String) : Request :=
  ⟨query, none, .empty, none, []⟩

/-- The text of the query; empty when it is left out. -/
def readQuery : Option Json → Option String
  | none => some ""
  | some (.string s) => some s
  | some _ => none

/-- The name of the operation; none when it is left out or null. -/
def readName : Option Json → Option (Option Name)
  | none => some none
  | some .null => some none
  | some (.string s) => some (some s)
  | some _ => none

/-- A request of its three parts, each of which may be left out. -/
def ofParts? (query name values : Option Json) : Option Request := do
  let query ← readQuery query
  let name ← readName name
  pure ⟨query, name, (values.map Variables.ofJson).getD .empty, none, []⟩

/-- Reads a request. Keys with no meaning are allowed, items of no meaning are not. -/
def ofJson? : Json → Option Request
  | .object fields =>
    ofParts? (Assoc.get? fields "query") (Assoc.get? fields "operationName")
      (Assoc.get? fields "variables")
  | .array items =>
    if items.length ≤ 3 then ofParts? items[0]? items[1]? items[2]? else none
  | _ => none

def toJson (r : Request) : Json :=
  .object [("query", .string r.query),
    ("operationName", r.operationName.elim .null .string),
    ("variables", r.variableValues.toJson)]

end Request

end GraphQL
