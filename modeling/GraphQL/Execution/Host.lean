import GraphQL.Error
import GraphQL.Request
import GraphQL.Document
import GraphQL.Tree

/-!
# Hosts

Execution asks a host for the values of fields. A host has a world of its own, in which resolvers
leave traces and lazies and jobs live; execution does not look into it, but says when fields are
resolved, when lazies are forced, and when jobs get their turn. A host that runs jobs on its own, from
inside of a call, is a `QueueHost`.
-/

namespace GraphQL

/-- What a resolver gets to know of the field it resolves. -/
structure FieldContext where
  /-- The object type the field is selected on. -/
  owner : Name
  /-- The name of the field in its type. -/
  name : Name
  /-- The value of the object the field is selected on. -/
  parent : Json
  /-- The arguments, with defaults for those that are not given. -/
  arguments : Assoc Const
  path : Path
  /-- The first of the fields of the document that are merged into this one. -/
  item : Field
  variableValues : Variables
  /-- The data of the request, of what runs together, and of the schema. -/
  data : List Data

namespace FieldContext

/-- The data of a type; those of the request come first, those of the schema last. -/
def data? (ctx : FieldContext) (type : Name) : Option Json :=
  ctx.data.findSome? fun data => data.get? type

/-- The value of the key that the parent has for the field, which a field without a resolver
has. -/
def ofParent (ctx : FieldContext) : Json :=
  (ctx.parent.field? ctx.name).getD .null

end FieldContext

/-- The value of a field, with lazies of type `L`. -/
abbrev FieldValue (L : Type) :=
  Tree Json L

namespace FieldValue

mutual

/-- The JSON of a value without deferred parts. -/
def toJson? {L : Type} : FieldValue L → Option Json
  | .leaf value => some value
  | .list items => (itemsJson? items).map .array
  | .later _ => none

def itemsJson? {L : Type} : List (FieldValue L) → Option (List Json)
  | [] => some []
  | item :: rest => do
    let item ← toJson? item
    let rest ← itemsJson? rest
    pure (item :: rest)

end

end FieldValue

/-- What resolving a field or forcing a lazy gives. -/
abbrev Outcome (L : Type) :=
  Except FieldError (FieldValue L)

/-- What computes values: resolvers in `ρ`, lazies in `L`, and a world in `W`. -/
structure Host (ρ L W : Type) where
  /-- Resolves a field, by its resolver if it has one. The entries are those the response of the
  field's query has so far, and those it has afterwards. -/
  resolve : Option ρ → FieldContext → Assoc Json → W → Outcome L × Assoc Json × W
  /-- The result of a lazy. -/
  force : L → W → Outcome L × W
  /-- Runs the jobs that wait, but not those that they queue. -/
  turn : W → W
  /-- Runs jobs until none is left. -/
  drain : W → W

end GraphQL
