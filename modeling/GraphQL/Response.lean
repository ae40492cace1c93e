import GraphQL.Error

/-!
# Responses

The answer to a request: the data that were computed, the errors, and the entries that resolvers
added. A request that was refused before it began has no data.
-/

namespace GraphQL

structure Response where
  data : Option Json
  errors : List Error
  extensions : Assoc Json

namespace Response

/-- The response to a document without operations. -/
def empty : Response :=
  ⟨none, [], []⟩

/-- The response to a request that is refused. -/
def refused (errors : List Error) : Response :=
  ⟨none, errors, []⟩

def isOk (r : Response) : Bool :=
  r.errors.isEmpty

/-- The response as JSON, without the parts that are absent or empty. -/
def toJson (r : Response) : Json :=
  .object
    ((match r.data with
        | some data => [("data", data)]
        | none => []) ++
      ((if r.errors.isEmpty then [] else [("errors", .array (r.errors.map Error.toJson))]) ++
      (if r.extensions.isEmpty then [] else [("extensions", .object r.extensions)])))

end Response

end GraphQL
