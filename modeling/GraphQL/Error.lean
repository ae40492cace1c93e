import GraphQL.Path
import GraphQL.Position

/-!
# Errors of a response

An `Error` is an entry of the `errors` of a response. The failures that lead to one are types of
their own, each beside what can fail, and know how to become an entry.
-/

namespace GraphQL

/-- A message, the places of the document it is about, the value of the response it is about, and
further entries for programs to read. -/
structure Error where
  message : String
  locations : List Position
  path : Option Path
  extensions : List (String × Json)

namespace Error

/-- An error about nothing in particular. -/
def ofMessage (message : String) : Error :=
  ⟨message, [], none, []⟩

/-- An error about one place of the document. -/
def located (message : String) (pos : Position) : Error :=
  ⟨message, [pos], none, []⟩

/-- The same error, with an explanation of what is wrong with the value it is about. -/
def explained (e : Error) (explanation : String) : Error :=
  { e with extensions := e.extensions ++
      [("problems", .array [.object [("explanation", .string explanation)]])] }

/-- The same error, placed at a field and its value unless it has a place of its own. -/
def placed (e : Error) (pos : Position) (path : Path) : Error :=
  { e with
    locations := if e.locations.isEmpty then [pos] else e.locations
    path := some (e.path.getD path) }

def positionJson (p : Position) : Json :=
  .object [("line", .ofNat p.line), ("column", .ofNat p.column)]

/-- The error as an entry of a response; parts it lacks are left out. -/
def toJson (e : Error) : Json :=
  .object
    (("message", .string e.message) ::
      ((if e.locations.isEmpty then []
        else [("locations", .array (e.locations.map positionJson))]) ++
      (match e.path with
        | some path => [("path", path.toJson)]
        | none => []) ++
      (if e.extensions.isEmpty then [] else [("extensions", .object e.extensions)])))

end Error

/-- What a resolver can fail with: an error of its field alone, or a failure that makes everything
running with it meaningless. -/
inductive FieldError where
  | field (error : Error)
  | internal (message : String)

namespace FieldError

def ofMessage (message : String) : FieldError :=
  .field (.ofMessage message)

def message : FieldError → String
  | field e => e.message
  | internal message => message

end FieldError

end GraphQL
