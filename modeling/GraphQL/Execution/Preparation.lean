import GraphQL.Config
import GraphQL.Document.Parser.TypeSystem
import GraphQL.Plan.Build
import GraphQL.Request

/-!
# Before a query begins

A request is ready to begin once its document is read, its operation chosen, its variables coerced
and its plan built, and the plan keeps to the limits of the schema.
-/

namespace GraphQL

/-- Why a request is refused, other than for its document, its variables or its plan. -/
inductive Refusal where
  | noQuery
  | unknownOperation (name : Name)
  | ambiguousOperation
  | complexity (found limit : Nat)
  | depth (found limit : Nat)

namespace Refusal

def message : Refusal → String
  | noQuery => "No query string was present"
  | unknownOperation name => s!"No operation named \"{name}\""
  | ambiguousOperation => "An operation name is required"
  | complexity found limit =>
    s!"Query has complexity of {found}, which exceeds max complexity of {limit}"
  | depth found limit => s!"Query has depth of {found}, which exceeds max depth of {limit}"

def toErrors (r : Refusal) : List Error :=
  [.ofMessage r.message]

end Refusal

/-- The error of a document that cannot be read. -/
def ParseError.toError (e : ParseError) : Error :=
  .located e.message e.pos

/-- What a query runs by. -/
structure Prepared where
  variableValues : Variables
  plan : Plan

namespace Document

/-- The operation of a name, or the only one. A document may have none when no name is given. -/
def select (d : Document) (name : Option Name) : Except Refusal (Option Operation) :=
  match name with
  | some name =>
    match d.operations.find? fun o => o.name.map Located.node = some name with
    | some o => .ok (some o)
    | none => .error (.unknownOperation name)
  | none =>
    match d.operations with
    | [] => .ok none
    | [o] => .ok (some o)
    | _ => .error .ambiguousOperation

end Document

namespace Config

/-- Whether something exceeds a limit, and which. -/
def exceeded (limit : Option Nat) (found : Nat) : Option Nat :=
  limit.filter fun limit => limit < found

/-- How a plan goes beyond the limits. -/
def refusal? (config : Config) (plan : Plan) : Option Refusal :=
  match exceeded config.maxComplexity plan.complexity with
  | some limit => some (.complexity plan.complexity limit)
  | none => (exceeded config.maxDepth plan.depth).map (.depth plan.depth)

end Config

namespace Request

/-- Reads the document of a request. -/
def document (r : Request) : Except (List Error) Document :=
  if r.query.toList.all Text.isBlank then .error Refusal.noQuery.toErrors
  else
    match Document.parse r.query r.filename with
    | .ok d => .ok d
    | .error e => .error [e.toError]

/-- Prepares an operation to run with values for its variables. -/
def prepareOperation {ρ : Type} (registry : Registry ρ) (config : Config) (d : Document)
    (o : Operation) (provided : Variables) : Except (List Error) Prepared := do
  let values ← registry.coerceVariables o.variableDefinitions provided
  match Plan.build ⟨registry, d, values, config.introspectTypename⟩ o with
  | .error problems => .error (problems.map PlanError.toError)
  | .ok plan =>
    match config.refusal? plan with
    | some refusal => .error refusal.toErrors
    | none => .ok ⟨values, plan⟩

/-- What a request runs by, or all that is wrong with it. A document without operations has
nothing to run. -/
def prepare {ρ : Type} (registry : Registry ρ) (config : Config) (r : Request) :
    Except (List Error) (Option Prepared) := do
  let d ← r.document
  match d.select r.operationName with
  | .error refusal => .error refusal.toErrors
  | .ok none => .ok none
  | .ok (some o) => do
    let prepared ← prepareOperation registry config d o r.variableValues
    pure (some prepared)

end Request

end GraphQL
