import GraphQL.Resolver

/-!
# Basic resolvers and middleware

Resolvers that look at one thing of their context, ways to change what a resolver does, a loader
over a table, and middleware for tracing, access and recovery.
-/

namespace GraphQL

namespace FieldContext

def argument (ctx : FieldContext) (name : Name) : Json :=
  ((ctx.arguments.get? name).map Const.toJson).getD .null

def parentKey (ctx : FieldContext) (key : String) : Json :=
  (ctx.parent.field? key).getD .null

/-- A line that tells the field apart from all others of the response. -/
def summary (ctx : FieldContext) : String :=
  " ".intercalate [ctx.owner, ctx.name, ctx.item.name.node, (Field.responseKey ctx.item).node,
    Path.text ctx.path, ctx.variableValues.text, ctx.item.pos.text]

end FieldContext

namespace Resolution

/-- A value to be had later that leaves a trace when it is. -/
def traced (line : String) (outcome : Outcome Resolution) : Value :=
  .later (.trace line (.done outcome))

end Resolution

namespace Loader

/-- Loads keys from a table, and makes values up for keys that are in neither list. One key to be
refused fails the whole batch. -/
def table (label : String) (refused missing : List String) (value : String → Json) : Loader where
  traces keys := [s!"load {label} " ++ ",".intercalate keys]
  load keys :=
    match keys.find? refused.contains with
    | some key => .error (.ofMessage s!"load of {key} failed")
    | none =>
      .ok ((keys.filter fun key => !missing.contains key).map fun key => (key, value key))

end Loader

namespace Resolver

def value (v : Resolution.Value) : Resolver := fun _ =>
  .value v

def error (e : FieldError) : Resolver := fun _ =>
  .error e

/-- The value of an argument. -/
def argument (name : Name) : Resolver := fun ctx =>
  .json (ctx.argument name)

/-- The text of all arguments. -/
def argumentsText : Resolver := fun ctx =>
  .json (.string (Const.text (.object ctx.arguments)))

/-- The value of a key of the parent. -/
def parentKey (key : String) : Resolver := fun ctx =>
  .json (ctx.parentKey key)

def summary : Resolver := fun ctx =>
  .json (.string ctx.summary)

/-- The data of a type, which have to be there. -/
def data (type : Name) : Resolver := fun ctx =>
  match ctx.data? type with
  | some value => .json value
  | none => .error (.ofMessage s!"Data `{type}` does not exist.")

/-- The data of a type, or null. -/
def dataOrNull (type : Name) : Resolver := fun ctx =>
  .json ((ctx.data? type).getD .null)

/-- Adds entries to the response first. -/
def extending (entries : List (String × Json)) (r : Resolver) : Resolver := fun ctx =>
  entries.foldr (fun (key, value) next => .extend key value next) (r ctx)

/-- Forces everything deferred in the value. -/
def forced (r : Resolver) : Resolver := fun ctx =>
  (r ctx).settle .done

/-- Has the value be had later; an error is one now. -/
def deferred (r : Resolver) : Resolver := fun ctx =>
  (r ctx).andThen fun
    | .ok value => .value (Resolution.traced s!"deferred {Path.text ctx.path}" (.ok value))
    | .error e => .error e

/-- A key as text. -/
def keyText : Json → String
  | .string s => s
  | j => j.text

/-- The keys that a value names: the items of an array, or the one that it is. -/
def keysOf : Json → List String
  | .array items => items.map keyText
  | j => [keyText j]

/-- Loads the keys that are found in the context: all of them, or the first one. A null loads
nothing and is the value. -/
def load (kind : SourceKind) (loader : Loader) (many : Bool) (keys : FieldContext → Json) :
    Resolver := fun ctx =>
  let found := keys ctx
  if found.isNull then .json .null
  else if many then .loadMany kind loader (keysOf found)
  else .load kind loader ((keysOf found).head?.getD "")

/-- Leaves a trace of the field first. -/
def tracing (r : Resolver) : Resolver := fun ctx =>
  .trace s!"resolve {Path.text ctx.path}" (r ctx)

end Resolver

namespace Middleware

/-- What an outcome is, in a word. -/
def outcomeKind : Outcome Resolution → String
  | .ok (.leaf _) => "value"
  | .ok (.list _) => "list"
  | .ok (.later _) => "lazy"
  | .error _ => "error"

/-- Leaves traces before and after. -/
def log (label : String) : Middleware := fun ctx next =>
  let path := Path.text ctx.path
  .trace s!"{label} before {path}"
    (next.andThen fun outcome =>
      .trace s!"{label} after {path} {outcomeKind outcome}" (.done outcome))

/-- Puts a string in upper case. -/
def upper : Middleware := fun _ next =>
  next.andThen fun
    | .ok (.leaf (.string s)) => .json (.string (String.ofList (s.toList.map Text.upperAscii)))
    | outcome => .done outcome

/-- Refuses a field. -/
def deny (field : Name) : Middleware := fun ctx next =>
  if ctx.name = field then .error (.ofMessage "Not allowed") else next

/-- Gives a field a value of its own. -/
def replace (field : Name) (value : Json) : Middleware := fun ctx next =>
  if ctx.name = field then .json value else next

/-- Turns an error into its message. -/
def recover : Middleware := fun _ next =>
  next.andThen fun
    | .error e => .json (.string e.message)
    | outcome => .done outcome

/-- Has the value be had later; an error is one now. -/
def defer : Middleware := fun _ next =>
  next.andThen fun
    | .ok value => .value (.later (.value value))
    | .error e => .error e

/-- Counts the fields it stands around, and tells the response how many there were. -/
def count (kind key : String) : Middleware := fun _ next =>
  .count kind fun n => .extend key (.ofNat n) next

end Middleware

end GraphQL
