import GraphQL.Registry

/-!
# Well-formed registries

What is wrong with a registry, in the order in which it is looked through: the root types, then
each type with its interfaces or members, its fields and their arguments. A registry is well
formed when nothing is.
-/

namespace GraphQL

inductive SchemaError where
  | missingRoot (operation : OperationKind) (name : Name)
  | invalidRoot (operation : OperationKind) (name : Name)
  | unknownType (owner field type : Name)
  | notAnOutput (owner field type : Name)
  | notAnInput (owner field argument type : Name)
  | unknownInterface (object interface : Name)
  | invalidMember (union member : Name)

def SchemaError.message : SchemaError → String
  | missingRoot operation name => s!"The {operation.text} root type {name} is not registered"
  | invalidRoot operation name => s!"The {operation.text} root type {name} must be an object type"
  | unknownType owner field type => s!"{owner}.{field} refers to the unknown type {type}"
  | notAnOutput owner field type =>
    s!"{owner}.{field} must return an output type but {type} is an input object"
  | notAnInput owner field argument type =>
    s!"Argument {argument} of {owner}.{field} must be an input type but {type} is not"
  | unknownInterface object interface =>
    s!"{object} implements {interface}, which is not a registered interface"
  | invalidMember union member =>
    s!"Union {union} includes {member}, which is not a registered object type"

namespace Registry

variable {ρ : Type}

/-- A root type has to be a registered object type. -/
def rootProblems (r : Registry ρ) (operation : OperationKind) : List SchemaError :=
  match r.root? operation with
  | none => []
  | some name =>
    match r.lookup name with
    | none => [.missingRoot operation name]
    | some spec => if spec.isObject then [] else [.invalidRoot operation name]

/-- The type of an argument has to be a registered input type. -/
def inputProblems (r : Registry ρ) (owner field argument : Name) (type : TypeRef) :
    List SchemaError :=
  match r.lookup type.innermost with
  | none => [.unknownType owner field type.innermost]
  | some spec => if spec.isInput then [] else [.notAnInput owner field argument type.innermost]

/-- The type of a field has to be a registered type other than an input object. -/
def outputProblems (r : Registry ρ) (owner field : Name) (type : TypeRef) : List SchemaError :=
  match r.lookup type.innermost with
  | none => [.unknownType owner field type.innermost]
  | some (.input _) => [.notAnOutput owner field type.innermost]
  | some _ => []

def fieldProblems (r : Registry ρ) (owner : Name) (fields : Assoc (FieldSpec ρ)) :
    List SchemaError :=
  fields.flatMap fun (name, field) =>
    r.outputProblems owner name field.type ++
      field.arguments.flatMap fun (argument, spec) => r.inputProblems owner name argument spec.type

def typeProblems (r : Registry ρ) (name : Name) : TypeSpec ρ → List SchemaError
  | .object interfaces fields =>
    (interfaces.filterMap fun interface =>
      if r.isKind TypeSpec.isInterface interface then none
      else some (.unknownInterface name interface)) ++ r.fieldProblems name fields
  | .interface fields _ => r.fieldProblems name fields
  | .union members _ =>
    members.filterMap fun member =>
      if r.isKind TypeSpec.isObject member then none else some (.invalidMember name member)
  | .input fields =>
    fields.flatMap fun (field, spec) => r.inputProblems name field field spec.type
  | .scalar _ | .enum _ => []

/-- All that is wrong with a registry. -/
def problems (r : Registry ρ) : List SchemaError :=
  r.rootProblems .query ++ r.rootProblems .mutation ++ r.rootProblems .subscription ++
    r.types.flatMap fun (name, spec) => r.typeProblems name spec

/-- The first thing that is wrong with a registry. -/
def check (r : Registry ρ) : Option SchemaError :=
  r.problems.head?

end Registry

end GraphQL
