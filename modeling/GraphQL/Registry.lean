import GraphQL.Document
import GraphQL.Scalar

/-!
# Type registries

A registry holds the types of a schema under their names, in the order of registration, and says
which object types are the roots of the operations. What computes the values of a field is of any
type `ρ`; the registry only carries it.
-/

namespace GraphQL

/-- An argument of a field, or a field of an input object. A default is an accepted value as it
stands. -/
structure InputSpec where
  description : Option String
  type : TypeRef
  default : Option Const

/-- A field of an object type or an interface. -/
structure FieldSpec (ρ : Type) where
  description : Option String
  arguments : Assoc InputSpec
  type : TypeRef
  resolver : Option ρ

/-- How the object type of a value is found. Without a rule of its own, it is named by the key
`__typename` of the value. -/
abbrev TypeRule :=
  Option (Json → Option Name)

/-- A type, apart from its name. -/
inductive TypeSpec (ρ : Type) where
  | scalar (builtin : Option Scalar)
  | object (interfaces : List Name) (fields : Assoc (FieldSpec ρ))
  | interface (fields : Assoc (FieldSpec ρ)) (rule : TypeRule)
  | union (members : List Name) (rule : TypeRule)
  | enum (values : List Name)
  | input (fields : Assoc InputSpec)

namespace TypeSpec

variable {ρ : Type}

def field? : TypeSpec ρ → Name → Option (FieldSpec ρ)
  | object _ fields, name => fields.get? name
  | interface fields _, name => fields.get? name
  | _, _ => none

def isObject : TypeSpec ρ → Bool
  | object _ _ => true
  | _ => false

def isInterface : TypeSpec ρ → Bool
  | interface _ _ => true
  | _ => false

/-- Whether selections can be made on the type. -/
def isComposite : TypeSpec ρ → Bool
  | object _ _ | interface _ _ | union _ _ => true
  | _ => false

/-- Whether variables and arguments can be of the type. -/
def isInput : TypeSpec ρ → Bool
  | scalar _ | enum _ | input _ => true
  | _ => false

/-- Whether values of the type are of one of several object types. -/
def isAbstract : TypeSpec ρ → Bool
  | interface _ _ | union _ _ => true
  | _ => false

/-- Whether the type is an object type that implements the interface. -/
def implements (interface : Name) : TypeSpec ρ → Bool
  | object interfaces _ => interfaces.contains interface
  | _ => false

/-- The type with no name twice in a list of names. -/
def distinct : TypeSpec ρ → TypeSpec ρ
  | object interfaces fields => object (Name.distinct interfaces) fields
  | union members rule => union (Name.distinct members) rule
  | enum values => enum (Name.distinct values)
  | spec => spec

end TypeSpec

/-- Types by name, and the root types of the operations. -/
structure Registry (ρ : Type) where
  types : Assoc (TypeSpec ρ)
  query : Name
  mutation : Option Name
  subscription : Option Name

namespace Registry

variable {ρ : Type}

/-- The registry of the built-in scalars. -/
def initial : Registry ρ :=
  ⟨Scalar.all.map fun s => (s.name, .scalar (some s)), "Query", none, none⟩

/-- Adds a type, whose lists name nothing twice; one of the same name is replaced at its place. -/
def insert (r : Registry ρ) (name : Name) (spec : TypeSpec ρ) : Registry ρ :=
  { r with types := r.types.insert name spec.distinct }

def lookup (r : Registry ρ) (name : Name) : Option (TypeSpec ρ) :=
  r.types.get? name

def field? (r : Registry ρ) (type field : Name) : Option (FieldSpec ρ) :=
  (r.lookup type).bind fun spec => spec.field? field

/-- Whether the name is that of a type that the test holds of. -/
def isKind (r : Registry ρ) (test : TypeSpec ρ → Bool) (name : Name) : Bool :=
  match r.lookup name with
  | some spec => test spec
  | none => false

/-- The root type of a kind of operation. -/
def root? (r : Registry ρ) : OperationKind → Option Name
  | .query => some r.query
  | .mutation => r.mutation
  | .subscription => r.subscription

/-- The object types that values of a type can be of: the implementors of an interface in the
order of registration, the members of a union in their own. -/
def possibleTypes (r : Registry ρ) (name : Name) : List Name :=
  match r.lookup name with
  | some (.object _ _) => [name]
  | some (.interface _ _) => (r.types.filter fun entry => entry.2.implements name).map Prod.fst
  | some (.union members _) => members
  | _ => []

/-- Whether values of a type can be of an object type. -/
def isPossible (r : Registry ρ) (name object : Name) : Bool :=
  match r.lookup name with
  | some (.object _ _) => name = object
  | some (.interface _ _) => r.isKind (TypeSpec.implements name) object
  | some (.union members _) => members.contains object
  | _ => false

/-- What a rule makes of a value. -/
def applyRule (rule : TypeRule) (value : Json) : Option Name :=
  match rule with
  | some rule => rule value
  | none => (value.field? "__typename").bind Json.string?

/-- The object type of a value of a type, always one of the possible types. -/
def concreteType (r : Registry ρ) (name : Name) (value : Json) : Option Name :=
  match r.lookup name with
  | some (.object _ _) => some name
  | some (.interface _ rule) => (applyRule rule value).filter (r.isPossible name)
  | some (.union _ rule) => (applyRule rule value).filter (r.isPossible name)
  | _ => none

end Registry

end GraphQL
