import GraphQL.Position
import GraphQL.TypeRef
import GraphQL.Value

/-!
# Documents

The parts of a document, each with the position of its first token: operations and fragments to
be executed, and definitions of a type system.
-/

namespace GraphQL

/-- An argument of a field or a directive. -/
structure Argument (ν : Type) where
  name : Located Name
  value : Located (Value ν)

/-- The value of the first argument with the name. -/
def Argument.find? {ν : Type} (arguments : List (Argument ν)) (name : Name) :
    Option (Located (Value ν)) :=
  (arguments.find? fun a => a.name.node = name).map Argument.value

/-- A directive; where a type system is defined, its arguments are constants. -/
structure Directive (ν : Type) where
  pos : Position
  name : Located Name
  arguments : List (Argument ν)

namespace Directive

/-- The same directive with constant arguments, if it has no variables. -/
def toConst? (d : Directive Name) : Option (Directive Empty) := do
  let arguments ← d.arguments.mapM fun a => do
    let value ← a.value.node.toConst?
    pure (⟨a.name, ⟨a.value.pos, value⟩⟩ : Argument Empty)
  pure ⟨d.pos, d.name, arguments⟩

/-- A directive with constant arguments as one that could have variables. -/
def ofConst (d : Directive Empty) : Directive Name :=
  ⟨d.pos, d.name, d.arguments.map fun a => ⟨a.name, a.value.map Value.ofConst⟩⟩

end Directive

/-- Items between braces. -/
structure Block (σ : Type) where
  pos : Position
  items : List σ

/-- A field whose own selections are of type `σ`. Without braces these are empty and placed at
the token after the field. -/
structure FieldOf (σ : Type) where
  pos : Position
  aliasName : Option (Located Name)
  name : Located Name
  arguments : List (Argument Name)
  directives : List (Directive Name)
  selections : Block σ

/-- The place of a named fragment. -/
structure FragmentSpread where
  pos : Position
  name : Located Name
  directives : List (Directive Name)

/-- The keyword `on` and the type after it. -/
structure TypeCondition where
  pos : Position
  on : Located Name

/-- A fragment without a name whose selections are of type `σ`. -/
structure InlineFragmentOf (σ : Type) where
  pos : Position
  condition : Option TypeCondition
  directives : List (Directive Name)
  selections : Block σ

/-- What can be selected on a type. -/
inductive Selection where
  | field (field : FieldOf Selection)
  | spread (spread : FragmentSpread)
  | inline (fragment : InlineFragmentOf Selection)

abbrev Field :=
  FieldOf Selection

abbrev InlineFragment :=
  InlineFragmentOf Selection

abbrev SelectionSet :=
  Block Selection

namespace Field

/-- The key of the field in the response: its alias, or its name. -/
def responseKey (f : Field) : Located Name :=
  f.aliasName.getD f.name

def argument? (f : Field) (name : Name) : Option (Located Literal) :=
  Argument.find? f.arguments name

end Field

namespace Selection

def pos : Selection → Position
  | field f => f.pos
  | spread s => s.pos
  | inline f => f.pos

def directives : Selection → List (Directive Name)
  | field f => f.directives
  | spread s => s.directives
  | inline f => f.directives

end Selection

inductive OperationKind where
  | query
  | mutation
  | subscription
  deriving DecidableEq

def OperationKind.text : OperationKind → String
  | query => "query"
  | mutation => "mutation"
  | subscription => "subscription"

structure VariableDefinition where
  pos : Position
  name : Located Name
  type : Located TypeRef
  default : Option (Located Const)
  directives : List (Directive Empty)

structure Operation where
  pos : Position
  kind : OperationKind
  name : Option (Located Name)
  variableDefinitions : List VariableDefinition
  directives : List (Directive Name)
  selections : SelectionSet

structure Fragment where
  pos : Position
  name : Option (Located Name)
  condition : TypeCondition
  directives : List (Directive Name)
  selections : SelectionSet

/-- An argument of a field definition or a directive definition, or a field of an input type. -/
structure InputValueDefinition where
  pos : Position
  description : Option (Located String)
  name : Located Name
  type : Located TypeRef
  default : Option (Located Const)
  directives : List (Directive Empty)

structure FieldDefinition where
  pos : Position
  description : Option (Located String)
  name : Located Name
  arguments : List InputValueDefinition
  type : Located TypeRef
  directives : List (Directive Empty)

structure EnumValueDefinition where
  pos : Position
  description : Option (Located String)
  value : Located Name
  directives : List (Directive Empty)

/-- The root types of the operations. -/
structure SchemaDefinition where
  pos : Position
  description : Option (Located String)
  directives : List (Directive Empty)
  query : Option (Located Name)
  mutation : Option (Located Name)
  subscription : Option (Located Name)

/-- What a type definition says about its kind of type. -/
inductive TypeBody where
  | scalar
  | object (implements : List (Located Name)) (fields : List FieldDefinition)
  | interface (implements : List (Located Name)) (fields : List FieldDefinition)
  | union (members : List (Located Name))
  | enum (values : List EnumValueDefinition)
  | input (fields : List InputValueDefinition)

/-- The keyword that starts the definition of a type. -/
def TypeBody.keyword : TypeBody → String
  | scalar => "scalar"
  | object _ _ => "type"
  | interface _ _ => "interface"
  | union _ => "union"
  | enum _ => "enum"
  | input _ => "input"

structure TypeDefinition where
  pos : Position
  description : Option (Located String)
  name : Located Name
  directives : List (Directive Empty)
  body : TypeBody

/-- Where a directive may stand. -/
inductive DirectiveLocation where
  | query
  | mutation
  | subscription
  | field
  | fragmentDefinition
  | fragmentSpread
  | inlineFragment
  | variableDefinition
  | schema
  | scalar
  | object
  | fieldDefinition
  | argumentDefinition
  | interface
  | union
  | enum
  | enumValue
  | inputObject
  | inputFieldDefinition
  deriving DecidableEq

namespace DirectiveLocation

/-- All locations with their names in documents. -/
def names : List (String × DirectiveLocation) :=
  [("QUERY", query), ("MUTATION", mutation), ("SUBSCRIPTION", subscription), ("FIELD", field),
    ("FRAGMENT_DEFINITION", fragmentDefinition), ("FRAGMENT_SPREAD", fragmentSpread),
    ("INLINE_FRAGMENT", inlineFragment), ("VARIABLE_DEFINITION", variableDefinition),
    ("SCHEMA", schema), ("SCALAR", scalar), ("OBJECT", object),
    ("FIELD_DEFINITION", fieldDefinition), ("ARGUMENT_DEFINITION", argumentDefinition),
    ("INTERFACE", interface), ("UNION", union), ("ENUM", enum), ("ENUM_VALUE", enumValue),
    ("INPUT_OBJECT", inputObject), ("INPUT_FIELD_DEFINITION", inputFieldDefinition)]

def ofName? (name : String) : Option DirectiveLocation :=
  (names.find? fun p => p.1 = name).map Prod.snd

def text (location : DirectiveLocation) : String :=
  ((names.find? fun p => p.2 = location).map Prod.fst).getD ""

end DirectiveLocation

structure DirectiveDefinition where
  pos : Position
  description : Option (Located String)
  name : Located Name
  arguments : List InputValueDefinition
  locations : List (Located DirectiveLocation)

inductive Definition where
  | operation (operation : Operation)
  | fragment (fragment : Fragment)
  | schema (schema : SchemaDefinition)
  | type (type : TypeDefinition)
  | directive (directive : DirectiveDefinition)

/-- A document and the file it was read from, if any. -/
structure Document where
  definitions : List Definition
  filename : Option String

namespace Document

def operations (d : Document) : List Operation :=
  d.definitions.filterMap fun
    | .operation o => some o
    | _ => none

def fragments (d : Document) : List Fragment :=
  d.definitions.filterMap fun
    | .fragment f => some f
    | _ => none

def types (d : Document) : List TypeDefinition :=
  d.definitions.filterMap fun
    | .type t => some t
    | _ => none

/-- The first fragment with the name. -/
def fragment? (d : Document) (name : Name) : Option Fragment :=
  d.fragments.find? fun f =>
    match f.name with
    | some n => n.node = name
    | none => false

end Document

end GraphQL
