import GraphQL.Document.Parser

/-!
# Documents that can be written

A document has a source if its names are valid, its integers fit 64 bits, its parts do not nest too
deeply, and no name stands where its text means something else. `Writable` says so of each part; what
may nest has the number of levels left as an index. The level of a value is its own, whatever it
holds has one less.
-/

namespace GraphQL

variable {ν : Type}

inductive Value.Writable (ok : ν → Prop) : Nat → Value ν → Prop where
  | var {levels : Nat} {x : ν} : ok x → Writable ok (levels + 1) (.variable x)
  | null {levels : Nat} : Writable ok (levels + 1) .null
  | int {levels : Nat} {i : Int} : Number.isInt64 i = true →
      Writable ok (levels + 1) (.number (.int i))
  | double {levels : Nat} {x : Binary64} : Writable ok (levels + 1) (.number (.double x))
  | string {levels : Nat} {s : String} : Writable ok (levels + 1) (.string s)
  | bool {levels : Nat} {b : Bool} : Writable ok (levels + 1) (.bool b)
  | enum {levels : Nat} {name : Name} : name.isValid = true → name ∉ ["true", "false", "null"] →
      Writable ok (levels + 1) (.enum name)
  | list {levels : Nat} {items : List (Value ν)} : (∀ item ∈ items, Writable ok levels item) →
      Writable ok (levels + 1) (.list items)
  | object {levels : Nat} {fields : List (Name × Value ν)} : (fields.map Prod.fst).Nodup →
      (∀ f ∈ fields, f.1.isValid = true) → (∀ f ∈ fields, Writable ok levels f.2) →
      Writable ok (levels + 1) (.object fields)

/-- A literal whose variables have valid names. -/
abbrev Literal.Writable (levels : Nat) (v : Literal) : Prop :=
  Value.Writable (fun name => Name.isValid name = true) levels v

abbrev Const.Writable (levels : Nat) (v : Const) : Prop :=
  Value.Writable (fun _ => True) levels v

inductive TypeRef.Writable : Nat → TypeRef → Prop where
  | named {levels : Nat} {name : Name} {nullable : Bool} : name.isValid = true →
      Writable (levels + 1) (.named name nullable)
  | list {levels : Nat} {item : TypeRef} {nullable : Bool} : Writable levels item →
      Writable (levels + 1) (.list item nullable)

structure Argument.Writable (ok : ν → Prop) (levels : Nat) (a : Argument ν) : Prop where
  name : a.name.node.isValid = true
  value : a.value.node.Writable ok levels

structure Directive.Writable (ok : ν → Prop) (levels : Nat) (d : Directive ν) : Prop where
  name : d.name.node.isValid = true
  arguments : ∀ a ∈ d.arguments, a.Writable ok levels

/-- Directives with variables, their values below so many levels. -/
abbrev DirectivesWritable (levels : Nat) (ds : List (Directive Name)) : Prop :=
  ∀ d ∈ ds, d.Writable (fun name => Name.isValid name = true) levels

abbrev ConstDirectivesWritable (ds : List (Directive Empty)) : Prop :=
  ∀ d ∈ ds, d.Writable (fun _ => True) nestingLimit

/-- Selections nest like values, and the values in them count from their level. -/
inductive Selection.Writable : Nat → Selection → Prop where
  | field {levels : Nat} {f : Field} : (∀ name ∈ f.aliasName, name.node.isValid = true) →
      f.name.node.isValid = true →
      (∀ a ∈ f.arguments, a.Writable (fun name => Name.isValid name = true) levels) →
      DirectivesWritable levels f.directives → (f.selections.items ≠ [] → 0 < levels) →
      (∀ item ∈ f.selections.items, Writable (levels - 1) item) → Writable levels (.field f)
  | spread {levels : Nat} {s : FragmentSpread} : s.name.node.isValid = true → s.name.node ≠ "on" →
      DirectivesWritable levels s.directives → Writable levels (.spread s)
  | inline {levels : Nat} {f : InlineFragment} : (∀ c ∈ f.condition, c.on.node.isValid = true) →
      DirectivesWritable (levels + 1) f.directives →
      (∀ item ∈ f.selections.items, Writable levels item) → Writable (levels + 1) (.inline f)

/-- Selections outside of any others. -/
def SelectionSet.Writable (s : SelectionSet) : Prop :=
  ∀ item ∈ s.items, item.Writable (nestingLimit - 1)

structure VariableDefinition.Writable (v : VariableDefinition) : Prop where
  name : v.name.node.isValid = true
  type : v.type.node.Writable nestingLimit
  default : ∀ value ∈ v.default, Const.Writable nestingLimit value.node
  directives : ConstDirectivesWritable v.directives

structure Operation.Writable (o : Operation) : Prop where
  name : ∀ name ∈ o.name, name.node.isValid = true
  variableDefinitions : ∀ v ∈ o.variableDefinitions, v.Writable
  directives : DirectivesWritable nestingLimit o.directives
  selections : o.selections.Writable

/-- Without a name the type must not be `on`, which would be taken for the name. -/
structure Fragment.Writable (f : Fragment) : Prop where
  name : ∀ name ∈ f.name, name.node.isValid = true
  condition : f.condition.on.node.isValid = true
  anonymous : f.name = none → f.condition.on.node ≠ "on"
  directives : DirectivesWritable nestingLimit f.directives
  selections : f.selections.Writable

structure InputValueDefinition.Writable (v : InputValueDefinition) : Prop where
  name : v.name.node.isValid = true
  type : v.type.node.Writable nestingLimit
  default : ∀ value ∈ v.default, Const.Writable nestingLimit value.node
  directives : ConstDirectivesWritable v.directives

structure FieldDefinition.Writable (f : FieldDefinition) : Prop where
  name : f.name.node.isValid = true
  arguments : ∀ a ∈ f.arguments, a.Writable
  type : f.type.node.Writable nestingLimit
  directives : ConstDirectivesWritable f.directives

structure EnumValueDefinition.Writable (v : EnumValueDefinition) : Prop where
  value : v.value.node.isValid = true
  directives : ConstDirectivesWritable v.directives

structure SchemaDefinition.Writable (s : SchemaDefinition) : Prop where
  directives : ConstDirectivesWritable s.directives
  query : ∀ name ∈ s.query, name.node.isValid = true
  mutation : ∀ name ∈ s.mutation, name.node.isValid = true
  subscription : ∀ name ∈ s.subscription, name.node.isValid = true

inductive TypeBody.Writable : TypeBody → Prop where
  | scalar : Writable .scalar
  | object {interfaces : List (Located Name)} {fields : List FieldDefinition} :
      (∀ name ∈ interfaces, name.node.isValid = true) → (∀ f ∈ fields, f.Writable) →
      Writable (.object interfaces fields)
  | interface {interfaces : List (Located Name)} {fields : List FieldDefinition} :
      (∀ name ∈ interfaces, name.node.isValid = true) → (∀ f ∈ fields, f.Writable) →
      Writable (.interface interfaces fields)
  | union {members : List (Located Name)} : (∀ name ∈ members, name.node.isValid = true) →
      Writable (.union members)
  | enum {values : List EnumValueDefinition} : (∀ v ∈ values, v.Writable) → Writable (.enum values)
  | input {fields : List InputValueDefinition} : (∀ f ∈ fields, f.Writable) →
      Writable (.input fields)

structure TypeDefinition.Writable (t : TypeDefinition) : Prop where
  name : t.name.node.isValid = true
  directives : ConstDirectivesWritable t.directives
  body : t.body.Writable

structure DirectiveDefinition.Writable (d : DirectiveDefinition) : Prop where
  name : d.name.node.isValid = true
  arguments : ∀ a ∈ d.arguments, a.Writable
  locations : d.locations ≠ []

def Definition.Writable : Definition → Prop
  | .operation o => o.Writable
  | .fragment f => f.Writable
  | .schema s => s.Writable
  | .type t => t.Writable
  | .directive d => d.Writable

end GraphQL
