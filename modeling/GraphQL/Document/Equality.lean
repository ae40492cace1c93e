import GraphQL.Document

/-!
# Documents up to positions

`Document.same` compares what two documents say and which file they come from, but not where
their parts stand. Values are compared as values: neither the order of the fields of an object nor
the sign of a zero matters.
-/

namespace GraphQL

/-- Whether two lists have the same length and agree item by item. -/
def sameList {α : Type} (same : α → α → Bool) : List α → List α → Bool
  | [], [] => true
  | x :: xs, y :: ys => same x y && sameList same xs ys
  | _, _ => false

/-- Whether both are absent, or present and in agreement. -/
def sameOption {α : Type} (same : α → α → Bool) : Option α → Option α → Bool
  | none, none => true
  | some x, some y => same x y
  | _, _ => false

namespace Located

variable {α : Type}

def same [DecidableEq α] (x y : Located α) : Bool :=
  x.node = y.node

def sameBy (same : α → α → Bool) (x y : Located α) : Bool :=
  same x.node y.node

end Located

def Argument.same {ν : Type} [DecidableEq ν] (a b : Argument ν) : Bool :=
  a.name.same b.name && a.value.sameBy Value.same b.value

def Directive.same {ν : Type} [DecidableEq ν] (a b : Directive ν) : Bool :=
  a.name.same b.name && sameList Argument.same a.arguments b.arguments

def FragmentSpread.same (a b : FragmentSpread) : Bool :=
  a.name.same b.name && sameList Directive.same a.directives b.directives

def TypeCondition.same (a b : TypeCondition) : Bool :=
  a.on.same b.on

mutual

def Selection.same : Selection → Selection → Bool
  | .field ⟨_, aliasName, name, args, dirs, ⟨_, items⟩⟩, .field g =>
    sameOption Located.same aliasName g.aliasName && name.same g.name &&
      sameList Argument.same args g.arguments && sameList Directive.same dirs g.directives &&
      sameSelections items g.selections.items
  | .spread s, .spread t => s.same t
  | .inline ⟨_, condition, dirs, ⟨_, items⟩⟩, .inline g =>
    sameOption TypeCondition.same condition g.condition &&
      sameList Directive.same dirs g.directives && sameSelections items g.selections.items
  | _, _ => false

def sameSelections : List Selection → List Selection → Bool
  | [], [] => true
  | x :: xs, y :: ys => x.same y && sameSelections xs ys
  | _, _ => false

end

def SelectionSet.same (a b : SelectionSet) : Bool :=
  sameSelections a.items b.items

def VariableDefinition.same (a b : VariableDefinition) : Bool :=
  a.name.same b.name && a.type.same b.type &&
    sameOption (Located.sameBy Value.same) a.default b.default &&
    sameList Directive.same a.directives b.directives

def Operation.same (a b : Operation) : Bool :=
  a.kind = b.kind && sameOption Located.same a.name b.name &&
    sameList VariableDefinition.same a.variableDefinitions b.variableDefinitions &&
    sameList Directive.same a.directives b.directives && SelectionSet.same a.selections b.selections

def Fragment.same (a b : Fragment) : Bool :=
  sameOption Located.same a.name b.name && a.condition.same b.condition &&
    sameList Directive.same a.directives b.directives && SelectionSet.same a.selections b.selections

def InputValueDefinition.same (a b : InputValueDefinition) : Bool :=
  sameOption Located.same a.description b.description && a.name.same b.name &&
    a.type.same b.type && sameOption (Located.sameBy Value.same) a.default b.default &&
    sameList Directive.same a.directives b.directives

def FieldDefinition.same (a b : FieldDefinition) : Bool :=
  sameOption Located.same a.description b.description && a.name.same b.name &&
    sameList InputValueDefinition.same a.arguments b.arguments && a.type.same b.type &&
    sameList Directive.same a.directives b.directives

def EnumValueDefinition.same (a b : EnumValueDefinition) : Bool :=
  sameOption Located.same a.description b.description && a.value.same b.value &&
    sameList Directive.same a.directives b.directives

def SchemaDefinition.same (a b : SchemaDefinition) : Bool :=
  sameOption Located.same a.description b.description &&
    sameList Directive.same a.directives b.directives && sameOption Located.same a.query b.query &&
    sameOption Located.same a.mutation b.mutation &&
    sameOption Located.same a.subscription b.subscription

def TypeBody.same : TypeBody → TypeBody → Bool
  | .scalar, .scalar => true
  | .object interfaces fields, .object interfaces' fields' =>
    sameList Located.same interfaces interfaces' && sameList FieldDefinition.same fields fields'
  | .interface interfaces fields, .interface interfaces' fields' =>
    sameList Located.same interfaces interfaces' && sameList FieldDefinition.same fields fields'
  | .union members, .union members' => sameList Located.same members members'
  | .enum values, .enum values' => sameList EnumValueDefinition.same values values'
  | .input fields, .input fields' => sameList InputValueDefinition.same fields fields'
  | _, _ => false

def TypeDefinition.same (a b : TypeDefinition) : Bool :=
  sameOption Located.same a.description b.description && a.name.same b.name &&
    sameList Directive.same a.directives b.directives && a.body.same b.body

def DirectiveDefinition.same (a b : DirectiveDefinition) : Bool :=
  sameOption Located.same a.description b.description && a.name.same b.name &&
    sameList InputValueDefinition.same a.arguments b.arguments &&
    sameList Located.same a.locations b.locations

def Definition.same : Definition → Definition → Bool
  | .operation a, .operation b => a.same b
  | .fragment a, .fragment b => a.same b
  | .schema a, .schema b => a.same b
  | .type a, .type b => a.same b
  | .directive a, .directive b => a.same b
  | _, _ => false

namespace Document

/-- Whether two documents hold the same definitions in the same order. -/
def sameDefinitions (a b : Document) : Bool :=
  sameList Definition.same a.definitions b.definitions

/-- Whether two documents hold the same definitions and come from the same file. -/
def same (a b : Document) : Bool :=
  a.sameDefinitions b && a.filename = b.filename

end Document

end GraphQL
