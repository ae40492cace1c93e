import GraphQL.Coercion.Arguments
import GraphQL.Plan

/-!
# Collecting fields

`Scope.collect` lists the fields that a selection set puts on an object type, in the order of the
document, with fragments expanded wherever their type condition applies. `Merged.groups` then puts
fields with the same response key together, in the order in which the keys first occur.
-/

namespace GraphQL

/-- Why there is no plan for an operation. -/
inductive PlanError where
  | condition (cause : ConditionError)
  | noRoot (kind : OperationKind) (pos : Position)
  | undefinedFragment (name : Name) (pos : Position)
  | fragmentLoop (name : Name) (pos : Position)
  | unknownCondition (type : Name) (pos : Position)
  | undefinedField (field type : Name) (pos : Position)
  | needsSelections (field type : Name) (pos : Position)
  | noSelections (field type : Name) (pos : Position)
  | endless (pos : Position)

namespace PlanError

def toError : PlanError → Error
  | condition cause => cause.toError
  | noRoot kind pos => .located s!"Schema is not configured for {kind.text}s" pos
  | undefinedFragment name pos => .located s!"Fragment {name} was used, but not defined" pos
  | fragmentLoop name pos => .located s!"Fragment {name} contains an infinite loop" pos
  | unknownCondition type pos =>
    .located s!"No such type {type}, so it can't be a fragment condition" pos
  | undefinedField field type pos => .located s!"Field '{field}' doesn't exist on type '{type}'" pos
  | needsSelections field type pos =>
    .located
      (s!"Field must have selections (field '{field}' returns {type} but has no selections. " ++
        s!"Did you mean '{field} \x7b ... \x7d'?)") pos
  | noSelections field type pos =>
    .located
      (s!"Selections can't be made on scalars (field '{field}' returns {type} " ++
        "but has selections)") pos
  | endless pos => .located "Selections repeat without end" pos

end PlanError

/-- What selections are read against. -/
structure Scope (ρ : Type) where
  registry : Registry ρ
  document : Document
  variableValues : Variables
  /-- Whether `__typename` can be selected. -/
  introspect : Bool

/-- Fields found, and what was wrong on the way. -/
structure Collected where
  fields : List Field
  problems : List PlanError

namespace Collected

def nothing : Collected :=
  ⟨[], []⟩

def field (f : Field) : Collected :=
  ⟨[f], []⟩

def problem (e : PlanError) : Collected :=
  ⟨[], [e]⟩

instance : Append Collected where
  append a b := ⟨a.fields ++ b.fields, a.problems ++ b.problems⟩

end Collected

namespace Scope

variable {ρ : Type}

/-- Whether a fragment on a type applies to an object type; the type has to be known. -/
def applies (s : Scope ρ) (condition : Located Name) (object : Name) : Except PlanError Bool :=
  match s.registry.lookup condition.node with
  | none => .error (.unknownCondition condition.node condition.pos)
  | some _ => .ok (condition.node = object || s.registry.isPossible condition.node object)

/-- What a selection brings in, unless one of its directives takes it out. -/
@[macro_inline]
def unlessExcluded (s : Scope ρ) (directives : List (Directive Name)) (found : Collected) :
    Collected :=
  match Directive.anyExcludes s.variableValues directives with
  | .ok false => found
  | .ok true => .nothing
  | .error cause => .problem (.condition cause)

/-- What a fragment brings in where its condition applies. -/
@[macro_inline]
def whereApplies (s : Scope ρ) (condition : Located Name) (object : Name) (found : Collected) :
    Collected :=
  match s.applies condition object with
  | .ok true => found
  | .ok false => .nothing
  | .error e => .problem e

mutual

/-- The fields of a selection, given what spreads of named fragments bring in. -/
def flatten (s : Scope ρ) (object : Name) (expand : FragmentSpread → Collected) :
    Selection → Collected
  | .field f => s.unlessExcluded f.directives (.field f)
  | .spread spread => s.unlessExcluded spread.directives (expand spread)
  | .inline ⟨_, condition, directives, ⟨_, items⟩⟩ =>
    s.unlessExcluded directives
      (match condition with
        | some condition => s.whereApplies condition.on object (flattenAll s object expand items)
        | none => flattenAll s object expand items)

def flattenAll (s : Scope ρ) (object : Name) (expand : FragmentSpread → Collected) :
    List Selection → Collected
  | [] => .nothing
  | item :: rest => flatten s object expand item ++ flattenAll s object expand rest

end

/-- What the spread of a named fragment brings in. `active` are the fragments being expanded
around it; since each is expanded but once, no more are left than `fuel`. -/
def expand (s : Scope ρ) (object : Name) :
    (fuel : Nat) → (active : List Name) → FragmentSpread → Collected
  | 0, _, _ => .nothing
  | fuel + 1, active, spread =>
    let name := spread.name.node
    match s.document.fragment? name with
    | none => .problem (.undefinedFragment name spread.pos)
    | some fragment =>
      if active.contains name then .problem (.fragmentLoop name spread.pos)
      else
        s.whereApplies fragment.condition.on object
          (s.flattenAll object (expand s object fuel (name :: active)) fragment.selections.items)

/-- The fields that selections put on an object type. -/
def collect (s : Scope ρ) (object : Name) (selections : List Selection) : Collected :=
  s.flattenAll object (s.expand object (s.document.fragments.length + 1) []) selections

end Scope

/-- Fields that share a response key. -/
structure Merged where
  key : Name
  first : Field
  others : List Field

namespace Merged

/-- Adds a field to the group of its response key, or as a new group. -/
def add (f : Field) : List Merged → List Merged
  | [] => [⟨(Field.responseKey f).node, f, []⟩]
  | g :: rest =>
    if g.key = (Field.responseKey f).node then { g with others := g.others ++ [f] } :: rest
    else g :: add f rest

/-- The groups of a list of fields. -/
def groups (fields : List Field) : List Merged :=
  fields.foldl (fun groups f => add f groups) []

def items (g : Merged) : List Field :=
  g.first :: g.others

end Merged

end GraphQL
