import GraphQL.Plan.Collection

/-!
# Building plans

`Plan.build` finds the plan of an operation, or all that is wrong with its selections. Selections
below a field are collected anew for each object type its value can be of.
-/

namespace GraphQL

/-- A part of a plan, and what was wrong on the way. -/
structure Planned (α : Type) where
  value : α
  problems : List PlanError

namespace Scope

variable {ρ : Type}

/-- The type of a field of an object type. -/
def typeOf? (s : Scope ρ) (object field : Name) : Option TypeRef :=
  if field = Plan.Node.typename && s.introspect then some (.named Scalar.string.name false)
  else (s.registry.field? object field).map FieldSpec.type

/-- The parts of a plan that are there, and the problems of all. -/
def gather {α : Type} (parts : List (Planned (Option α))) : Planned (List α) :=
  ⟨parts.filterMap Planned.value, parts.flatMap Planned.problems⟩

/-- The node of merged fields on an object type. `below` plans the selections on a value of an
object type. -/
def node (s : Scope ρ) (below : Name → List Selection → Planned (List Plan.Node)) (object : Name)
    (g : Merged) : Planned (Option Plan.Node) :=
  let field := g.first.name.node
  let pos := g.first.pos
  match s.typeOf? object field with
  | none => ⟨none, [.undefinedField field object pos]⟩
  | some type =>
    let selections := g.items.flatMap fun f => f.selections.items
    if s.registry.isKind TypeSpec.isComposite type.innermost then
      if selections.isEmpty then ⟨none, [.needsSelections field type.innermost pos]⟩
      else
        let children := (s.registry.possibleTypes type.innermost).map fun possible =>
          (possible, below possible selections)
        ⟨some ⟨g.key, object, type, g.first, g.others,
            children.map fun (possible, planned) => (possible, planned.value)⟩,
          children.flatMap fun (_, planned) => planned.problems⟩
    else if selections.isEmpty then ⟨some ⟨g.key, object, type, g.first, g.others, []⟩, []⟩
    else ⟨none, [.noSelections field type.innermost pos]⟩

/-- The nodes of selections on an object type, at most `levels` deep. -/
def nodes (s : Scope ρ) (pos : Position) :
    (levels : Nat) → Name → List Selection → Planned (List Plan.Node)
  | 0, _, _ => ⟨[], [.endless pos]⟩
  | levels + 1, object, selections =>
    let found := s.collect object selections
    let planned := gather ((Merged.groups found.fields).map (s.node (nodes s pos levels) object))
    ⟨planned.value, found.problems ++ planned.problems⟩

mutual

/-- How many fields stand in a selection, at any depth. -/
def fieldCount : Selection → Nat
  | .field ⟨_, _, _, _, _, ⟨_, items⟩⟩ => 1 + fieldCounts items
  | .spread _ => 0
  | .inline ⟨_, _, _, ⟨_, items⟩⟩ => fieldCounts items

def fieldCounts : List Selection → Nat
  | [] => 0
  | item :: rest => fieldCount item + fieldCounts rest

end

/-- How deep a plan can be. What lies below merged fields is decided by their object type and by
which fields of the document they are, in the order of first occurrence. Beyond as many levels as
there are such cases, some case has come back, and would again without end. -/
def levels (s : Scope ρ) (o : Operation) : Nat :=
  let fields := s.document.fragments.foldl (fun n f => n + fieldCounts f.selections.items)
    (fieldCounts o.selections.items)
  s.registry.types.length * Nat.pow (fields + 1) (fields + 1) + 1

end Scope

/-- The plan of an operation, or all that is wrong with its selections. -/
def Plan.build {ρ : Type} (s : Scope ρ) (o : Operation) : Except (List PlanError) Plan :=
  match s.registry.root? o.kind with
  | none => .error [.noRoot o.kind o.selections.pos]
  | some root =>
    match s.nodes o.selections.pos (s.levels o) root o.selections.items with
    | ⟨fields, []⟩ => .ok ⟨o.kind, root, fields⟩
    | ⟨_, problems⟩ => .error problems

end GraphQL
