import GraphQL.Plan.Build

/-!
# What a plan has to be

The field-collection algorithm as a relation, apart from how plans are built. `Scope.Flattens` lists
the fields that selections put on an object type, in the order of the document. `Scope.Prescribes`
groups them by response key, in the order in which the keys first occur, and prescribes the same
below each group, for every object type that its value can be of. Both determine what they relate
(`Flattens.unique`, `Prescribes.unique`).
-/

namespace GraphQL

/-- A selection stays if no condition to skip it is true and no condition to include it is false. -/
def Directive.Keep (vars : Variables) (directives : List (Directive Name)) : Prop :=
  ∀ d ∈ directives, (d.name.node = "skip" → d.condition vars ≠ .ok true) ∧
    (d.name.node = "include" → d.condition vars ≠ .ok false)

namespace Scope

variable {ρ : Type}

/-- A fragment applies to an object type if it is on this type, on a type that has it as a possible
type, or on no type at all. -/
def Applies (s : Scope ρ) (object : Name) : Option TypeCondition → Prop
  | none => True
  | some condition =>
    condition.on.node = object ∨ s.registry.isPossible condition.on.node object = true

/-- The fields that selections put on an object type. -/
inductive Flattens (s : Scope ρ) (object : Name) : List Selection → List Field → Prop where
  | nil : Flattens s object [] []
  | dropped {item : Selection} {rest : List Selection} {fields : List Field} :
      ¬ Directive.Keep s.variableValues item.directives → Flattens s object rest fields →
      Flattens s object (item :: rest) fields
  | field {f : Field} {rest : List Selection} {fields : List Field} :
      Directive.Keep s.variableValues f.directives → Flattens s object rest fields →
      Flattens s object (.field f :: rest) (f :: fields)
  | inline {f : InlineFragment} {rest : List Selection} {inner fields : List Field} :
      Directive.Keep s.variableValues f.directives → s.Applies object f.condition →
      Flattens s object f.selections.items inner → Flattens s object rest fields →
      Flattens s object (.inline f :: rest) (inner ++ fields)
  | otherInline {f : InlineFragment} {rest : List Selection} {fields : List Field} :
      Directive.Keep s.variableValues f.directives → ¬ s.Applies object f.condition →
      Flattens s object rest fields → Flattens s object (.inline f :: rest) fields
  | spread {spread : FragmentSpread} {fragment : Fragment} {rest : List Selection}
      {inner fields : List Field} :
      Directive.Keep s.variableValues spread.directives →
      s.document.fragment? spread.name.node = some fragment →
      s.Applies object (some fragment.condition) →
      Flattens s object fragment.selections.items inner → Flattens s object rest fields →
      Flattens s object (.spread spread :: rest) (inner ++ fields)
  | otherSpread {spread : FragmentSpread} {fragment : Fragment} {rest : List Selection}
      {fields : List Field} :
      Directive.Keep s.variableValues spread.directives →
      s.document.fragment? spread.name.node = some fragment →
      ¬ s.Applies object (some fragment.condition) → Flattens s object rest fields →
      Flattens s object (.spread spread :: rest) fields

/-- The response key of a field. -/
def keyOf (f : Field) : Name :=
  (Field.responseKey f).node

/-- The node of the fields that share its key, among the fields on an object type. The first of them
gives the node its type. It has an entry for each object type that its value can be of. -/
structure Merges (s : Scope ρ) (object : Name) (fields : List Field) (n : Plan.Node) : Prop where
  owner : n.owner = object
  items : n.items = fields.filter fun f => keyOf f = n.key
  type : s.typeOf? object n.first.name.node = some n.type
  objects : n.children.map Prod.fst = s.registry.possibleTypes n.type.innermost

/-- The nodes of selections on an object type, and whatever is below them. -/
inductive Prescribes (s : Scope ρ) : Name → List Selection → List Plan.Node → Prop where
  | intro {object : Name} {selections : List Selection} {fields : List Field}
      {nodes : List Plan.Node} : s.Flattens object selections fields →
      nodes.map Plan.Node.key = Name.distinct (fields.map keyOf) →
      (∀ n ∈ nodes, s.Merges object fields n) →
      (∀ n ∈ nodes, ∀ entry ∈ n.children,
        Prescribes s entry.1 (n.items.flatMap fun f => f.selections.items) entry.2) →
      Prescribes s object selections nodes

variable {s : Scope ρ} {object : Name}

/-- Selections put one list of fields on an object type. -/
theorem Flattens.unique {selections : List Selection} {fields fields' : List Field}
    (h : s.Flattens object selections fields) (h' : s.Flattens object selections fields') :
    fields = fields' := by
  induction h generalizing fields' with
  | nil =>
    cases h'
    rfl
  | dropped hkeep _ ih =>
    cases h' with
    | dropped _ hrest => exact ih hrest
    | field hkeep' | inline hkeep' | otherInline hkeep' | spread hkeep' | otherSpread hkeep' =>
      exact absurd hkeep' hkeep
  | field hkeep _ ih =>
    cases h' with
    | dropped hdrop => exact absurd hkeep hdrop
    | field _ hrest => rw [ih hrest]
  | inline hkeep happlies _ _ ihinner ihrest =>
    cases h' with
    | dropped hdrop => exact absurd hkeep hdrop
    | inline _ _ hinner hrest => rw [ihinner hinner, ihrest hrest]
    | otherInline _ hnot => exact absurd happlies hnot
  | otherInline hkeep hnot _ ih =>
    cases h' with
    | dropped hdrop => exact absurd hkeep hdrop
    | inline _ happlies => exact absurd happlies hnot
    | otherInline _ _ hrest => exact ih hrest
  | spread hkeep hfound happlies _ _ ihinner ihrest =>
    cases h' with
    | dropped hdrop => exact absurd hkeep hdrop
    | spread _ hfound' _ hinner hrest =>
      cases hfound.symm.trans hfound'
      rw [ihinner hinner, ihrest hrest]
    | otherSpread _ hfound' hnot =>
      cases hfound.symm.trans hfound'
      exact absurd happlies hnot
  | otherSpread hkeep hfound hnot _ ih =>
    cases h' with
    | dropped hdrop => exact absurd hkeep hdrop
    | spread _ hfound' happlies =>
      cases hfound.symm.trans hfound'
      exact absurd happlies hnot
    | otherSpread _ _ _ hrest => exact ih hrest

/-- Nodes are equal that merge the same fields, have the same key, and the same below them. -/
theorem Merges.eq {fields : List Field} {n m : Plan.Node} (hn : s.Merges object fields n)
    (hm : s.Merges object fields m) (hkey : n.key = m.key) (hchildren : n.children = m.children) :
    n = m := by
  have hitems : n.items = m.items := by rw [hn.items, hm.items, hkey]
  obtain ⟨key, owner, type, first, others, children⟩ := n
  obtain ⟨key', owner', type', first', others', children'⟩ := m
  obtain ⟨rfl, rfl⟩ := List.cons.inj hitems
  obtain rfl : owner = owner' := hn.owner.trans hm.owner.symm
  obtain rfl : type = type' := Option.some.inj (hn.type.symm.trans hm.type)
  obtain rfl : key = key' := hkey
  obtain rfl : children = children' := hchildren
  rfl

/-- Lists are equal whose items have the same marks, and are equal wherever their marks are. -/
theorem eq_of_map_eq {α β : Type} (mark : α → β) {xs ys : List α}
    (hmarks : xs.map mark = ys.map mark)
    (h : ∀ x ∈ xs, ∀ y ∈ ys, mark x = mark y → x = y) : xs = ys := by
  induction xs generalizing ys with
  | nil => exact (List.map_eq_nil_iff.1 hmarks.symm).symm
  | cons x xs ih =>
    cases ys with
    | nil => cases hmarks
    | cons y ys =>
      obtain ⟨hmark, hrest⟩ := List.cons.inj hmarks
      rw [h x (List.mem_cons_self ..) y (List.mem_cons_self ..) hmark,
        ih hrest fun x hx y hy => h x (List.mem_cons_of_mem _ hx) y (List.mem_cons_of_mem _ hy)]

/-- There is one list of nodes that is prescribed. -/
theorem Prescribes.unique {selections : List Selection} {nodes nodes' : List Plan.Node}
    (h : s.Prescribes object selections nodes) (h' : s.Prescribes object selections nodes') :
    nodes = nodes' := by
  induction h generalizing nodes' with
  | intro hfields hkeys hmerges _ ih =>
    obtain ⟨hfields', hkeys', hmerges', hbelow'⟩ := h'
    cases hfields.unique hfields'
    refine eq_of_map_eq Plan.Node.key (hkeys.trans hkeys'.symm) fun n hn m hm hkey => ?_
    have hnodes := hmerges n hn
    have hnodes' := hmerges' m hm
    have hitems : n.items = m.items := by rw [hnodes.items, hnodes'.items, hkey]
    have hfirst : n.first = m.first := (List.cons.inj hitems).1
    have htype : n.type = m.type := by
      have hm := hnodes'.type
      rw [← hfirst, hnodes.type] at hm
      exact Option.some.inj hm
    refine hnodes.eq hnodes' hkey (eq_of_map_eq Prod.fst ?_ fun e he e' he' hname => ?_)
    · rw [hnodes.objects, hnodes'.objects, htype]
    · refine Prod.ext hname (ih n hn e he ?_)
      rw [hname, hitems]
      exact hbelow' m hm e' he'

end Scope

end GraphQL
