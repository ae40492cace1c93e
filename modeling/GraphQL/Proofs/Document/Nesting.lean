import GraphQL.Proofs.Document.Parsed

/-!
# How deeply the parts of a document nest

`Nests n` says of a part that some path down from it, itself included, meets `n` selection sets that
are not empty, values and type references. What can be written has as many levels as it nests deeply,
so no path through what was parsed meets more of them than the limit.
-/

namespace GraphQL

variable {ν : Type}

/-! ## Paths -/

/-- A path through a value. A scalar is one as well. -/
inductive Value.Nests : Value ν → Nat → Prop where
  | self {v : Value ν} : Nests v 1
  | item {items : List (Value ν)} {v : Value ν} {n : Nat} : v ∈ items → Nests v n →
      Nests (.list items) (n + 1)
  | field {fields : List (Name × Value ν)} {f : Name × Value ν} {n : Nat} : f ∈ fields →
      Nests f.2 n → Nests (.object fields) (n + 1)

inductive TypeRef.Nests : TypeRef → Nat → Prop where
  | self {t : TypeRef} : Nests t 1
  | item {item : TypeRef} {nullable : Bool} {n : Nat} : Nests item n →
      Nests (.list item nullable) (n + 1)

def Directive.Nests (d : Directive ν) (n : Nat) : Prop :=
  ∃ a ∈ d.arguments, a.value.node.Nests n

/-- A path through a selection: through its values, or through what is selected below it. -/
inductive Selection.Nests : Selection → Nat → Prop where
  | argument {f : Field} {a : Argument Name} {n : Nat} : a ∈ f.arguments → a.value.node.Nests n →
      Nests (.field f) n
  | directive {s : Selection} {d : Directive Name} {n : Nat} : d ∈ s.directives → d.Nests n →
      Nests s n
  | fieldSet {f : Field} : f.selections.items ≠ [] → Nests (.field f) 1
  | field {f : Field} {item : Selection} {n : Nat} : item ∈ f.selections.items → Nests item n →
      Nests (.field f) (n + 1)
  | inlineSet {f : InlineFragment} : f.selections.items ≠ [] → Nests (.inline f) 1
  | inline {f : InlineFragment} {item : Selection} {n : Nat} : item ∈ f.selections.items →
      Nests item n → Nests (.inline f) (n + 1)

inductive SelectionSet.Nests : SelectionSet → Nat → Prop where
  | self {s : SelectionSet} : s.items ≠ [] → Nests s 1
  | item {s : SelectionSet} {item : Selection} {n : Nat} : item ∈ s.items → item.Nests n →
      Nests s (n + 1)

inductive VariableDefinition.Nests (v : VariableDefinition) (n : Nat) : Prop where
  | type : v.type.node.Nests n → Nests v n
  | default {value : Located Const} : v.default = some value → value.node.Nests n → Nests v n
  | directive {d : Directive Empty} : d ∈ v.directives → d.Nests n → Nests v n

inductive Operation.Nests (o : Operation) (n : Nat) : Prop where
  | variable {v : VariableDefinition} : v ∈ o.variableDefinitions → v.Nests n → Nests o n
  | directive {d : Directive Name} : d ∈ o.directives → d.Nests n → Nests o n
  | selections : SelectionSet.Nests o.selections n → Nests o n

inductive Fragment.Nests (f : Fragment) (n : Nat) : Prop where
  | directive {d : Directive Name} : d ∈ f.directives → d.Nests n → Nests f n
  | selections : SelectionSet.Nests f.selections n → Nests f n

inductive InputValueDefinition.Nests (v : InputValueDefinition) (n : Nat) : Prop where
  | type : v.type.node.Nests n → Nests v n
  | default {value : Located Const} : v.default = some value → value.node.Nests n → Nests v n
  | directive {d : Directive Empty} : d ∈ v.directives → d.Nests n → Nests v n

inductive FieldDefinition.Nests (f : FieldDefinition) (n : Nat) : Prop where
  | argument {v : InputValueDefinition} : v ∈ f.arguments → v.Nests n → Nests f n
  | type : f.type.node.Nests n → Nests f n
  | directive {d : Directive Empty} : d ∈ f.directives → d.Nests n → Nests f n

inductive TypeBody.Nests : TypeBody → Nat → Prop where
  | object {interfaces : List (Located Name)} {fields : List FieldDefinition} {f : FieldDefinition}
      {n : Nat} : f ∈ fields → f.Nests n → Nests (.object interfaces fields) n
  | interface {interfaces : List (Located Name)} {fields : List FieldDefinition}
      {f : FieldDefinition} {n : Nat} : f ∈ fields → f.Nests n →
      Nests (.interface interfaces fields) n
  | enum {values : List EnumValueDefinition} {v : EnumValueDefinition} {d : Directive Empty}
      {n : Nat} : v ∈ values → d ∈ v.directives → d.Nests n → Nests (.enum values) n
  | input {fields : List InputValueDefinition} {f : InputValueDefinition} {n : Nat} : f ∈ fields →
      f.Nests n → Nests (.input fields) n

inductive Definition.Nests : Definition → Nat → Prop where
  | operation {o : Operation} {n : Nat} : o.Nests n → Nests (.operation o) n
  | fragment {f : Fragment} {n : Nat} : f.Nests n → Nests (.fragment f) n
  | schema {s : SchemaDefinition} {d : Directive Empty} {n : Nat} : d ∈ s.directives → d.Nests n →
      Nests (.schema s) n
  | typeDirective {t : TypeDefinition} {d : Directive Empty} {n : Nat} : d ∈ t.directives →
      d.Nests n → Nests (.type t) n
  | type {t : TypeDefinition} {n : Nat} : t.body.Nests n → Nests (.type t) n
  | directive {d : DirectiveDefinition} {v : InputValueDefinition} {n : Nat} : v ∈ d.arguments →
      v.Nests n → Nests (.directive d) n

/-- A path through one of the definitions. -/
def Document.Nests (d : Document) (n : Nat) : Prop :=
  ∃ x ∈ d.definitions, x.Nests n

/-! ## Levels bound paths -/

namespace Value

variable {ok : ν → Prop} {levels n : Nat} {v : Value ν}

theorem Writable.pos (h : v.Writable ok levels) : 0 < levels := by
  cases h <;> exact Nat.succ_pos _

theorem Writable.nests_le (h : v.Writable ok levels) (hn : v.Nests n) : n ≤ levels := by
  induction hn generalizing levels with
  | self => exact h.pos
  | item hm _ ih =>
    cases h with
    | list hitems => exact Nat.succ_le_succ (ih (hitems _ hm))
  | field hm _ ih =>
    cases h with
    | object _ _ hfields => exact Nat.succ_le_succ (ih (hfields _ hm))

end Value

theorem TypeRef.Writable.nests_le {t : TypeRef} {levels n : Nat} (h : t.Writable levels)
    (hn : t.Nests n) : n ≤ levels := by
  induction hn generalizing levels with
  | self => cases h <;> exact Nat.succ_pos _
  | item _ ih =>
    cases h with
    | list hitem => exact Nat.succ_le_succ (ih hitem)

theorem Directive.Writable.nests_le {ok : ν → Prop} {d : Directive ν} {levels n : Nat}
    (h : d.Writable ok levels) (hn : d.Nests n) : n ≤ levels := by
  obtain ⟨a, ha, hn⟩ := hn
  exact (h.arguments a ha).value.nests_le hn

/-- A selection that is written below so many levels. -/
theorem Selection.Writable.nests_le {s : Selection} {levels n : Nat} (h : s.Writable levels)
    (hn : s.Nests n) : n ≤ levels := by
  induction hn generalizing levels with
  | argument ha hn =>
    cases h with
    | field _ _ harguments _ _ _ => exact (harguments _ ha).value.nests_le hn
  | directive hd hn =>
    cases h with
    | field _ _ _ hdirectives _ _ => exact (hdirectives _ hd).nests_le hn
    | spread _ _ hdirectives => exact (hdirectives _ hd).nests_le hn
    | inline _ hdirectives _ => exact (hdirectives _ hd).nests_le hn
  | fieldSet hne =>
    cases h with
    | field _ _ _ _ hlevels _ => exact hlevels hne
  | field hm _ ih =>
    cases h with
    | field _ _ _ _ hlevels hitems =>
      have hpos := hlevels (List.ne_nil_of_mem hm)
      have hle := ih (hitems _ hm)
      omega
  | inlineSet _ =>
    cases h with
    | inline _ _ _ => exact Nat.succ_pos _
  | inline hm _ ih =>
    cases h with
    | inline _ _ hitems => exact Nat.succ_le_succ (ih (hitems _ hm))

theorem SelectionSet.Writable.nests_le {s : SelectionSet} {n : Nat} (h : SelectionSet.Writable s)
    (hn : SelectionSet.Nests s n) : n ≤ nestingLimit := by
  cases hn with
  | self _ => decide
  | item hm hn =>
    have hle := (h _ hm).nests_le hn
    rw [nestingLimit] at hle ⊢
    omega

theorem VariableDefinition.Writable.nests_le {v : VariableDefinition} {n : Nat} (h : v.Writable)
    (hn : v.Nests n) : n ≤ nestingLimit := by
  cases hn with
  | type hn => exact h.type.nests_le hn
  | default hv hn => exact Value.Writable.nests_le (h.default _ hv) hn
  | directive hd hn => exact (h.directives _ hd).nests_le hn

theorem Operation.Writable.nests_le {o : Operation} {n : Nat} (h : o.Writable) (hn : o.Nests n) :
    n ≤ nestingLimit := by
  cases hn with
  | «variable» hv hn => exact (h.variableDefinitions _ hv).nests_le hn
  | directive hd hn => exact (h.directives _ hd).nests_le hn
  | selections hn => exact SelectionSet.Writable.nests_le h.selections hn

theorem Fragment.Writable.nests_le {f : Fragment} {n : Nat} (h : f.Writable) (hn : f.Nests n) :
    n ≤ nestingLimit := by
  cases hn with
  | directive hd hn => exact (h.directives _ hd).nests_le hn
  | selections hn => exact SelectionSet.Writable.nests_le h.selections hn

theorem InputValueDefinition.Writable.nests_le {v : InputValueDefinition} {n : Nat}
    (h : v.Writable) (hn : v.Nests n) : n ≤ nestingLimit := by
  cases hn with
  | type hn => exact h.type.nests_le hn
  | default hv hn => exact Value.Writable.nests_le (h.default _ hv) hn
  | directive hd hn => exact (h.directives _ hd).nests_le hn

theorem FieldDefinition.Writable.nests_le {f : FieldDefinition} {n : Nat} (h : f.Writable)
    (hn : f.Nests n) : n ≤ nestingLimit := by
  cases hn with
  | argument hv hn => exact (h.arguments _ hv).nests_le hn
  | type hn => exact h.type.nests_le hn
  | directive hd hn => exact (h.directives _ hd).nests_le hn

theorem TypeBody.Writable.nests_le {b : TypeBody} {n : Nat} (h : b.Writable) (hn : b.Nests n) :
    n ≤ nestingLimit := by
  cases hn with
  | object hm hn =>
    cases h with
    | object _ hfields => exact (hfields _ hm).nests_le hn
  | interface hm hn =>
    cases h with
    | interface _ hfields => exact (hfields _ hm).nests_le hn
  | enum hm hd hn =>
    cases h with
    | enum hvalues => exact ((hvalues _ hm).directives _ hd).nests_le hn
  | input hm hn =>
    cases h with
    | input hfields => exact (hfields _ hm).nests_le hn

theorem Definition.Writable.nests_le {x : Definition} {n : Nat} (h : x.Writable)
    (hn : x.Nests n) : n ≤ nestingLimit := by
  cases hn with
  | operation hn => exact Operation.Writable.nests_le h hn
  | fragment hn => exact Fragment.Writable.nests_le h hn
  | schema hd hn => exact (SchemaDefinition.Writable.directives h _ hd).nests_le hn
  | typeDirective hd hn => exact (TypeDefinition.Writable.directives h _ hd).nests_le hn
  | type hn => exact (TypeDefinition.Writable.body h).nests_le hn
  | directive hv hn => exact (DirectiveDefinition.Writable.arguments h _ hv).nests_le hn

end GraphQL
