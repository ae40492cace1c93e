import GraphQL.Proofs.Execution.Machine
import GraphQL.Proofs.Plan.Keys
import GraphQL.Proofs.Response.Positions
import Mathlib.Data.List.Nodup

/-!
# Which places may be null

The declared types say which places of a response may be null: the type of a field, and for the
elements of a list the type of the item or of the list itself. `Plan.Declares` collects what they
say along a path. The slots of a response carry flags of their own; `ResponseTree.Flagged` collects
those, and the slot that an error nulls is where the flags say (`ResponseTree.Flagged.depth_nulled`).
-/

namespace GraphQL

/-- The field that a path leads to, the declared type at its end, and for each place on the way
whether it may be null. `types` has the object types that values were found to be of. -/
inductive Plan.Declares (plan : Plan) (types : Path → Option Name) :
    Path → Plan.Node → TypeRef → List Bool → Prop where
  | root {node : Plan.Node} : node ∈ plan.fields →
      Declares plan types [.field node.key] node node.type [node.type.nullable]
  | field {path : Path} {above node : Plan.Node} {name object : Name} {nullable : Bool}
      {flags : List Bool} {nodes : List Plan.Node} :
      Declares plan types path above (.named name nullable) flags → types path = some object →
      above.childrenFor? object = some nodes → node ∈ nodes →
      Declares plan types (path.child (.field node.key)) node node.type
        (flags ++ [node.type.nullable])
  /-- Elements of a list that may be null may be null, whatever their own type says. -/
  | element {path : Path} {node : Plan.Node} {item : TypeRef} {nullable : Bool} {flags : List Bool}
      (i : Nat) : Declares plan types path node (.list item nullable) flags →
      Declares plan types (path.child (.index i)) node item (flags ++ [item.nullable || nullable])

/-- What the declared types say of the place of a value. -/
abbrev Plan.DeclaresAt (plan : Plan) (types : Path → Option Name) (frame : Frame)
    (flags : List Bool) : Prop :=
  plan.Declares types frame.path frame.field frame.type flags

/-- The object types are those that the registry finds for some value of the declared type. -/
def Plan.Typed {ρ : Type} (plan : Plan) (r : Registry ρ) (types : Path → Option Name) : Prop :=
  ∀ path object, types path = some object → ∃ node name nullable flags value,
    plan.Declares types path node (.named name nullable) flags ∧
      r.concreteType name value = some object

theorem Plan.Distinct.eq_of_key {nodes : List Plan.Node} (h : Plan.Distinct nodes)
    {a b : Plan.Node} (ha : a ∈ nodes) (hb : b ∈ nodes) (hk : a.key = b.key) : a = b := by
  cases h with
  | intro hkeys _ => exact List.inj_on_of_nodup_map hkeys ha hb hk

namespace Plan.Declares

variable {plan : Plan} {types types' : Path → Option Name} {path : Path} {node : Plan.Node}
  {type : TypeRef} {flags : List Bool}

theorem mono (h : plan.Declares types path node type flags)
    (hle : ∀ q object, types q = some object → types' q = some object) :
    plan.Declares types' path node type flags := by
  induction h with
  | root hm => exact .root hm
  | field _ ht hc hm ih => exact .field ih (hle _ _ ht) hc hm
  | element i _ ih => exact .element i ih

/-- A place of a type that may be null may be null. -/
theorem of_nullable (h : plan.Declares types path node type flags) (hn : type.nullable = true) :
    flags.getLast? = some true := by
  cases h <;> simp [hn]

theorem distinct (h : plan.Declares types path node type flags) (hd : Plan.Distinct plan.fields) :
    ∀ object nodes, node.childrenFor? object = some nodes → Plan.Distinct nodes := by
  induction h with
  | root hm =>
    obtain ⟨_, hbelow⟩ := hd
    exact hbelow _ hm
  | field _ _ hc hm ih =>
    obtain ⟨_, hbelow⟩ := ih _ _ hc
    exact hbelow _ hm
  | element _ _ ih => exact ih

theorem ne_nil (h : plan.Declares types path node type flags) : path ≠ [] := by
  cases h <;> simp [Path.child]

/-- There is one field, one type and one answer for each path. -/
theorem unique (h : plan.Declares types path node type flags) (hd : Plan.Distinct plan.fields)
    {node' : Plan.Node} {type' : TypeRef} {flags' : List Bool}
    (h' : plan.Declares types path node' type' flags') :
    node = node' ∧ type = type' ∧ flags = flags' := by
  generalize hp : path = path' at h'
  induction h generalizing path' node' type' flags' with
  | @root node hm =>
    cases h' with
    | @root node' hm' =>
      have hkey : node.key = node'.key := by simpa using hp
      cases hd.eq_of_key hm hm' hkey
      exact ⟨rfl, rfl, rfl⟩
    | field h' _ _ _ | element _ h' =>
      exact absurd (ResponseTree.Places.child_inj (p := []) hp).1.symm h'.ne_nil
  | field h ht hc hm ih =>
    cases h' with
    | root _ => exact absurd (ResponseTree.Places.child_inj (q := []) hp).1 h.ne_nil
    | field h' ht' hc' hm' =>
      obtain ⟨rfl, hkey⟩ := ResponseTree.Places.child_inj hp
      obtain ⟨rfl, -, rfl⟩ := ih _ rfl h'
      cases ht.symm.trans ht'
      cases hc.symm.trans hc'
      cases (h.distinct hd _ _ hc).eq_of_key hm hm' (Segment.field.inj hkey)
      exact ⟨rfl, rfl, rfl⟩
    | element _ _ => cases (ResponseTree.Places.child_inj hp).2
  | element i h ih =>
    cases h' with
    | root _ => exact absurd (ResponseTree.Places.child_inj (q := []) hp).1 h.ne_nil
    | field _ _ _ _ => cases (ResponseTree.Places.child_inj hp).2
    | element i' h' =>
      obtain ⟨rfl, hkey⟩ := ResponseTree.Places.child_inj hp
      obtain ⟨rfl, htype, rfl⟩ := ih _ rfl h'
      cases htype
      cases hkey
      exact ⟨rfl, rfl, rfl⟩

end Plan.Declares

/-! ## Flags of slots -/

/-- For each slot on the way from the root to a slot, whether it may be null. -/
inductive ResponseTree.Flagged (t : ResponseTree) : Nat → List Bool → Prop where
  | root : Flagged t ResponseTree.root []
  | child {id parent : Nat} {slot : Slot} {flags : List Bool} : t.get? id = some slot →
      slot.parent = some parent → Flagged t parent flags → Flagged t id (flags ++ [slot.nullable])

namespace ResponseTree

variable {t t' : ResponseTree} {id : Nat} {flags : List Bool}

namespace Flagged

theorem of_extends (h : t.Flagged id flags) (he : Extends t t') : t'.Flagged id flags := by
  induction h with
  | root => exact .root
  | child hs hp _ ih =>
    obtain ⟨content, hs', -⟩ := he.kept hs
    have hchild := child hs' hp ih
    exact hchild

theorem nullable_of_getLast? (h : t.Flagged id flags) {slot : Slot}
    (hs : t.get? id = some slot) (hl : flags.getLast? = some true) : slot.nullable = true := by
  cases h with
  | root => cases hl
  | child hs' _ _ =>
    cases hs.symm.trans hs'
    simpa using hl

theorem depth_eq (wf : t.WellFormed) (h : t.Flagged id flags) : t.depth id = flags.length := by
  induction h with
  | root => exact depth_root wf
  | child hs hp _ ih => rw [depth_of_parent wf hs hp, ih, List.length_append, List.length_singleton]

end Flagged

end ResponseTree

/-! ## Values of object types -/

namespace Execution

variable {ρ L W : Type}

theorem concreteType_of_objectCompletion {e : Execution ρ L W} {field : Plan.Node} {name : Name}
    {value : FieldValue L} {object : Name} {nodes : List Plan.Node} {json : Json}
    (h : e.objectCompletion field name value = .object object nodes json) :
    e.registry.concreteType name json = some object := by
  unfold objectCompletion at h
  split at h
  · split at h
    · next hfound =>
      obtain ⟨concrete, hc, hfound⟩ := Option.bind_eq_some_iff.1 hfound
      obtain ⟨nodes', -, he⟩ := Option.map_eq_some_iff.1 hfound
      cases he
      cases h
      exact hc
    · cases h
  · cases h

/-- A value that is completed as an object is of an object type that its declared type can be. -/
theorem concreteType_of_completion {e : Execution ρ L W} {frame : Frame} {value : FieldValue L}
    {object : Name} {nodes : List Plan.Node} {json : Json}
    (h : e.completion frame value = .object object nodes json) : ∃ name nullable,
      frame.type = .named name nullable ∧ e.registry.concreteType name json = some object := by
  unfold completion at h
  split at h
  · cases h
  · split at h <;> cases h
  · split at h
    · next name nullable htype =>
      refine ⟨name, nullable, htype, ?_⟩
      unfold namedCompletion at h
      split at h
      · unfold scalarCompletion at h
        split at h
        · cases h
        · split at h
          · cases h
          · split at h <;> cases h
      · unfold enumCompletion at h
        split at h
        · split at h <;> cases h
        · cases h
      · exact concreteType_of_objectCompletion h
      · exact concreteType_of_objectCompletion h
      · exact concreteType_of_objectCompletion h
      · cases h
    · split at h <;> cases h

end Execution

end GraphQL
