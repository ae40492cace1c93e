import GraphQL.Execution.Progress

/-!
# Completing values

A value is completed by checking it against its type and taking it apart until leaves are left.
Deferred values are put aside. A null where there may be none, and a value that its type cannot
represent, are errors.
-/

namespace GraphQL

/-- How the fields of an object are run, for the object types it can be of: given the slot and the
path of the object, and its value. -/
abbrev Select (L W : Type) :=
  Name → Option (SlotId → Path → Json → Running L W Unit)

/-- What is wrong with the value of a field. -/
inductive CompletionError where
  | null (element : Bool) (owner field : Name)
  | notList (found : Json)
  | deferredLeaf (type : Name)
  | scalar (type : Scalar) (found : Json)
  | enum (type : Name) (found : Option Json)
  | listForObject (type : Name)
  | noObjectType (type owner field : Name)
  | notOutput (type : Name)
  | undefinedField (field type : Name)

def CompletionError.message : CompletionError → String
  | null true owner field => s!"Cannot return null for non-nullable element of {owner}.{field}"
  | null false owner field => s!"Cannot return null for non-nullable field {owner}.{field}"
  | notList found => s!"Encountered a {found.kind} where we expected a list"
  | deferredLeaf type => s!"{type} cannot represent a list of deferred values"
  | scalar type found => type.rejection found.text
  | enum type found =>
    s!"Enum \"{type}\" cannot represent value: " ++ (found.map Json.text).getD "a list"
  | listForObject type => s!"Encountered a list where we expected a value of type {type}"
  | noObjectType type owner field =>
    s!"Abstract type {type} must resolve to an object type at runtime for field {owner}.{field}"
  | notOutput type => s!"{type} is not an output type"
  | undefinedField field type => s!"Field '{field}' doesn't exist on type '{type}'"

namespace Execution

variable {ρ L W : Type}

/-- Records what is wrong with a value. -/
def reject (frame : Frame) (error : CompletionError) : Running L W Unit :=
  report frame (.ofMessage error.message)

def setLeaf (frame : Frame) (value : Json) : Running L W Unit :=
  updateTree fun t => t.setLeaf frame.slot value

/-- The output of a scalar type for a value. -/
def completeScalar (frame : Frame) (name : Name) (builtin : Option Scalar) (value : FieldValue L) :
    Running L W Unit :=
  match value.toJson? with
  | none => reject frame (.deferredLeaf name)
  | some json =>
    match builtin with
    | none => setLeaf frame json
    | some scalar =>
      match scalar.serialize? json with
      | some output => setLeaf frame output
      | none => reject frame (.scalar scalar json)

/-- The output of an enum type for a value. -/
def completeEnum (frame : Frame) (name : Name) (values : List Name) (value : FieldValue L) :
    Running L W Unit :=
  match value with
  | .leaf (.string text) =>
    if values.contains text then setLeaf frame (.string text)
    else reject frame (.enum name (some (.string text)))
  | other => reject frame (.enum name other.toJson?)

/-- Runs the fields selected on an object. -/
def completeObject (e : Execution ρ L W) (select : Select L W) (frame : Frame) (name : Name)
    (value : FieldValue L) : Running L W Unit :=
  match value with
  | .leaf object =>
    match (e.registry.concreteType name object).bind select with
    | some run => run frame.slot frame.path object
    | none => reject frame (.noObjectType name frame.field.owner frame.field.name)
  | _ => reject frame (.listForObject name)

/-- Completes a value other than null to the type of a name. -/
def completeNamed (e : Execution ρ L W) (select : Select L W) (frame : Frame) (name : Name)
    (value : FieldValue L) : Running L W Unit :=
  match e.registry.lookup name with
  | some (.scalar builtin) => completeScalar frame name builtin value
  | some (.enum values) => completeEnum frame name values value
  | some (.object _ _) | some (.interface _ _) | some (.union _ _) =>
    e.completeObject select frame name value
  | _ => reject frame (.notOutput name)

/-- The elements of a list value. -/
def elements : FieldValue L → Except Json (List (FieldValue L))
  | .list items => .ok items
  | .leaf (.array items) => .ok (items.map .leaf)
  | .leaf other => .error other
  | .later _ => .error .null

/-- Completes the elements of a list one after the other, as long as the list can make it into the
response. -/
def completeElements (complete : Frame → FieldValue L → Running L W Unit) (list : Frame)
    (item : TypeRef) : Nat → List (SlotId × FieldValue L) → Running L W Unit
  | _, [] => pure ()
  | i, (slot, value) :: rest => do
    complete ⟨list.field, item, list.path.child (.index i), slot⟩ value
    if ← isLive list.slot then completeElements complete list item (i + 1) rest

/-- Completes a value to a type. Elements of a list that may be null may be null, whatever their
own type says. -/
def completeAs (e : Execution ρ L W) (select : Select L W) :
    TypeRef → Frame → FieldValue L → Running L W Unit
  | _, frame, .later lazy => putAside frame lazy
  | type, frame, .leaf .null =>
    if type.nullable then setNull frame
    else
      reject frame (.null (Path.isElement frame.path) frame.field.owner frame.field.name)
  | .named name _, frame, value => e.completeNamed select frame name value
  | .list item nullable, frame, value =>
    match elements value with
    | .error found => reject frame (.notList found)
    | .ok items => do
      let slots ← grow fun t => t.setList frame.slot items.length (item.nullable || nullable)
      completeElements (completeAs e select item) frame item 0 (slots.zip items)

end Execution

end GraphQL
