import GraphQL.Coercion.Arguments
import GraphQL.Execution.Completion

/-!
# Executing a query

A query runs along its plan. Fields are resolved in order and their values completed. Deferred
values are completed wave by wave; each wave may put new ones aside. An error nulls the value it
concerns, and every value around it that cannot be without.
-/

namespace GraphQL

namespace Execution

variable {ρ L W : Type}

/-- Resolves a field. -/
def resolve (e : Execution ρ L W) (spec : FieldSpec ρ) (ctx : FieldContext) :
    Running L W (Outcome L) := do
  let (p, world) ← get
  let (outcome, extensions, world) := e.host.resolve spec.resolver ctx p.extensions world
  set ({ p with extensions := extensions }, world)
  pure outcome

/-- Forces a lazy. -/
def force (e : Execution ρ L W) (lazy : L) : Running L W (Outcome L) := do
  let (p, world) ← get
  let (outcome, world) := e.host.force lazy world
  set (p, world)
  pure outcome

/-- The value of a field, or none when its arguments are wrong. -/
def fieldOutcome (e : Execution ρ L W) (frame : Frame) (object : Name) (parent : Json) :
    Running L W (Outcome L) :=
  let field := frame.field
  if field.isTypename then pure (.ok (.leaf (.string object)))
  else
    match e.registry.field? object field.name with
    | none =>
      pure (.error (.ofMessage (CompletionError.undefinedField field.name object).message))
    | some spec =>
      match e.registry.coerceArguments e.variableValues field.name spec.arguments field.first with
      | .error error => pure (.error (.field error.toError))
      | .ok arguments =>
        e.resolve spec
          ⟨object, field.name, parent, arguments, frame.path, field.first, e.variableValues, e.data⟩

/-- Goes on with the outcome of a field or a lazy. -/
def finish (complete : Frame → FieldValue L → Running L W Unit) (frame : Frame)
    (outcome : Outcome L) : Running L W Unit :=
  match outcome with
  | .ok value => complete frame value
  | .error error => fail frame error

/-- The keys of the fields of an object, and which of them may be null. -/
def keysOf (nodes : List Plan.Node) : List (String × Bool) :=
  nodes.map fun n => (n.key, n.type.nullable)

mutual

/-- Runs a field of an object. -/
def runNode (e : Execution ρ L W) (object : Name) (parent : Json) :
    Plan.Node → SlotId → Path → Running L W Unit
  | node@⟨_, _, type, _, _, children⟩, slot, path => do
    let frame : Frame := ⟨node, type, path, slot⟩
    let outcome ← e.fieldOutcome frame object parent
    finish (e.completeAs (selectFrom e children) type) frame outcome

/-- Runs the fields of an object one after the other, as long as the object can make it into the
response. -/
def runNodes (e : Execution ρ L W) (object : Name) (parent : Json) (above : SlotId) (path : Path) :
    List Plan.Node → List SlotId → Running L W Unit
  | node :: rest, slot :: slots => do
    runNode e object parent node slot (path.child (.field node.key))
    if ← isLive above then runNodes e object parent above path rest slots
  | _, _ => pure ()

/-- The fields of an object for the object types it can be of. -/
def selectFrom (e : Execution ρ L W) : List (Name × List Plan.Node) → Select L W
  | [], _ => none
  | (object, nodes) :: rest, name =>
    if object = name then
      some fun slot path value => do
        let slots ← grow fun t => t.setObject slot (keysOf nodes)
        runNodes e object value slot path nodes slots
    else selectFrom e rest name

end

/-- Completes a value of a field, wherever in the field it belongs. -/
def complete (e : Execution ρ L W) (frame : Frame) (value : FieldValue L) : Running L W Unit :=
  e.completeAs (e.selectFrom frame.field.children) frame.type frame value

/-- Completes deferred values whose place can still make it into the response. -/
def completePending (e : Execution ρ L W) : List (Pending L) → Running L W Unit
  | [] => pure ()
  | p :: rest => do
    if ← isLive p.frame.slot then
      let outcome ← e.force p.lazy
      finish e.complete p.frame outcome
    completePending e rest

/-- Completes all deferred values that were put aside so far. -/
def wave (e : Execution ρ L W) : Running L W Unit := do
  let p ← progress
  update fun p => { p with pending := [] }
  e.completePending p.pending

/-- Runs waves until nothing is deferred. -/
def settle (e : Execution ρ L W) : (fuel : Nat) → Running L W Unit
  | 0 => do
    let p ← progress
    if p.isPending then throw .unfinished
  | fuel + 1 => do
    let p ← progress
    if p.isPending then
      e.wave
      settle e fuel

/-- Runs the fields of the root one after the other, as long as there are data. Those of a
mutation are run to the end before the next one. -/
def runRoot (e : Execution ρ L W) (fuel : Nat) (serial : Bool) (root : Name) :
    List Plan.Node → List SlotId → Running L W Unit
  | node :: rest, slot :: slots => do
    e.runNode root (.object []) node slot [.field node.key]
    if serial then e.settle fuel
    if ← isLive ResponseTree.root then runRoot e fuel serial root rest slots
  | _, _ => pure ()

/-- Runs a query up to its first wave. -/
def begin (e : Execution ρ L W) (fuel : Nat) (plan : Plan) : Running L W Unit := do
  let slots ← grow fun t => t.setObject ResponseTree.root (keysOf plan.fields)
  e.runRoot fuel (plan.kind = .mutation) plan.root plan.fields slots

end Execution

end GraphQL
