import GraphQL.Proofs.Execution.Machine
import Mathlib.Algebra.GroupWithZero.Nat

/-!
# Direct evaluation

What a query comes to when lazies are forced on the spot, in one recursion along its plan, without
a host: `Answers` says what resolvers and lazies give. A null, or an error, travels up to the closest
position that may be null. Beside the data, a `Verdict` counts the lazies that were forced.
-/

namespace GraphQL

/-- What resolvers and lazies give, if that depends on nothing but what they are given. A lazy may
give another one, but each has fewer links to come than the one before. -/
structure Answers (ρ L : Type) where
  field : Option ρ → FieldContext → Outcome L
  lazy : L → Outcome L
  links : L → Nat
  links_lt : ∀ {l l' : L}, lazy l = .ok (.later l') → links l' < links l

/-- What evaluating a position comes to: its data, or none when there is only a null that has to
find a place, and how many lazies were forced on the way. -/
structure Verdict where
  data : Option Json
  lazies : Nat

namespace Verdict

def null : Verdict :=
  ⟨none, 0⟩

def leaf (value : Json) : Verdict :=
  ⟨some value, 0⟩

/-- The data at a position. A null stays where it may. -/
def placed (nullable : Bool) : Option Json → Option Json
  | some value => some value
  | none => if nullable then some .null else none

/-- An object of the data of its fields, with their keys and whether they may be null. -/
def objectOf (fields : List (String × Bool × Option Json)) : Option Json :=
  (fields.mapM (m := Option) fun f => (placed f.2.1 f.2.2).map fun value => (f.1, value)).map .object

/-- A list of the data of its elements, with whether they may be null. -/
def arrayOf (items : List (Bool × Option Json)) : Option Json :=
  (items.mapM (m := Option) fun i => placed i.1 i.2).map .array

def object (fields : List (String × Bool × Verdict)) : Verdict :=
  ⟨objectOf (fields.map fun f => (f.1, f.2.1, f.2.2.data)), (fields.map fun f => f.2.2.lazies).sum⟩

def list (items : List (Bool × Verdict)) : Verdict :=
  ⟨arrayOf (items.map fun i => (i.1, i.2.data)), (items.map fun i => i.2.lazies).sum⟩

/-- The same after more lazies were forced. -/
def after (n : Nat) (v : Verdict) : Verdict :=
  { v with lazies := n + v.lazies }

end Verdict

variable {ρ L W : Type}

namespace Answers

/-- The outcome of a lazy that is forced until nothing is deferred, and how many lazies that took. -/
def chain (a : Answers ρ L) (l : L) : Nat × Outcome L :=
  match _h : a.lazy l with
  | .ok (.later l') =>
    let (n, outcome) := a.chain l'
    (n + 1, outcome)
  | outcome => (1, outcome)
termination_by a.links l
decreasing_by exact a.links_lt _h

/-- Goes on with a value once it is not deferred any more. -/
def forcing (a : Answers ρ L) (value : FieldValue L) (next : FieldValue L → Verdict) : Verdict :=
  match value with
  | .later l =>
    match a.chain l with
    | (n, .ok value) => (next value).after n
    | (n, .error _) => Verdict.null.after n
  | value => next value

end Answers

namespace Execution

/-- The outcome of a field, or an error when its arguments are wrong. -/
def answer (e : Execution ρ L W) (a : Answers ρ L) (field : Plan.Node) (path : Path)
    (object : Name) (parent : Json) : Outcome L :=
  if field.isTypename then .ok (.leaf (.string object))
  else
    match e.registry.field? object field.name with
    | none =>
      .error (.ofMessage (CompletionError.undefinedField field.name object).message)
    | some spec =>
      match e.registry.coerceArguments e.variableValues field.name spec.arguments field.first with
      | .error error => .error (.field error.toError)
      | .ok arguments =>
        a.field spec.resolver
          ⟨object, field.name, parent, arguments, path, field.first, e.variableValues, e.data⟩

/-- Evaluates the value of a field at a type. `select` evaluates the fields of an object. -/
def evaluateAs (e : Execution ρ L W) (a : Answers ρ L)
    (select : Name → Option (Path → Json → Verdict)) (field : Plan.Node) :
    TypeRef → Path → FieldValue L → Verdict
  | .named name nullable, path, value => a.forcing value fun value =>
    match e.completion ⟨field, .named name nullable, path, ResponseTree.root⟩ value with
    | .leaf json => .leaf json
    | .object object _ json =>
      match select object with
      | some run => run path json
      | none => .null
    | _ => .null
  | .list item nullable, path, value => a.forcing value fun value =>
    match e.completion ⟨field, .list item nullable, path, ResponseTree.root⟩ value with
    | .list _ _ items =>
      .list (items.mapIdx fun i value =>
        (item.nullable || nullable, evaluateAs e a select field item (path.child (.index i)) value))
    | _ => .null

mutual

/-- Evaluates a field of an object. -/
def evaluateNode (e : Execution ρ L W) (a : Answers ρ L) (object : Name) (parent : Json) :
    Plan.Node → Path → Verdict
  | node@⟨_, _, type, _, _, children⟩, path =>
    match e.answer a node path object parent with
    | .ok value => e.evaluateAs a (evaluateChildren e a children) node type path value
    | .error _ => .null

/-- Evaluates the fields of an object one after the other. -/
def evaluateNodes (e : Execution ρ L W) (a : Answers ρ L) (object : Name) (parent : Json)
    (path : Path) : List Plan.Node → List (String × Bool × Verdict)
  | [] => []
  | node :: rest =>
    (node.key, node.type.nullable, evaluateNode e a object parent node (path.child (.field node.key)))
      :: evaluateNodes e a object parent path rest

/-- Evaluates an object of one of the types that there are fields for. -/
def evaluateChildren (e : Execution ρ L W) (a : Answers ρ L) :
    List (Name × List Plan.Node) → Name → Option (Path → Json → Verdict)
  | [], _ => none
  | (object, nodes) :: rest, name =>
    if object = name then some fun path value => .object (evaluateNodes e a object value path nodes)
    else evaluateChildren e a rest name

end

/-- The data of a query, evaluated directly. -/
def evaluate (e : Execution ρ L W) (a : Answers ρ L) (plan : Plan) : Json :=
  (Verdict.object (e.evaluateNodes a plan.root (.object []) [] plan.fields)).data.getD .null

end Execution

/-! ## Forcing -/

namespace Answers

variable (a : Answers ρ L)

theorem chain_eq (l : L) : a.chain l =
    match a.lazy l with
    | .ok (.later l') => ((a.chain l').1 + 1, (a.chain l').2)
    | outcome => (1, outcome) := by
  rw [chain]
  split
  · next h => rw [h]
  · next hne =>
    split
    · next l' h => exact (hne l' h).elim
    · rfl

theorem forcing_later (l : L) (next : FieldValue L → Verdict) : a.forcing (.later l) next =
    match a.lazy l with
    | .ok value => (a.forcing value next).after 1
    | .error _ => Verdict.null.after 1 := by
  rw [forcing, chain_eq]
  cases h : a.lazy l with
  | error error => rfl
  | ok value =>
    cases value with
    | later l' =>
      simp only [forcing]
      rcases a.chain l' with ⟨n, _ | _⟩ <;>
        simp only [Verdict.after, Nat.add_assoc, Nat.add_comm, Nat.add_left_comm]
    | _ => rfl

end Answers

/-! ## The verdict of a task -/

namespace Execution

variable (e : Execution ρ L W) (a : Answers ρ L)

/-- Evaluates a value where it belongs. -/
def evaluateAt (frame : Frame) (value : FieldValue L) : Verdict :=
  e.evaluateAs a (e.evaluateChildren a frame.field.children) frame.field frame.type frame.path value

end Execution

/-- What a task comes to when it is done directly. -/
def Task.verdict (e : Execution ρ L W) (a : Answers ρ L) (task : Task L) : Verdict :=
  match task.work with
  | .resolve object parent =>
    match e.answer a task.frame.field task.frame.path object parent with
    | .ok value => e.evaluateAt a task.frame value
    | .error _ => .null
  | .complete value => e.evaluateAt a task.frame value
  | .force l => e.evaluateAt a task.frame (.later l)

namespace Execution

variable {e : Execution ρ L W} {a : Answers ρ L} {frame : Frame} {value : FieldValue L}

theorem evaluateChildren_eq (children : List (Name × List Plan.Node)) (name : Name) :
    e.evaluateChildren a children name = (Assoc.get? children name).map fun nodes path value =>
      .object (e.evaluateNodes a name value path nodes) := by
  induction children with
  | nil => rfl
  | cons entry rest ih =>
    obtain ⟨object, nodes⟩ := entry
    rw [evaluateChildren, Assoc.get?]
    split
    · next h =>
      subst h
      rfl
    · exact ih

/-- What a completion comes to, unless it puts the value aside. -/
def completionVerdict (e : Execution ρ L W) (a : Answers ρ L) (frame : Frame) :
    Completion L → Verdict
  | .leaf json => .leaf json
  | .object object nodes json => .object (e.evaluateNodes a object json frame.path nodes)
  | .list item nullable items => .list (items.mapIdx fun i value => (item.nullable || nullable,
      e.evaluateAt a ⟨frame.field, item, frame.path.child (.index i), frame.slot⟩ value))
  | _ => .null

/-- A value that is not deferred is evaluated as its completion says. -/
theorem evaluateAt_eq (h : ∀ l, value ≠ .later l) :
    e.evaluateAt a frame value = e.completionVerdict a frame (e.completion frame value) := by
  have hforcing : ∀ next, a.forcing value next = next value := fun next => by
    cases value with
    | later l => exact absurd rfl (h l)
    | _ => rfl
  obtain ⟨field, type, path, slot⟩ := frame
  have hfit := e.fits_completion ⟨field, type, path, slot⟩ value
  cases type with
  | named name nullable =>
    rw [evaluateAt, evaluateAs, hforcing]
    show (match e.completion ⟨field, .named name nullable, path, slot⟩ value with
      | .leaf json => _
      | .object object _ json => _
      | _ => _) = _
    cases hc : e.completion ⟨field, .named name nullable, path, slot⟩ value with
    | object object nodes json =>
      rw [hc] at hfit
      simp only [evaluateChildren_eq]
      rw [show Assoc.get? field.children object = some nodes from hfit.1]
      rfl
    | list item nullable items =>
      rw [hc] at hfit
      cases hfit.1
    | _ => rfl
  | list item nullable =>
    rw [evaluateAt, evaluateAs, hforcing]
    cases value with
    | later l => exact absurd rfl (h l)
    | list items => rfl
    | leaf json =>
      cases json with
      | null => cases nullable <;> rfl
      | _ => rfl

theorem evaluateNode_eq (object : Name) (parent : Json) (node : Plan.Node) (path : Path)
    (slot : SlotId) : e.evaluateNode a object parent node path =
      Task.verdict e a ⟨⟨node, node.type, path, slot⟩, .resolve object parent⟩ := by
  cases node
  rfl

end Execution

end GraphQL
