import GraphQL.Execution.Query
import GraphQL.Proofs.Response.Tree
import Mathlib.Logic.Relation

/-!
# Execution as a machine

A machine holds how far a query has come, the world of its host, and a stack of tasks: fields to
resolve, values to complete, lazies to force. `Step` says what can happen to the task on top; a
task whose slot is dead is dropped. `Machine.Sound` is the invariant that each task still to be
done, those put aside included, has a pending slot of its own; every step keeps it.
-/

namespace GraphQL

/-- What is to be done at a place of the response. -/
inductive Work (L : Type) where
  | resolve (object : Name) (parent : Json)
  | complete (value : FieldValue L)
  | force (lazy : L)

structure Task (L : Type) where
  frame : Frame
  work : Work L

/-- How a value is completed at a place. -/
inductive Completion (L : Type) where
  | aside (lazy : L)
  | null
  | reject (error : CompletionError)
  | leaf (value : Json)
  | object (object : Name) (nodes : List Plan.Node) (value : Json)
  | list (item : TypeRef) (nullable : Bool) (items : List (FieldValue L))

structure Machine (L W : Type) where
  progress : Progress L
  world : W
  todo : List (Task L)

variable {ρ L W : Type}

namespace Task

def slot (t : Task L) : Nat :=
  t.frame.slot

/-- A deferred value is still to be forced. -/
def ofPending (p : Pending L) : Task L :=
  ⟨p.frame, .force p.lazy⟩

/-- The fields of an object are to be resolved, each at its slot. -/
def ofNodes (object : Name) (value : Json) (path : Path) :
    List Plan.Node → List SlotId → List (Task L)
  | node :: nodes, slot :: slots =>
    ⟨⟨node, node.type, path.child (.field node.key), slot⟩, .resolve object value⟩ ::
      ofNodes object value path nodes slots
  | _, _ => []

/-- The elements of a list are to be completed, each at its slot. -/
def ofItems (list : Frame) (item : TypeRef) : Nat → List (SlotId × FieldValue L) → List (Task L)
  | _, [] => []
  | i, (slot, value) :: rest =>
    ⟨⟨list.field, item, list.path.child (.index i), slot⟩, .complete value⟩ ::
      ofItems list item (i + 1) rest

end Task

/-! ## Completion without effects -/

/-- What a completion says of the place and the value that it is for. -/
def Completion.Fits (frame : Frame) (value : FieldValue L) : Completion L → Prop
  | aside lazy => value = .later lazy
  | null => value = .leaf .null ∧ frame.type.nullable = true
  | reject _ => True
  | leaf json => json ≠ .null
  | .object name nodes json => frame.field.childrenFor? name = some nodes ∧ value = .leaf json
  | .list item nullable items =>
    frame.type = .list item nullable ∧ Execution.elements value = .ok items

namespace Execution

def scalarCompletion (name : Name) (builtin : Option Scalar) (value : FieldValue L) :
    Completion L :=
  match value.toJson? with
  | none => .reject (.deferredLeaf name)
  | some json =>
    match builtin with
    | none => .leaf json
    | some scalar =>
      match scalar.serialize? json with
      | some output => .leaf output
      | none => .reject (.scalar scalar json)

def enumCompletion (name : Name) (values : List Name) (value : FieldValue L) : Completion L :=
  match value with
  | .leaf (.string text) =>
    if values.contains text then .leaf (.string text)
    else .reject (.enum name (some (.string text)))
  | other => .reject (.enum name other.toJson?)

def objectCompletion (e : Execution ρ L W) (field : Plan.Node) (name : Name)
    (value : FieldValue L) : Completion L :=
  match value with
  | .leaf object =>
    match (e.registry.concreteType name object).bind fun concrete =>
      (field.childrenFor? concrete).map fun nodes => (concrete, nodes) with
    | some (concrete, nodes) => .object concrete nodes object
    | none => .reject (.noObjectType name field.owner field.name)
  | _ => .reject (.listForObject name)

def namedCompletion (e : Execution ρ L W) (field : Plan.Node) (name : Name)
    (value : FieldValue L) : Completion L :=
  match e.registry.lookup name with
  | some (.scalar builtin) => scalarCompletion name builtin value
  | some (.enum values) => enumCompletion name values value
  | some (.object _ _) | some (.interface _ _) | some (.union _ _) =>
    e.objectCompletion field name value
  | _ => .reject (.notOutput name)

/-- What completing a value at a place comes to. -/
def completion (e : Execution ρ L W) (frame : Frame) (value : FieldValue L) : Completion L :=
  match value with
  | .later lazy => .aside lazy
  | .leaf .null =>
    if frame.type.nullable then .null
    else .reject (.null (Path.isElement frame.path) frame.field.owner frame.field.name)
  | value =>
    match frame.type with
    | .named name _ => e.namedCompletion frame.field name value
    | .list item nullable =>
      match elements value with
      | .error found => .reject (.notList found)
      | .ok items => .list item nullable items

theorem serialize?_ne_null {scalar : Scalar} {json output : Json}
    (h : scalar.serialize? json = some output) : output ≠ .null := by
  unfold Scalar.serialize? at h
  split at h
  · obtain ⟨n, -, rfl⟩ := Option.map_eq_some_iff.1 h
    exact nofun
  all_goals
    try split at h
    all_goals
      cases h
      try exact nofun

theorem fits_scalarCompletion (frame : Frame) (name : Name) (builtin : Option Scalar)
    {value : FieldValue L} (hv : value ≠ .leaf .null) :
    (scalarCompletion name builtin value).Fits frame value := by
  unfold scalarCompletion
  cases hj : value.toJson? with
  | none => trivial
  | some json =>
    cases builtin with
    | none =>
      rintro rfl
      cases value with
      | leaf json =>
        cases hj
        exact hv rfl
      | list items =>
        rw [FieldValue.toJson?] at hj
        obtain ⟨items, -, h⟩ := Option.map_eq_some_iff.1 hj
        cases h
      | later lazy => cases hj
    | some scalar =>
      simp only
      cases hs : scalar.serialize? json with
      | none => trivial
      | some output => exact serialize?_ne_null hs

theorem fits_enumCompletion (frame : Frame) (name : Name) (values : List Name)
    (value : FieldValue L) : (enumCompletion name values value).Fits frame value := by
  unfold enumCompletion
  split
  · split
    · exact nofun
    · trivial
  · trivial

theorem fits_objectCompletion (e : Execution ρ L W) (frame : Frame) (name : Name)
    (value : FieldValue L) : (e.objectCompletion frame.field name value).Fits frame value := by
  unfold objectCompletion
  cases value with
  | leaf object =>
    simp only
    split
    · next h =>
      obtain ⟨concrete, -, h⟩ := Option.bind_eq_some_iff.1 h
      obtain ⟨nodes, hn, h⟩ := Option.map_eq_some_iff.1 h
      cases h
      exact ⟨hn, rfl⟩
    · trivial
  | _ => trivial

theorem fits_completion (e : Execution ρ L W) (frame : Frame) (value : FieldValue L) :
    (e.completion frame value).Fits frame value := by
  unfold completion
  split
  · rfl
  · split
    · next h => exact ⟨rfl, h⟩
    · trivial
  · next hnull =>
    split
    · next name nullable _ =>
      unfold namedCompletion
      split
      · exact fits_scalarCompletion frame name _ hnull
      · exact fits_enumCompletion frame name _ value
      · exact e.fits_objectCompletion frame name value
      · exact e.fits_objectCompletion frame name value
      · exact e.fits_objectCompletion frame name value
      · trivial
    · next item nullable htype =>
      cases he : elements value with
      | error found => trivial
      | ok items => exact ⟨htype, he⟩

end Execution

/-! ## Steps -/

/-- The response with the fields of an object in a slot. -/
def Progress.growObject (p : Progress L) (slot : SlotId) (nodes : List Plan.Node) :
    List SlotId × Progress L :=
  let (slots, tree) := p.tree.setObject slot (Execution.keysOf nodes)
  (slots, { p with tree := tree })

/-- The response with the elements of a list in a slot. -/
def Progress.growList (p : Progress L) (slot : SlotId) (count : Nat) (nullable : Bool) :
    List SlotId × Progress L :=
  let (slots, tree) := p.tree.setList slot count nullable
  (slots, { p with tree := tree })

/-- One step with the task on top. Deferred values come back as tasks when a wave begins. -/
inductive Step (e : Execution ρ L W) : Machine L W → Machine L W → Prop where
  | skip {task : Task L} {p : Progress L} {w : W} {rest : List (Task L)} :
      p.tree.isLive task.slot = false → Step e ⟨p, w, task :: rest⟩ ⟨p, w, rest⟩
  | resolved {frame : Frame} {object : Name} {parent : Json} {value : FieldValue L}
      {p p' : Progress L} {w w' : W} {rest : List (Task L)} :
      p.tree.isLive frame.slot = true →
      (e.fieldOutcome frame object parent).run (p, w) = (.ok (.ok value), p', w') →
      Step e ⟨p, w, ⟨frame, .resolve object parent⟩ :: rest⟩ ⟨p', w', ⟨frame, .complete value⟩ :: rest⟩
  | unresolved {frame : Frame} {object : Name} {parent : Json} {error : Error}
      {p p' : Progress L} {w w' : W} {rest : List (Task L)} :
      p.tree.isLive frame.slot = true →
      (e.fieldOutcome frame object parent).run (p, w) = (.ok (.error (.field error)), p', w') →
      Step e ⟨p, w, ⟨frame, .resolve object parent⟩ :: rest⟩
        ⟨p'.record (.failure frame error), w', rest⟩
  | forced {frame : Frame} {lazy : L} {value : FieldValue L} {p : Progress L} {w w' : W}
      {rest : List (Task L)} :
      p.tree.isLive frame.slot = true → e.host.force lazy w = (.ok value, w') →
      Step e ⟨p, w, ⟨frame, .force lazy⟩ :: rest⟩ ⟨p, w', ⟨frame, .complete value⟩ :: rest⟩
  | unforced {frame : Frame} {lazy : L} {error : Error} {p : Progress L} {w w' : W}
      {rest : List (Task L)} :
      p.tree.isLive frame.slot = true → e.host.force lazy w = (.error (.field error), w') →
      Step e ⟨p, w, ⟨frame, .force lazy⟩ :: rest⟩ ⟨p.record (.failure frame error), w', rest⟩
  | aside {frame : Frame} {value : FieldValue L} {lazy : L} {p : Progress L} {w : W}
      {rest : List (Task L)} :
      p.tree.isLive frame.slot = true → e.completion frame value = .aside lazy →
      Step e ⟨p, w, ⟨frame, .complete value⟩ :: rest⟩ ⟨p.putAside frame lazy, w, rest⟩
  | null {frame : Frame} {value : FieldValue L} {p : Progress L} {w : W} {rest : List (Task L)} :
      p.tree.isLive frame.slot = true → e.completion frame value = .null →
      Step e ⟨p, w, ⟨frame, .complete value⟩ :: rest⟩ ⟨p.record (.null frame), w, rest⟩
  | rejected {frame : Frame} {value : FieldValue L} {error : CompletionError} {p : Progress L}
      {w : W} {rest : List (Task L)} :
      p.tree.isLive frame.slot = true → e.completion frame value = .reject error →
      Step e ⟨p, w, ⟨frame, .complete value⟩ :: rest⟩
        ⟨p.record (.failure frame (.ofMessage error.message)), w, rest⟩
  | leaf {frame : Frame} {value : FieldValue L} {json : Json} {p : Progress L} {w : W}
      {rest : List (Task L)} :
      p.tree.isLive frame.slot = true → e.completion frame value = .leaf json →
      Step e ⟨p, w, ⟨frame, .complete value⟩ :: rest⟩
        ⟨{ p with tree := p.tree.setLeaf frame.slot json }, w, rest⟩
  | object {frame : Frame} {value : FieldValue L} {object : Name} {nodes : List Plan.Node}
      {json : Json} {p : Progress L} {w : W} {rest : List (Task L)} :
      p.tree.isLive frame.slot = true → e.completion frame value = .object object nodes json →
      Step e ⟨p, w, ⟨frame, .complete value⟩ :: rest⟩
        ⟨(p.growObject frame.slot nodes).2, w,
          Task.ofNodes object json frame.path nodes (p.growObject frame.slot nodes).1 ++ rest⟩
  | list {frame : Frame} {value : FieldValue L} {item : TypeRef} {nullable : Bool}
      {items : List (FieldValue L)} {p : Progress L} {w : W} {rest : List (Task L)} :
      p.tree.isLive frame.slot = true → e.completion frame value = .list item nullable items →
      Step e ⟨p, w, ⟨frame, .complete value⟩ :: rest⟩
        ⟨(p.growList frame.slot items.length (item.nullable || nullable)).2, w,
          Task.ofItems frame item 0
            ((p.growList frame.slot items.length (item.nullable || nullable)).1.zip items) ++ rest⟩
  | wave {p : Progress L} {w : W} {todo : List (Task L)} :
      Step e ⟨p, w, todo⟩ ⟨{ p with pending := [] }, w, p.pending.map Task.ofPending ++ todo⟩

abbrev Steps (e : Execution ρ L W) : Machine L W → Machine L W → Prop :=
  Relation.ReflTransGen (Step e)

/-- The task on top fails in a way that stops everything. -/
inductive Breaks (e : Execution ρ L W) : Machine L W → String → Prop where
  | resolve {frame : Frame} {object : Name} {parent : Json} {message : String}
      {p p' : Progress L} {w w' : W} {rest : List (Task L)} :
      p.tree.isLive frame.slot = true →
      (e.fieldOutcome frame object parent).run (p, w) =
        (.ok (.error (.internal message)), p', w') →
      Breaks e ⟨p, w, ⟨frame, .resolve object parent⟩ :: rest⟩ message
  | force {frame : Frame} {lazy : L} {message : String} {p : Progress L} {w w' : W}
      {rest : List (Task L)} :
      p.tree.isLive frame.slot = true → e.host.force lazy w = (.error (.internal message), w') →
      Breaks e ⟨p, w, ⟨frame, .force lazy⟩ :: rest⟩ message

/-- Resolving a field changes nothing of the progress but the extensions. -/
theorem fieldOutcome_run (e : Execution ρ L W) (frame : Frame) (object : Name) (parent : Json)
    (p : Progress L) (w : W) : ∃ outcome entries w',
      (e.fieldOutcome frame object parent).run (p, w) =
        (.ok outcome, { p with extensions := entries }, w') := by
  unfold Execution.fieldOutcome
  simp only
  split
  · exact ⟨_, p.extensions, w, rfl⟩
  · split
    · exact ⟨_, p.extensions, w, rfl⟩
    · split
      · exact ⟨_, p.extensions, w, rfl⟩
      · exact ⟨_, _, _, rfl⟩

/-! ## What steps do to the response -/

theorem Task.ofNodes_eq (object : Name) (value : Json) (path : Path) (nodes : List Plan.Node)
    (slots : List SlotId) : Task.ofNodes (L := L) object value path nodes slots =
      List.zipWith (fun node slot =>
        ⟨⟨node, node.type, path.child (.field node.key), slot⟩, .resolve object value⟩) nodes slots := by
  induction nodes generalizing slots with
  | nil => rfl
  | cons node nodes ih =>
    cases slots with
    | nil => rfl
    | cons slot slots => rw [ofNodes, ih, List.zipWith_cons_cons]

theorem Task.ofItems_eq (list : Frame) (item : TypeRef) (i : Nat)
    (items : List (SlotId × FieldValue L)) : Task.ofItems list item i items =
      items.mapIdx fun k entry =>
        ⟨⟨list.field, item, list.path.child (.index (i + k)), entry.1⟩, .complete entry.2⟩ := by
  induction items generalizing i with
  | nil => rfl
  | cons entry items ih =>
    rw [ofItems, ih, List.mapIdx_cons]
    simp only [Nat.add_zero, Nat.add_right_comm, Nat.add_assoc]

theorem Task.map_slot_ofNodes (object : Name) (value : Json) (path : Path) :
    ∀ (nodes : List Plan.Node) (slots : List SlotId), nodes.length = slots.length →
      (Task.ofNodes (L := L) object value path nodes slots).map Task.slot = slots
  | [], [], _ => rfl
  | node :: nodes, slot :: slots, h => by
    rw [ofNodes, List.map_cons, map_slot_ofNodes object value path nodes slots (by simpa using h)]
    rfl

theorem Task.map_slot_ofItems (list : Frame) (item : TypeRef) :
    ∀ (i : Nat) (items : List (SlotId × FieldValue L)),
      (Task.ofItems list item i items).map Task.slot = items.map Prod.fst
  | _, [] => rfl
  | i, (slot, value) :: rest => by
    rw [ofItems, List.map_cons, map_slot_ofItems list item (i + 1) rest]
    rfl

theorem Task.getElem?_ofNodes {object : Name} {value : Json} {path : Path} {task : Task L}
    {nodes : List Plan.Node} {slots : List SlotId} {k : Nat}
    (h : (Task.ofNodes object value path nodes slots)[k]? = some task) : ∃ node slot,
      nodes[k]? = some node ∧ slots[k]? = some slot ∧
      task = ⟨⟨node, node.type, path.child (.field node.key), slot⟩, .resolve object value⟩ := by
  rw [ofNodes_eq, List.getElem?_zipWith_eq_some] at h
  obtain ⟨node, slot, hn, hs, rfl⟩ := h
  exact ⟨node, slot, hn, hs, rfl⟩

theorem Task.getElem?_ofItems {list : Frame} {item : TypeRef} {task : Task L} {i : Nat}
    {items : List (SlotId × FieldValue L)} {k : Nat}
    (h : (Task.ofItems list item i items)[k]? = some task) : ∃ slot value,
      items[k]? = some (slot, value) ∧
      task = ⟨⟨list.field, item, list.path.child (.index (i + k)), slot⟩, .complete value⟩ := by
  rw [ofItems_eq, List.getElem?_mapIdx, Option.map_eq_some_iff] at h
  obtain ⟨⟨slot, value⟩, hi, rfl⟩ := h
  exact ⟨slot, value, hi, rfl⟩

/-- A step, as far as slots are concerned: the task on top is dropped, stays, is settled by a note,
is put aside, or makes its slot grow. -/
inductive Moves : Machine L W → Machine L W → Prop where
  | drop {task : Task L} {p : Progress L} {w : W} {rest : List (Task L)} :
      p.tree.isLive task.slot = false → Moves ⟨p, w, task :: rest⟩ ⟨p, w, rest⟩
  | stay {frame : Frame} {work work' : Work L} {p p' : Progress L} {w w' : W}
      {rest : List (Task L)} : p.tree.isLive frame.slot = true → p'.tree = p.tree →
      p'.notes = p.notes → p'.pending = p.pending →
      Moves ⟨p, w, ⟨frame, work⟩ :: rest⟩ ⟨p', w', ⟨frame, work'⟩ :: rest⟩
  | note (note : Note) {work : Work L} {p p' : Progress L} {w w' : W} {rest : List (Task L)} :
      p.tree.isLive note.frame.slot = true → p'.tree = p.tree →
      p'.notes = p.notes → p'.pending = p.pending →
      Moves ⟨p, w, ⟨note.frame, work⟩ :: rest⟩ ⟨p'.record note, w', rest⟩
  | aside {frame : Frame} {work : Work L} {lazy : L} {p : Progress L} {w : W}
      {rest : List (Task L)} : p.tree.isLive frame.slot = true →
      Moves ⟨p, w, ⟨frame, work⟩ :: rest⟩ ⟨p.putAside frame lazy, w, rest⟩
  | grow (flags : List Bool) (tasks : List (Task L)) {frame : Frame} {work : Work L}
      {content : ResponseTree.Content} {p : Progress L} {w : W} {rest : List (Task L)} :
      p.tree.isLive frame.slot = true → content.children = p.tree.nextIds flags.length →
      content ≠ .null → content ≠ .pending →
      tasks.map Task.slot = p.tree.nextIds flags.length →
      Moves ⟨p, w, ⟨frame, work⟩ :: rest⟩
        ⟨{ p with tree := p.tree.grow frame.slot flags content }, w, tasks ++ rest⟩
  | wave {p : Progress L} {w : W} {todo : List (Task L)} :
      Moves ⟨p, w, todo⟩ ⟨{ p with pending := [] }, w, p.pending.map Task.ofPending ++ todo⟩

@[simp] theorem length_nextIds (t : ResponseTree) (n : Nat) : (t.nextIds n).length = n := by
  simp [ResponseTree.nextIds]

@[simp] theorem length_keysOf (nodes : List Plan.Node) :
    (Execution.keysOf nodes).length = nodes.length := by
  simp [Execution.keysOf]

theorem Step.moves {e : Execution ρ L W} {m m' : Machine L W} (h : Step e m m') : Moves m m' := by
  cases h with
  | skip hl => exact .drop hl
  | @resolved frame object parent value p p' w w' rest hl hr =>
    obtain ⟨o, entries, w2, h2⟩ := fieldOutcome_run e frame object parent p w
    rw [hr] at h2
    cases h2
    exact .stay hl rfl rfl rfl
  | @unresolved frame object parent error p p' w w' rest hl hr =>
    obtain ⟨o, entries, w2, h2⟩ := fieldOutcome_run e frame object parent p w
    rw [hr] at h2
    cases h2
    exact .note (.failure frame error) hl rfl rfl rfl
  | forced hl _ => exact .stay hl rfl rfl rfl
  | @unforced frame _ error _ _ _ _ hl _ =>
    exact .note (.failure frame error) hl rfl rfl rfl
  | aside hl _ => exact .aside hl
  | @null frame _ _ _ _ hl _ => exact .note (.null frame) hl rfl rfl rfl
  | @rejected frame _ error _ _ _ hl _ =>
    exact .note (.failure frame (.ofMessage error.message)) hl rfl rfl rfl
  | leaf hl _ => exact .grow [] [] hl rfl nofun nofun rfl
  | @object frame _ object nodes json p _ _ hl _ =>
    refine .grow ((Execution.keysOf nodes).map Prod.snd) _ hl ?_ nofun nofun ?_
    · simp [ResponseTree.Content.children, List.map_snd_zip]
    · rw [Task.map_slot_ofNodes _ _ _ _ _ (by simp [Progress.growObject, ResponseTree.setObject])]
      simp [Progress.growObject, ResponseTree.setObject]
  | @list frame _ item nullable items p _ _ hl _ =>
    refine .grow (List.replicate items.length (item.nullable || nullable)) _ hl ?_ nofun nofun ?_
    · simp [ResponseTree.Content.children]
    · rw [Task.map_slot_ofItems, List.map_fst_zip (by simp [Progress.growList, ResponseTree.setList])]
      simp [Progress.growList, ResponseTree.setList]
  | wave => exact .wave

/-! ## The invariant -/

namespace Machine

/-- All that is still to be done. -/
def tasks (m : Machine L W) : List (Task L) :=
  m.todo ++ m.progress.pending.map Task.ofPending

/-- Each task has a pending slot of its own, and each pending slot that is live has a task. -/
structure Sound (m : Machine L W) : Prop where
  tree : m.progress.tree.WellFormed
  pending : ∀ task ∈ m.tasks, ∃ slot, m.progress.tree.get? task.slot = some slot ∧
    slot.content = .pending
  distinct : (m.tasks.map Task.slot).Nodup
  covered : ∀ {id : Nat} {slot}, m.progress.tree.get? id = some slot → slot.content = .pending →
    m.progress.tree.isLive id = true → id ∈ m.tasks.map Task.slot

end Machine

/-- Above a pending slot there are none that are pending. -/
theorem ResponseTree.WellFormed.eq_of_within_pending {t : ResponseTree} (wf : t.WellFormed)
    {above id : Nat} (h : ResponseTree.Within t above id) {s : ResponseTree.Slot}
    (hs : t.get? above = some s) (hp : s.content = .pending) : above = id := by
  induction h with
  | self => rfl
  | child hg hpar _ ih =>
    subst ih
    obtain ⟨s', hs', hc⟩ := wf.child_of_parent hg hpar
    rw [hs] at hs'
    cases hs'
    rw [hp] at hc
    rcases hc with hc | hc <;> cases hc

/-- A null leaves the other pending slots alone. -/
theorem ResponseTree.WellFormed.get?_setNull_pending {t : ResponseTree} (wf : t.WellFormed)
    {id j : Nat} {slot s : ResponseTree.Slot} (h : t.get? id = some slot) (hj : t.get? j = some s)
    (hp : s.content = .pending) (hne : j ≠ id) : (t.setNull id).get? j = some s := by
  rw [get?_setNull, if_neg, hj]
  intro he
  have hw := within_nulled wf h
  rw [← he] at hw
  exact hne (wf.eq_of_within_pending hw hj hp)

namespace Machine

variable {m m' : Machine L W}

theorem Sound.of_perm (h : m.Sound) (ht : m'.progress.tree = m.progress.tree)
    (hp : (m'.tasks.map Task.slot).Perm (m.tasks.map Task.slot)) : m'.Sound := by
  constructor
  · rw [ht]
    exact h.tree
  · intro task hm
    have : task.slot ∈ m.tasks.map Task.slot := hp.mem_iff.1 (List.mem_map_of_mem hm)
    obtain ⟨task', hm', he⟩ := List.mem_map.1 this
    rw [ht, ← he]
    exact h.pending task' hm'
  · exact hp.nodup_iff.2 h.distinct
  · rw [ht]
    intro id slot hg hc hl
    exact hp.mem_iff.2 (h.covered hg hc hl)

theorem Sound.note {work : Work L} {note : Note} {p p' : Progress L} {w w' : W}
    {rest : List (Task L)} (h : (⟨p, w, ⟨note.frame, work⟩ :: rest⟩ : Machine L W).Sound)
    (ht : p'.tree = p.tree) (hp : p'.pending = p.pending) :
    (⟨p'.record note, w', rest⟩ : Machine L W).Sound := by
  have htree : (p'.record note).tree = p.tree.setNull note.frame.slot := by
    rw [Progress.record, ht]
  have htasks : (⟨p'.record note, w', rest⟩ : Machine L W).tasks =
      rest ++ p.pending.map Task.ofPending := by rw [tasks, Progress.record, hp]
  obtain ⟨slot, hslot, hcontent⟩ := h.pending ⟨note.frame, work⟩ (List.mem_cons_self ..)
  replace hslot : p.tree.get? note.frame.slot = some slot := hslot
  obtain ⟨hnot, hnodup⟩ := List.nodup_cons.1 h.distinct
  have wf' := ResponseTree.wellFormed_setNull h.tree hslot
  constructor
  · exact htree ▸ wf'
  · rw [htasks, htree]
    intro task hm
    obtain ⟨s, hs, hc⟩ := h.pending task (List.mem_cons_of_mem _ hm)
    refine ⟨s, h.tree.get?_setNull_pending hslot hs hc ?_, hc⟩
    intro he
    exact hnot (List.mem_map.2 ⟨task, hm, he⟩)
  · rw [htasks]
    exact hnodup
  · rw [htasks, htree]
    intro id s hg hc hl
    have hold : p.tree.get? id = some s := by
      rw [ResponseTree.get?_setNull] at hg
      split at hg
      · obtain ⟨s', -, rfl⟩ := Option.map_eq_some_iff.1 hg
        cases hc
      · exact hg
    have hlive := (ResponseTree.extends_setNull p.tree note.frame.slot).isLive_of h.tree wf' hold hl
    rcases List.mem_cons.1 (h.covered hold hc hlive) with he | hm
    · -- the slot of the note is dead from now on
      have hne := (ResponseTree.isLive_iff wf' hg).1 hl (p.tree.nulled id)
      obtain ⟨s', hs', -⟩ := ResponseTree.nulled_nullable h.tree hold
      have hw := (ResponseTree.extends_setNull p.tree note.frame.slot).within_of
        (ResponseTree.within_nulled h.tree hold)
      have hid : id = note.frame.slot := he
      refine absurd rfl (hne { s' with content := .null } hw ?_)
      rw [ResponseTree.get?_setNull, if_pos (by rw [hid]), hs']
      rfl
    · exact hm

theorem Sound.grow {frame : Frame} {work : Work L} {flags : List Bool}
    {content : ResponseTree.Content} {new : List (Task L)} {p : Progress L} {w : W}
    {rest : List (Task L)} (h : (⟨p, w, ⟨frame, work⟩ :: rest⟩ : Machine L W).Sound)
    (hc : content.children = p.tree.nextIds flags.length) (hnull : content ≠ .null)
    (hpend : content ≠ .pending) (hnew : new.map Task.slot = p.tree.nextIds flags.length) :
    (⟨{ p with tree := p.tree.grow frame.slot flags content }, w, new ++ rest⟩ :
      Machine L W).Sound := by
  obtain ⟨slot, hslot, hcontent⟩ := h.pending ⟨frame, work⟩ (List.mem_cons_self ..)
  replace hslot : p.tree.get? frame.slot = some slot := hslot
  obtain ⟨hnot, hnodup⟩ := List.nodup_cons.1 h.distinct
  replace hnot : frame.slot ∉ (rest ++ p.pending.map Task.ofPending).map Task.slot := hnot
  have htasks : (⟨{ p with tree := p.tree.grow frame.slot flags content }, w, new ++ rest⟩ :
      Machine L W).tasks = new ++ (rest ++ p.pending.map Task.ofPending) := by
    simp [tasks]
  have wf' := ResponseTree.wellFormed_grow h.tree hslot hcontent hc hnull
  have old : ∀ task ∈ rest ++ p.pending.map Task.ofPending, task.slot < p.tree.slots.size := by
    intro task hm
    obtain ⟨s, hs, -⟩ := h.pending task (List.mem_cons_of_mem _ hm)
    exact ResponseTree.lt_size hs
  constructor
  · exact wf'
  · rw [htasks]
    intro task hm
    rcases List.mem_append.1 hm with hm | hm
    · have hin : task.slot ∈ new.map Task.slot := List.mem_map_of_mem hm
      rw [hnew, ResponseTree.mem_nextIds] at hin
      obtain ⟨k, hk, he⟩ := hin
      rw [he]
      exact ⟨_, ResponseTree.get?_grow_new hslot (List.getElem?_eq_getElem hk), rfl⟩
    · obtain ⟨s, hs, hc'⟩ := h.pending task (List.mem_cons_of_mem _ hm)
      refine ⟨s, ?_, hc'⟩
      rw [ResponseTree.get?_grow_old _ (ResponseTree.lt_size hs)]
      · exact hs
      · intro he
        exact hnot (List.mem_map.2 ⟨task, hm, he⟩)
  · rw [htasks, List.map_append, hnew, List.nodup_append]
    refine ⟨List.nodup_range', hnodup, ?_⟩
    intro a ha b hb hab
    obtain ⟨k, -, rfl⟩ := ResponseTree.mem_nextIds.1 ha
    obtain ⟨task, hm, rfl⟩ := List.mem_map.1 hb
    have := old task hm
    omega
  · rw [htasks]
    intro id s hg hcs hl
    rw [List.map_append, hnew, List.mem_append]
    obtain ⟨rfl, rfl⟩ | ⟨hne, hg⟩ | ⟨k, nullable, rfl, hk, rfl⟩ :=
      ResponseTree.get?_grow_cases hslot hg
    · exact absurd hcs hpend
    · right
      have hlive : p.tree.isLive id = true := by
        rw [← ResponseTree.isLive_grow h.tree hslot hcontent hc hnull (ResponseTree.lt_size hg)]
        exact hl
      rcases List.mem_cons.1 (h.covered hg hcs hlive) with he | hm
      · exact absurd he hne
      · exact hm
    · left
      rw [ResponseTree.mem_nextIds]
      exact ⟨k, (List.getElem?_eq_some_iff.1 hk).1, rfl⟩

end Machine

theorem Moves.sound {m m' : Machine L W} (hm : Moves m m') (h : m.Sound) : m'.Sound := by
  cases hm with
  | @drop task p w rest hl =>
    obtain ⟨hnot, hnodup⟩ := List.nodup_cons.1 h.distinct
    refine ⟨h.tree, fun task hm => h.pending task (List.mem_cons_of_mem _ hm), hnodup, ?_⟩
    intro id slot hg hc hlive
    rcases List.mem_cons.1 (h.covered hg hc hlive) with he | hm
    · replace hlive : p.tree.isLive id = true := hlive
      rw [he, hl] at hlive
      cases hlive
    · exact hm
  | stay _ ht _ hp => exact h.of_perm ht (by simp [Machine.tasks, Task.slot, hp])
  | note _ _ ht _ hp => exact h.note ht hp
  | @aside frame work lazy p w rest _ =>
    refine h.of_perm rfl ?_
    simp only [Machine.tasks, Progress.putAside, List.map_append, List.cons_append, List.map_cons,
      List.map_nil, ← List.append_assoc]
    exact List.perm_append_singleton _ _
  | grow _ _ _ hc hnull hpend hnew => exact h.grow hc hnull hpend hnew
  | @wave p w todo =>
    refine h.of_perm rfl ?_
    simp only [Machine.tasks, List.map_append, List.map_nil, List.append_nil]
    exact List.perm_append_comm

theorem Moves.extends {m m' : Machine L W} (hm : Moves m m') (h : m.Sound) :
    ResponseTree.Extends m.progress.tree m'.progress.tree := by
  cases hm with
  | drop | aside | wave => exact .refl _
  | stay _ ht _ _ => exact ht ▸ .refl _
  | @note note work p p' w w' rest _ ht _ _ =>
    show ResponseTree.Extends p.tree (p'.tree.setNull note.frame.slot)
    rw [ht]
    exact ResponseTree.extends_setNull _ _
  | @grow _ _ frame work _ p _ _ _ _ _ _ _ =>
    obtain ⟨slot, hslot, hcontent⟩ := h.pending ⟨frame, work⟩ (List.mem_cons_self ..)
    exact ResponseTree.extends_grow hslot (by rw [hcontent]; exact nofun) _ _

theorem Steps.sound {e : Execution ρ L W} {m m' : Machine L W} (hs : Steps e m m')
    (h : m.Sound) : m'.Sound := by
  induction hs with
  | refl => exact h
  | tail _ hs ih => exact hs.moves.sound ih

theorem Steps.extends {e : Execution ρ L W} {m m' : Machine L W} (hs : Steps e m m')
    (h : m.Sound) : ResponseTree.Extends m.progress.tree m'.progress.tree := by
  induction hs with
  | refl => exact .refl _
  | tail hs h1 ih => exact ih.trans (h1.moves.extends (Steps.sound hs h))

end GraphQL
