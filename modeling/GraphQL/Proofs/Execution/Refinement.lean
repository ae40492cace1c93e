import GraphQL.Proofs.Execution.Machine

/-!
# Runs are steps of the machine

`Does e m p w todo rest` says that running `m` from `p` and `w` takes the steps of the machine from
the stack `todo` down to `rest`, or comes to a task that breaks. It is shown for each
part of execution, along the plan: `runNode_does`, `completePending_does`, and from these
`begin_does` and `wave_does`.
-/

namespace GraphQL

variable {ρ L W α β : Type}

namespace Execution

/-! ## Running in sequence -/

theorem run_bind (m : Running L W α) (f : α → Running L W β) (s : Progress L × W) :
    (m >>= f).run s =
      match m.run s with
      | (.ok a, s') => (f a).run s'
      | (.error halt, s') => (.error halt, s') := by
  show (ExceptT.bind m f).run s = _
  unfold ExceptT.bind
  simp only [ExceptT.run, ExceptT.mk, bind, StateT.bind]
  cases h : m s with
  | mk r s' => cases r <;> rfl

@[simp] theorem run_pure (a : α) (s : Progress L × W) :
    (pure a : Running L W α).run s = (.ok a, s) := rfl

@[simp] theorem run_update (f : Progress L → Progress L) (p : Progress L) (w : W) :
    (update f : Running L W Unit).run (p, w) = (.ok (), f p, w) := rfl

@[simp] theorem run_progress (p : Progress L) (w : W) :
    (progress : Running L W (Progress L)).run (p, w) = (.ok p, p, w) := rfl

@[simp] theorem run_isLive (slot : SlotId) (p : Progress L) (w : W) :
    (isLive slot : Running L W Bool).run (p, w) = (.ok (p.tree.isLive slot), p, w) := rfl

@[simp] theorem run_grow (f : ResponseTree → List SlotId × ResponseTree) (p : Progress L) (w : W) :
    (grow f : Running L W (List SlotId)).run (p, w) =
      (.ok (f p.tree).1, { p with tree := (f p.tree).2 }, w) := rfl

@[simp] theorem run_force (e : Execution ρ L W) (lazy : L) (p : Progress L) (w : W) :
    (e.force lazy).run (p, w) = (.ok (e.host.force lazy w).1, p, (e.host.force lazy w).2) := rfl

theorem run_resolve (e : Execution ρ L W) (f : FieldSpec ρ) (ctx : FieldContext) (p : Progress L)
    (w : W) : (e.resolve f ctx).run (p, w) = (.ok (e.host.resolve f.resolver ctx p.extensions w).1,
      { p with extensions := (e.host.resolve f.resolver ctx p.extensions w).2.1 },
      (e.host.resolve f.resolver ctx p.extensions w).2.2) := rfl

@[simp] theorem run_throw (halt : Halt) (s : Progress L × W) :
    (throw halt : Running L W α).run s = (.error halt, s) := rfl

/-- Running `m` takes the steps from one stack to another, or comes to a task that breaks. -/
def Does (e : Execution ρ L W) (m : Running L W Unit) (p : Progress L) (w : W)
    (todo rest : List (Task L)) : Prop :=
  (⟨p, w, todo⟩ : Machine L W).Sound →
    match m.run (p, w) with
    | (.ok (), p', w') => Steps e ⟨p, w, todo⟩ ⟨p', w', rest⟩
    | (.error halt, _) => ∃ message broken, halt = .internal message ∧
        Steps e ⟨p, w, todo⟩ broken ∧ Breaks e broken message

variable {e : Execution ρ L W} {m m' : Running L W Unit} {p p' : Progress L} {w w' : W}
  {todo mid rest : List (Task L)} {frame : Frame}

theorem does_pure : Does e (pure ()) p w rest rest := fun _ => .refl

/-- Steps in front of what a run does. -/
theorem Does.steps (h1 : Steps e ⟨p, w, todo⟩ ⟨p', w', mid⟩)
    (hr : m.run (p, w) = m'.run (p', w')) (h : Does e m' p' w' mid rest) :
    Does e m p w todo rest := by
  intro hs
  have := h (h1.sound hs)
  rw [hr]
  split
  · next he =>
    rw [he] at this
    exact h1.trans this
  · next he =>
    rw [he] at this
    obtain ⟨message, broken, hh, hsteps, hb⟩ := this
    exact ⟨message, broken, hh, h1.trans hsteps, hb⟩

theorem Does.step (h1 : Step e ⟨p, w, todo⟩ ⟨p', w', mid⟩)
    (hr : m.run (p, w) = m'.run (p', w')) (h : Does e m' p' w' mid rest) :
    Does e m p w todo rest :=
  .steps (.single h1) hr h

theorem Does.of_sound (h : (⟨p, w, todo⟩ : Machine L W).Sound → Does e m p w todo rest) :
    Does e m p w todo rest :=
  fun hs => h hs hs

theorem Does.last (h1 : Step e ⟨p, w, todo⟩ ⟨p', w', rest⟩)
    (hr : m.run (p, w) = (.ok (), p', w')) : Does e m p w todo rest :=
  .step h1 (by exact hr) does_pure

/-- One part of a run after another. -/
theorem Does.bind {f : Unit → Running L W Unit} (h1 : Does e m p w todo mid)
    (h2 : ∀ p' w', ResponseTree.Extends p.tree p'.tree →
      (⟨p', w', mid⟩ : Machine L W).Sound → Does e (f ()) p' w' mid rest) :
    Does e (m >>= f) p w todo rest := by
  intro hs
  have h := h1 hs
  rw [run_bind]
  cases hm : m.run (p, w) with
  | mk r s =>
    obtain ⟨p', w'⟩ := s
    rw [hm] at h
    cases r with
    | ok _ =>
      have hsteps : Steps e ⟨p, w, todo⟩ ⟨p', w', mid⟩ := h
      have := h2 p' w' (hsteps.extends hs) (hsteps.sound hs) (hsteps.sound hs)
      simp only
      split
      · next he =>
        rw [he] at this
        exact hsteps.trans this
      · next he =>
        rw [he] at this
        obtain ⟨message, broken, hh, hsteps', hb⟩ := this
        exact ⟨message, broken, hh, hsteps.trans hsteps', hb⟩
    | error halt => exact h

theorem steps_skip (tasks : List (Task L)) (h : ∀ task ∈ tasks, p.tree.isLive task.slot = false) :
    Steps e ⟨p, w, tasks ++ rest⟩ ⟨p, w, rest⟩ := by
  induction tasks with
  | nil => exact .refl
  | cons task tasks ih =>
    exact .head (.skip (h task (List.mem_cons_self ..)))
      (ih fun t ht => h t (List.mem_cons_of_mem _ ht))

/-- The task has a slot right below another one. -/
def Task.Under (t : ResponseTree) (above : Nat) (task : Task L) : Prop :=
  ∃ slot, t.get? task.slot = some slot ∧ slot.parent = some above

theorem Task.Under.of_extends {t t' : ResponseTree} {above : Nat} {task : Task L}
    (h : Task.Under t above task) (he : ResponseTree.Extends t t') : Task.Under t' above task := by
  obtain ⟨slot, hs, hp⟩ := h
  obtain ⟨content, hs', -⟩ := he.kept hs
  exact ⟨_, hs', hp⟩

theorem Task.Under.dead {t : ResponseTree} {above : Nat} {task : Task L}
    (h : Task.Under t above task) (wf : t.WellFormed) (hl : t.isLive above = false) :
    t.isLive task.slot = false := by
  obtain ⟨slot, hs, hp⟩ := h
  refine Bool.eq_false_iff.2 fun hlive => ?_
  rw [((ResponseTree.isLive_eq wf hs).1 hlive).2 above hp] at hl
  cases hl

/-- Of tasks below one slot, all are dropped or none, as that slot is dead or live. -/
theorem Does.whileLive {above : Nat} {tasks : List (Task L)} {f : Unit → Running L W Unit}
    (h1 : Does e m p w todo (tasks ++ rest)) (hf : f () = do if ← isLive above then m')
    (hunder : ∀ task ∈ tasks, Task.Under p.tree above task)
    (h2 : ∀ p' w', ResponseTree.Extends p.tree p'.tree → p'.tree.isLive above = true →
      Does e m' p' w' (tasks ++ rest) rest) :
    Does e (m >>= f) p w todo rest := by
  refine h1.bind fun p' w' he hsound => ?_
  rw [hf]
  cases hl : p'.tree.isLive above with
  | true =>
    refine .steps .refl ?_ (h2 p' w' he hl)
    rw [run_bind, run_isLive, hl]
    rfl
  | false =>
    refine .steps (steps_skip tasks fun task ht => ((hunder task ht).of_extends he).dead
      hsound.tree hl) ?_ does_pure
    rw [run_bind, run_isLive, hl]
    rfl

/-! ## Completion -/

/-- Runs the fields of an object. -/
def runObject (e : Execution ρ L W) (object : Name) (nodes : List Plan.Node) (slot : SlotId)
    (path : Path) (value : Json) : Running L W Unit := do
  let slots ← grow fun t => t.setObject slot (keysOf nodes)
  e.runNodes object value slot path nodes slots

theorem selectFrom_eq (e : Execution ρ L W) (children : List (Name × List Plan.Node))
    (name : Name) :
    e.selectFrom children name = (Assoc.get? children name).map (e.runObject name) := by
  induction children with
  | nil => rfl
  | cons entry rest ih =>
    obtain ⟨object, nodes⟩ := entry
    rw [selectFrom, Assoc.get?]
    split
    · next h =>
      subst h
      rfl
    · exact ih

/-- Does what the completion of a value asks for. -/
def perform (e : Execution ρ L W) (select : Select L W) (frame : Frame) :
    Completion L → Running L W Unit
  | .aside lazy => putAside frame lazy
  | .null => setNull frame
  | .reject error => reject frame error
  | .leaf json => setLeaf frame json
  | .object object nodes json => e.runObject object nodes frame.slot frame.path json
  | .list item nullable items => do
    let slots ← grow fun t => t.setList frame.slot items.length (item.nullable || nullable)
    completeElements (completeAs e select item) frame item 0 (slots.zip items)

section

variable (e) (select : Select L W) (frame : Frame)

theorem completeScalar_eq (name : Name) (builtin : Option Scalar) (value : FieldValue L) :
    completeScalar frame name builtin value =
      perform e select frame (scalarCompletion name builtin value) := by
  unfold completeScalar scalarCompletion
  cases value.toJson? with
  | none => rfl
  | some json =>
    cases builtin with
    | none => rfl
    | some scalar =>
      simp only
      cases scalar.serialize? json <;> rfl

theorem completeEnum_eq (name : Name) (values : List Name) (value : FieldValue L) :
    completeEnum frame name values value =
      perform e select frame (enumCompletion name values value) := by
  unfold completeEnum enumCompletion
  cases value with
  | leaf json =>
    cases json with
    | string text =>
      simp only
      split <;> rfl
    | _ => rfl
  | _ => rfl

theorem completeObject_eq (name : Name) (value : FieldValue L) :
    e.completeObject (e.selectFrom frame.field.children) frame name value =
      perform e select frame (e.objectCompletion frame.field name value) := by
  unfold completeObject objectCompletion Plan.Node.childrenFor?
  cases value with
  | leaf object =>
    simp only
    cases e.registry.concreteType name object with
    | none => rfl
    | some concrete =>
      simp only [Option.bind_some, selectFrom_eq]
      cases Assoc.get? frame.field.children concrete <;> rfl
  | _ => rfl

theorem completeNamed_eq (name : Name) (value : FieldValue L) :
    e.completeNamed (e.selectFrom frame.field.children) frame name value =
      perform e select frame (e.namedCompletion frame.field name value) := by
  unfold completeNamed namedCompletion
  cases e.registry.lookup name with
  | none => rfl
  | some spec =>
    cases spec with
    | scalar builtin => exact completeScalar_eq e select frame name builtin value
    | enum values => exact completeEnum_eq e select frame name values value
    | object _ _ | interface _ _ | union _ _ => exact completeObject_eq e select frame name value
    | _ => rfl

end

theorem completeAs_eq (e : Execution ρ L W) (frame : Frame) (value : FieldValue L) :
    e.completeAs (e.selectFrom frame.field.children) frame.type frame value =
      perform e (e.selectFrom frame.field.children) frame (e.completion frame value) := by
  unfold completion
  split
  · rw [completeAs]
    rfl
  · rw [completeAs]
    split <;> rfl
  · next hlater hnull =>
    cases htype : frame.type with
    | named name nullable =>
      rw [completeAs]
      · exact completeNamed_eq e _ frame name value
      · exact hlater
      · exact hnull
    | list item nullable =>
      rw [completeAs]
      · cases elements value <;> rfl
      · exact hlater
      · exact hnull

/-! ## Doing the tasks -/

variable {select : Select L W}

/-- What grows below a slot has that slot above it. -/
theorem under_grow {t : ResponseTree} {id : Nat} {slot : ResponseTree.Slot} {flags : List Bool}
    {content : ResponseTree.Content} {tasks : List (Task L)} (h : t.get? id = some slot)
    (ht : tasks.map Task.slot = t.nextIds flags.length) :
    ∀ task ∈ tasks, Task.Under (t.grow id flags content) id task := by
  intro task hm
  have hin : task.slot ∈ tasks.map Task.slot := List.mem_map_of_mem hm
  rw [ht, ResponseTree.mem_nextIds] at hin
  obtain ⟨k, hk, he⟩ := hin
  exact ⟨_, by rw [he]; exact ResponseTree.get?_grow_new h (List.getElem?_eq_getElem hk), rfl⟩

/-- A task right below a live slot is live. -/
theorem Task.Under.isLive {above : Nat} {task : Task L} (h : Task.Under p.tree above task)
    (hs : (⟨p, w, todo⟩ : Machine L W).Sound) (hm : task ∈ todo)
    (hl : p.tree.isLive above = true) : p.tree.isLive task.slot = true := by
  obtain ⟨slot, hslot, hp⟩ := h
  obtain ⟨slot', hslot', hc⟩ := hs.pending task (List.mem_append_left _ hm)
  replace hslot' : p.tree.get? task.slot = some slot' := hslot'
  rw [hslot] at hslot'
  cases hslot'
  refine (ResponseTree.isLive_eq hs.tree hslot).2 ⟨by rw [hc]; exact nofun, fun parent hp' => ?_⟩
  rw [hp] at hp'
  cases hp'
  exact hl

theorem isLive_grow_self {work : Work L} {flags : List Bool} {content : ResponseTree.Content}
    (hs : (⟨p, w, ⟨frame, work⟩ :: rest⟩ : Machine L W).Sound)
    (hc : content.children = p.tree.nextIds flags.length) (hn : content ≠ .null)
    (hl : p.tree.isLive frame.slot = true) :
    (p.tree.grow frame.slot flags content).isLive frame.slot = true := by
  obtain ⟨slot, hslot, hp⟩ := hs.pending ⟨frame, work⟩ (List.mem_cons_self ..)
  replace hslot : p.tree.get? frame.slot = some slot := hslot
  rw [ResponseTree.isLive_grow hs.tree hslot hp hc hn (ResponseTree.lt_size hslot)]
  exact hl

theorem completeElements_does {complete : Frame → FieldValue L → Running L W Unit} {list : Frame}
    {item : TypeRef}
    (hitem : ∀ (frame : Frame) value p w rest, frame.field = list.field → frame.type = item →
      p.tree.isLive frame.slot = true →
      Does e (complete frame value) p w (⟨frame, .complete value⟩ :: rest) rest)
    (items : List (SlotId × FieldValue L)) (i : Nat) (p : Progress L) (w : W)
    (hunder : ∀ task ∈ Task.ofItems list item i items, Task.Under p.tree list.slot task)
    (hl : p.tree.isLive list.slot = true) :
    Does e (completeElements complete list item i items) p w
      (Task.ofItems list item i items ++ rest) rest := by
  induction items generalizing i p w with
  | nil => exact does_pure
  | cons entry items ih =>
    obtain ⟨slot, value⟩ := entry
    refine .of_sound fun hs => ?_
    have hlive := (hunder _ (List.mem_cons_self ..)).isLive hs (List.mem_cons_self ..) hl
    refine Does.whileLive (hitem _ value p w _ rfl rfl hlive) rfl
      (fun task hm => hunder task (List.mem_cons_of_mem _ hm)) fun p' w' he hl' => ?_
    exact ih (i + 1) p' w'
      (fun task hm => (hunder task (List.mem_cons_of_mem _ hm)).of_extends he) hl'

/-- Running fields takes the steps for them. -/
def NodesDo (e : Execution ρ L W) (nodes : List Plan.Node) : Prop :=
  ∀ (object : Name) (value : Json) (above : SlotId) (path : Path) (slots : List SlotId)
    (p : Progress L) (w : W) (rest : List (Task L)),
    (∀ task ∈ Task.ofNodes object value path nodes slots, Task.Under (L := L) p.tree above task) →
    p.tree.isLive above = true →
    Does e (e.runNodes object value above path nodes slots) p w
      (Task.ofNodes object value path nodes slots ++ rest) rest

theorem perform_does (hnodes : ∀ object nodes,
      frame.field.childrenFor? object = some nodes → NodesDo e nodes)
    (hitem : ∀ item nullable, frame.type = .list item nullable →
      ∀ (inner : Frame) value p w rest, inner.field = frame.field → inner.type = item →
        p.tree.isLive inner.slot = true →
        Does e (e.completeAs select item inner value) p w (⟨inner, .complete value⟩ :: rest) rest)
    {value : FieldValue L} (hl : p.tree.isLive frame.slot = true) :
    Does e (perform e select frame (e.completion frame value)) p w
      (⟨frame, .complete value⟩ :: rest) rest := by
  refine .of_sound fun hs => ?_
  obtain ⟨slot, hslot, hpend⟩ := hs.pending ⟨frame, .complete value⟩ (List.mem_cons_self ..)
  replace hslot : p.tree.get? frame.slot = some slot := hslot
  have hfit := e.fits_completion frame value
  cases hc : e.completion frame value with
  | aside lazy => exact Does.last (.aside hl hc) rfl
  | null => exact Does.last (.null hl hc) rfl
  | reject error => exact Does.last (.rejected hl hc) rfl
  | leaf json => exact Does.last (.leaf hl hc) rfl
  | object object nodes json =>
    refine Does.step (.object hl hc) rfl (hnodes object nodes (hc ▸ hfit).1 object json
      frame.slot frame.path _ _ w rest ?_ ?_)
    · refine under_grow hslot ?_
      rw [Task.map_slot_ofNodes _ _ _ _ _ (by simp)]
      simp
    · refine isLive_grow_self hs ?_ (by simp) hl
      simp [ResponseTree.Content.children, List.map_snd_zip]
  | list item nullable items =>
    refine Does.step (.list hl hc) rfl (completeElements_does
      (hitem item nullable (hc ▸ hfit).1) _ 0 _ w ?_ ?_)
    · refine under_grow hslot ?_
      rw [Task.map_slot_ofItems, List.map_fst_zip (by simp)]
      simp
    · refine isLive_grow_self hs ?_ (by simp) hl
      simp [ResponseTree.Content.children]

theorem completeAs_does (field : Plan.Node) (hnodes : ∀ object nodes,
      field.childrenFor? object = some nodes → NodesDo e nodes)
    (type : TypeRef) : ∀ (frame : Frame) (value : FieldValue L) (p : Progress L) (w : W)
      (rest : List (Task L)), frame.field = field → frame.type = type →
      p.tree.isLive frame.slot = true →
      Does e (e.completeAs (e.selectFrom field.children) type frame value) p w
        (⟨frame, .complete value⟩ :: rest) rest := by
  induction type with
  | named name nullable =>
    intro frame value p w rest hf ht hl
    subst hf
    rw [← ht, completeAs_eq]
    refine perform_does hnodes (fun item nullable ht' => ?_) hl
    rw [ht] at ht'
    cases ht'
  | list item nullable ih =>
    intro frame value p w rest hf ht hl
    subst hf
    rw [← ht, completeAs_eq]
    refine perform_does hnodes (fun item nullable ht' => ?_) hl
    rw [ht] at ht'
    cases ht'
    exact ih

/-- Running a field takes the steps for it. -/
def NodeDoes (e : Execution ρ L W) (node : Plan.Node) : Prop :=
  ∀ (object : Name) (parent : Json) (slot : SlotId) (path : Path) (p : Progress L) (w : W)
    (rest : List (Task L)), p.tree.isLive slot = true →
    Does e (e.runNode object parent node slot path) p w
      (⟨⟨node, node.type, path, slot⟩, .resolve object parent⟩ :: rest) rest

theorem nodeDoes_of_children {node : Plan.Node} (hnodes : ∀ object nodes,
    node.childrenFor? object = some nodes → NodesDo e nodes) : NodeDoes e node := by
  intro object parent slot path p w rest hl
  refine .of_sound fun hs => ?_
  obtain ⟨outcome, entries, w', hr⟩ :=
    fieldOutcome_run e ⟨node, node.type, path, slot⟩ object parent p w
  have hrun : (e.runNode object parent node slot path).run (p, w) =
      (finish (e.completeAs (e.selectFrom node.children) node.type)
        ⟨node, node.type, path, slot⟩ outcome).run ({ p with extensions := entries }, w') := by
    cases node
    rw [runNode, run_bind, hr]
  cases outcome with
  | ok value =>
    exact Does.step (.resolved hl hr) hrun
      (completeAs_does node hnodes node.type _ value _ w' rest rfl rfl hl)
  | error error =>
    cases error with
    | field error => exact Does.last (.unresolved hl hr) hrun
    | internal message =>
      intro _
      rw [hrun]
      exact ⟨message, _, rfl, .refl, .resolve hl hr⟩

mutual

theorem runNode_does : (node : Plan.Node) → NodeDoes e node
  | ⟨_, _, _, _, _, children⟩ => nodeDoes_of_children (children_do children)

theorem runNodes_do : (nodes : List Plan.Node) → NodesDo e nodes
  | [] => fun _ _ _ _ _ _ _ _ _ _ => does_pure
  | node :: nodes => fun object value above path slots p w rest hunder hl => by
    cases slots with
    | nil => exact does_pure
    | cons slot slots =>
      refine .of_sound fun hs => ?_
      have hlive := (hunder _ (List.mem_cons_self ..)).isLive hs (List.mem_cons_self ..) hl
      refine Does.whileLive (runNode_does node object value slot _ p w _ hlive) rfl
        (fun task hm => hunder task (List.mem_cons_of_mem _ hm)) fun p' w' he hl' => ?_
      exact runNodes_do nodes object value above path slots p' w' rest
        (fun task hm => (hunder task (List.mem_cons_of_mem _ hm)).of_extends he) hl'

theorem children_do : (children : List (Name × List Plan.Node)) → ∀ object nodes,
    Assoc.get? children object = some nodes → NodesDo e nodes
  | [] => fun _ _ h => nomatch h
  | (name, nodes) :: rest => fun object found h => by
    rw [Assoc.get?] at h
    split at h
    · cases h
      exact runNodes_do nodes
    · exact children_do rest object found h

end

/-! ## Waves -/

theorem complete_does (frame : Frame) (value : FieldValue L) (p : Progress L) (w : W)
    (rest : List (Task L)) (hl : p.tree.isLive frame.slot = true) :
    Does e (e.complete frame value) p w (⟨frame, .complete value⟩ :: rest) rest :=
  completeAs_does frame.field (children_do _) frame.type frame value p w rest rfl rfl hl

theorem completePending_does (pending : List (Pending L)) (p : Progress L) (w : W) :
    Does e (e.completePending pending) p w (pending.map Task.ofPending ++ rest) rest := by
  induction pending generalizing p w with
  | nil => exact does_pure
  | cons d pending ih =>
    cases hl : p.tree.isLive d.frame.slot with
    | false =>
      refine Does.step (.skip hl) ?_ (ih p w)
      rw [completePending, run_bind, run_isLive, hl]
      rfl
    | true =>
      have hrun : (e.completePending (d :: pending)).run (p, w) =
          (do finish e.complete d.frame (e.host.force d.lazy w).1
              e.completePending pending).run (p, (e.host.force d.lazy w).2) := by
        rw [completePending, run_bind, run_isLive, hl]
        simp only [if_true, run_bind, run_force]
      have hafter : ∀ p' w', ResponseTree.Extends p.tree p'.tree →
          (⟨p', w', pending.map Task.ofPending ++ rest⟩ : Machine L W).Sound →
          Does e (e.completePending pending) p' w' (pending.map Task.ofPending ++ rest) rest :=
        fun p' w' _ _ => ih p' w'
      cases hf : e.host.force d.lazy w with
      | mk outcome w' =>
      rw [hf] at hrun
      cases outcome with
      | ok value =>
        exact .step (.forced hl hf) hrun (.bind (complete_does d.frame value p w' _ hl) hafter)
      | error error =>
        cases error with
        | field error => exact .step (.unforced hl hf) hrun (ih _ w')
        | internal message =>
          intro _
          rw [hrun]
          exact ⟨message, _, rfl, .refl, .force hl hf⟩

theorem wave_does : Does e e.wave p w rest rest :=
  .step .wave rfl (completePending_does p.pending _ w)

end Execution

end GraphQL
