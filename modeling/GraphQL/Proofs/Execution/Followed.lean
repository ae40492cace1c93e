import GraphQL.Proofs.Execution.Reached
import GraphQL.Proofs.Execution.Ready
import GraphQL.Proofs.Plan.Built
import GraphQL.Proofs.Registry.Checked

/-!
# Plans can be followed

Execution looks up again what was looked up when the plan was built: fields of object types, the
selections for the object type of a value, the type of a field. On a registry that was checked it
finds them. What is needed of a task is that its field belongs to nodes that are prescribed
(`Task.Prescribed`); every step keeps that.
-/

namespace GraphQL

variable {ρ L W : Type}

/-! ## Prescribed nodes -/

namespace Scope.Prescribes

variable {s : Scope ρ} {object concrete : Name} {selections : List Selection}
  {nodes below : List Plan.Node} {n : Plan.Node}

theorem merges (h : s.Prescribes object selections nodes) (hn : n ∈ nodes) :
    ∃ fields, s.Merges object fields n := by
  obtain ⟨-, -, hmerges, -⟩ := h
  exact ⟨_, hmerges n hn⟩

/-- The object type has the field of a node, with the type of the node. -/
theorem field? (h : s.Prescribes object selections nodes) (hn : n ∈ nodes)
    (ht : n.isTypename = false) :
    ∃ f, s.registry.field? object n.name = some f ∧ f.type = n.type := by
  obtain ⟨fields, hm⟩ := h.merges hn
  have htype := hm.type
  unfold typeOf? at htype
  have hname : n.first.name.node ≠ Plan.Node.typename := of_decide_eq_false ht
  rw [if_neg (by simp [hname])] at htype
  exact Option.map_eq_some_iff.1 htype

/-- There are nodes for every object type that values can be of. -/
theorem childrenFor? (h : s.Prescribes object selections nodes) (hn : n ∈ nodes)
    (hc : concrete ∈ s.registry.possibleTypes n.type.innermost) :
    (n.childrenFor? concrete).isSome = true := by
  obtain ⟨fields, hm⟩ := h.merges hn
  rw [← hm.objects] at hc
  obtain ⟨entry, hentry, rfl⟩ := List.mem_map.1 hc
  obtain ⟨found, hfound⟩ := Assoc.exists_get? hentry
  exact Option.isSome_iff_exists.2 ⟨found, hfound⟩

/-- The nodes below a node are prescribed in their turn. -/
theorem nodes_below (h : s.Prescribes object selections nodes) (hn : n ∈ nodes)
    (hc : n.childrenFor? concrete = some below) :
    ∃ selections, s.Prescribes concrete selections below := by
  obtain ⟨-, -, -, hbelow⟩ := h
  exact ⟨_, hbelow n hn _ (Assoc.mem_of_get? hc)⟩

end Scope.Prescribes

/-- The nodes of a plan are prescribed on its root type. -/
theorem Plan.prescribes_fields {s : Scope ρ} {o : Operation} {plan : Plan}
    (h : Plan.build s o = .ok plan) : ∃ selections, s.Prescribes plan.root selections plan.fields := by
  unfold Plan.build at h
  split at h
  · cases h
  · next root _ =>
    split at h
    · next fields hfields =>
      cases h
      have hnodes : s.Prescribes root o.selections.items
          (s.nodes o.selections.pos (s.levels o) root o.selections.items).value :=
        Scope.prescribes_nodes (by rw [hfields])
      rw [hfields] at hnodes
      exact ⟨_, hnodes⟩
    · cases h

/-! ## What is looked up -/

/-- The field of the task is one of several that are prescribed on an object type, and the frame is
for a value of its type or an element of one. -/
structure Task.Prescribed (s : Scope ρ) (t : Task L) : Prop where
  node : ∃ object selections nodes, s.Prescribes object selections nodes ∧ t.frame.field ∈ nodes ∧
    ∀ object' parent, t.work = .resolve object' parent → object' = object
  type : t.frame.type.innermost = t.frame.field.type.innermost

/-- An error that values may be rejected with: neither is there a field that does not exist, nor a
type that is no output type, and where no object type was found the rule gave no possible type. -/
def CompletionError.Due (r : Registry ρ) (value : FieldValue L) : CompletionError → Prop
  | .undefinedField _ _ | .notOutput _ => False
  | .noObjectType type _ _ => ∃ json rule, value = .leaf json ∧ r.rule? type = some rule ∧
      ∀ object, Registry.applyRule rule json = some object → r.isPossible type object = false
  | _ => True

/-- Whatever execution looks up for a task is there. -/
structure Execution.Follows (e : Execution ρ L W) (t : Task L) : Prop where
  field : ∀ object parent, t.work = .resolve object parent →
    (e.registry.field? object t.frame.field.name).isSome = true
  children : ∀ value concrete,
    e.registry.concreteType t.frame.type.innermost value = some concrete →
    (t.frame.field.childrenFor? concrete).isSome = true
  rejects : ∀ value cause, e.completion t.frame value = .reject cause → cause.Due e.registry value

namespace Execution

variable {e : Execution ρ L W} {s : Scope ρ} {t : Task L}

theorem due_scalar {name : Name} {builtin : Option Scalar} {value : FieldValue L}
    {cause : CompletionError} (h : scalarCompletion name builtin value = .reject cause) :
    cause.Due e.registry value := by
  unfold scalarCompletion at h
  split at h
  · cases h
    trivial
  · split at h
    · cases h
    · split at h
      · cases h
      · cases h
        trivial

theorem due_enum {name : Name} {values : List Name} {value : FieldValue L} {cause : CompletionError}
    (h : enumCompletion name values value = .reject cause) : cause.Due e.registry value := by
  unfold enumCompletion at h
  split at h
  · split at h
    · cases h
    · cases h
      trivial
  · cases h
    trivial

theorem due_object {field : Plan.Node} {name : Name} {spec : TypeSpec ρ} {value : FieldValue L}
    {cause : CompletionError} (hs : e.registry.lookup name = some spec)
    (hcomposite : spec.isComposite = true)
    (hchildren : ∀ value concrete, e.registry.concreteType name value = some concrete →
      (field.childrenFor? concrete).isSome = true)
    (h : e.objectCompletion field name value = .reject cause) : cause.Due e.registry value := by
  unfold objectCompletion at h
  cases value with
  | leaf json =>
    simp only at h
    cases hc : e.registry.concreteType name json with
    | none =>
      rw [hc] at h
      cases h
      obtain ⟨rule, hrule, hnone⟩ := Registry.rule_of_concreteType_eq_none hs hcomposite hc
      exact ⟨json, rule, rfl, hrule, hnone⟩
    | some concrete =>
      obtain ⟨nodes, hnodes⟩ := Option.isSome_iff_exists.1 (hchildren json concrete hc)
      rw [hc, Option.bind_some, hnodes] at h
      cases h
  | list items =>
    cases h
    trivial
  | later lazy =>
    cases h
    trivial

theorem due_completion {frame : Frame} {spec : TypeSpec ρ} {value : FieldValue L}
    {cause : CompletionError} (hs : e.registry.lookup frame.type.innermost = some spec)
    (houtput : spec.isOutput = true)
    (hchildren : ∀ value concrete,
      e.registry.concreteType frame.type.innermost value = some concrete →
      (frame.field.childrenFor? concrete).isSome = true)
    (h : e.completion frame value = .reject cause) : cause.Due e.registry value := by
  unfold completion at h
  split at h
  · cases h
  · split at h
    · cases h
    · cases h
      trivial
  · split at h
    · next name nullable htype =>
      rw [htype] at hs hchildren
      simp only [TypeRef.innermost] at hs hchildren
      unfold namedCompletion at h
      rw [hs] at h
      cases spec with
      | scalar builtin => exact due_scalar h
      | enum values => exact due_enum h
      | object _ _ | interface _ _ | union _ _ => exact due_object hs rfl hchildren h
      | input fields => cases houtput
    · split at h
      · cases h
        trivial
      · cases h

/-- A prescribed task on a checked registry finds all it looks up. -/
theorem follows_of_prescribed (hcheck : s.registry.check = none) (he : e.registry = s.registry)
    (h : t.Prescribed s) (ht : t.frame.field.isTypename = false) : e.Follows t := by
  obtain ⟨object, selections, nodes, hnodes, hmem, hobject⟩ := h.node
  obtain ⟨f, hfield, htype⟩ := hnodes.field? hmem ht
  have hinnermost : t.frame.type.innermost = f.type.innermost := by rw [h.type, htype]
  obtain ⟨spec, hspec, houtput⟩ := Registry.output_of_check hcheck hfield
  rw [← hinnermost] at hspec
  have hchildren : ∀ value concrete,
      e.registry.concreteType t.frame.type.innermost value = some concrete →
      (t.frame.field.childrenFor? concrete).isSome = true := by
    intro value concrete hc
    rw [he, h.type] at hc
    exact hnodes.childrenFor? hmem (Registry.possible_of_concreteType hc)
  refine ⟨fun object' parent hw => ?_, hchildren, fun value cause hc => ?_⟩
  · rw [hobject object' parent hw, he, hfield]
    rfl
  · rw [← he] at hspec
    exact due_completion hspec houtput hchildren hc

end Execution

/-! ## What every step keeps -/

/-- An error that a field came to, with the reason for it: its arguments were wrong, its resolver or
a lazy failed, or its value was rejected as it had to be. -/
inductive Execution.Explains (e : Execution ρ L W) (frame : Frame) : Error → Prop where
  | arguments {object : Name} {f : FieldSpec ρ} {cause : ArgumentError} :
      e.registry.field? object frame.field.name = some f →
      e.registry.coerceArguments e.variableValues frame.field.name f.arguments frame.field.first =
        .error cause → Explains e frame cause.toError
  | resolver {object : Name} {f : FieldSpec ρ} {ctx : FieldContext} {entries entries' : Assoc Json}
      {w w' : W} {error : Error} :
      e.registry.field? object frame.field.name = some f →
      e.host.resolve f.resolver ctx entries w = (.error (.field error), entries', w') →
      Explains e frame error
  | lazy {lazy : L} {w w' : W} {error : Error} :
      e.host.force lazy w = (.error (.field error), w') → Explains e frame error
  | rejected {value : FieldValue L} {cause : CompletionError} :
      e.completion frame value = .reject cause → cause.Due e.registry value →
      Explains e frame (.ofMessage cause.message)

/-- If it is an error of a field other than the type name, it has its reason. -/
def Note.Explained (e : Execution ρ L W) : Note → Prop
  | .null _ => True
  | .failure frame error => frame.field.isTypename = false → e.Explains frame error

/-- Each task is prescribed, those put aside included, and each error has its reason. -/
structure Machine.Follows (e : Execution ρ L W) (s : Scope ρ) (m : Machine L W) : Prop where
  todo : ∀ t ∈ m.todo, t.Prescribed s
  pending : ∀ p ∈ m.progress.pending, (Task.ofPending p).Prescribed s
  notes : ∀ note ∈ m.progress.notes, note.Explained e

variable {e : Execution ρ L W} {s : Scope ρ} {m m' : Machine L W} {frame : Frame}

/-- The same field may be gone on with, unless it is to be resolved. -/
theorem Task.Prescribed.complete {work : Work L} (h : (⟨frame, work⟩ : Task L).Prescribed s)
    (value : FieldValue L) : (⟨frame, .complete value⟩ : Task L).Prescribed s := by
  obtain ⟨⟨object, selections, nodes, hnodes, hmem, -⟩, htype⟩ := h
  exact ⟨⟨object, selections, nodes, hnodes, hmem, nofun⟩, htype⟩

theorem Task.Prescribed.force {work : Work L} (h : (⟨frame, work⟩ : Task L).Prescribed s)
    (lazy : L) : (⟨frame, .force lazy⟩ : Task L).Prescribed s := by
  obtain ⟨⟨object, selections, nodes, hnodes, hmem, -⟩, htype⟩ := h
  exact ⟨⟨object, selections, nodes, hnodes, hmem, nofun⟩, htype⟩

theorem Task.prescribed_ofNodes {object : Name} {selections : List Selection}
    {nodes : List Plan.Node} (h : s.Prescribes object selections nodes) (value : Json) (path : Path)
    (slots : List SlotId) : ∀ t ∈ Task.ofNodes (L := L) object value path nodes slots, t.Prescribed s := by
  intro t ht
  obtain ⟨k, hk⟩ := List.mem_iff_getElem?.1 ht
  obtain ⟨node, slot, hnode, -, rfl⟩ := getElem?_ofNodes hk
  refine ⟨⟨object, selections, nodes, h, List.mem_of_getElem? hnode, ?_⟩, rfl⟩
  rintro _ _ ⟨⟩
  rfl

theorem Task.prescribed_ofItems {work : Work L} {item : TypeRef} {nullable : Bool}
    (h : (⟨frame, work⟩ : Task L).Prescribed s) (htype : frame.type = .list item nullable)
    (items : List (SlotId × FieldValue L)) :
    ∀ t ∈ Task.ofItems frame item 0 items, t.Prescribed s := by
  intro t ht
  obtain ⟨k, hk⟩ := List.mem_iff_getElem?.1 ht
  obtain ⟨slot, value, -, rfl⟩ := getElem?_ofItems hk
  obtain ⟨⟨object, selections, nodes, hnodes, hmem, -⟩, hinnermost⟩ := h
  rw [htype] at hinnermost
  exact ⟨⟨object, selections, nodes, hnodes, hmem, nofun⟩, hinnermost⟩

/-- A failure of a field to resolve has its reason. -/
theorem Execution.explains_fieldOutcome (hcheck : s.registry.check = none)
    (he : e.registry = s.registry) {object : Name} {parent : Json} {error : Error}
    {p p' : Progress L} {w w' : W} (h : (⟨frame, .resolve object parent⟩ : Task L).Prescribed s)
    (hr : (e.fieldOutcome frame object parent).run (p, w) = (.ok (.error (.field error)), p', w'))
    (ht : frame.field.isTypename = false) : e.Explains frame error := by
  obtain ⟨f, hf⟩ := Option.isSome_iff_exists.1
    ((follows_of_prescribed hcheck he h ht).field object parent rfl)
  unfold fieldOutcome at hr
  simp only [ht, hf] at hr
  cases hc : e.registry.coerceArguments e.variableValues frame.field.name f.arguments
      frame.field.first with
  | error cause =>
    simp only [hc] at hr
    cases hr
    exact .arguments hf hc
  | ok arguments =>
    simp only [hc] at hr
    cases hh : e.host.resolve f.resolver ⟨object, frame.field.name, parent, arguments, frame.path,
        frame.field.first, e.variableValues, e.data⟩ p.extensions w with
    | mk outcome after =>
      have hrun := (run_resolve e f _ p w).symm.trans hr
      rw [hh] at hrun
      cases hrun
      exact .resolver hf hh

theorem Note.explained_record {p : Progress L} (note : Note)
    (h : ∀ n ∈ p.notes, n.Explained e) (hn : note.Explained e) :
    ∀ n ∈ (p.record note).notes, n.Explained e :=
  List.forall_mem_append.2 ⟨h, List.forall_mem_singleton.2 hn⟩

theorem Machine.Follows.step (hcheck : s.registry.check = none) (he : e.registry = s.registry)
    (h : m.Follows e s) (hs : Step e m m') : m'.Follows e s := by
  obtain ⟨htodo, hpending, hnotes⟩ := h
  cases hs with
  | skip _ => exact ⟨(List.forall_mem_cons.1 htodo).2, hpending, hnotes⟩
  | @resolved frame object parent value p p' w w' rest _ hr =>
    obtain ⟨htop, hrest⟩ := List.forall_mem_cons.1 htodo
    obtain ⟨outcome, entries, w1, hrun⟩ := fieldOutcome_run e frame object parent p w
    cases hr.symm.trans hrun
    exact ⟨List.forall_mem_cons.2 ⟨htop.complete value, hrest⟩, hpending, hnotes⟩
  | @unresolved frame object parent error p p' w w' rest _ hr =>
    obtain ⟨htop, hrest⟩ := List.forall_mem_cons.1 htodo
    obtain ⟨outcome, entries, w1, hrun⟩ := fieldOutcome_run e frame object parent p w
    have hreason := Execution.explains_fieldOutcome hcheck he htop hr
    cases hr.symm.trans hrun
    exact ⟨hrest, hpending, Note.explained_record (.failure _ _) hnotes hreason⟩
  | @forced frame lazy value p w w' rest _ _ =>
    obtain ⟨htop, hrest⟩ := List.forall_mem_cons.1 htodo
    exact ⟨List.forall_mem_cons.2 ⟨htop.complete value, hrest⟩, hpending, hnotes⟩
  | unforced _ hf =>
    exact ⟨(List.forall_mem_cons.1 htodo).2, hpending,
      Note.explained_record (.failure _ _) hnotes fun _ => .lazy hf⟩
  | @aside frame value lazy p w rest _ _ =>
    obtain ⟨htop, hrest⟩ := List.forall_mem_cons.1 htodo
    exact ⟨hrest, List.forall_mem_append.2 ⟨hpending, List.forall_mem_singleton.2 (htop.force lazy)⟩,
      hnotes⟩
  | null _ _ =>
    exact ⟨(List.forall_mem_cons.1 htodo).2, hpending, Note.explained_record (.null _) hnotes trivial⟩
  | rejected _ hc =>
    obtain ⟨htop, hrest⟩ := List.forall_mem_cons.1 htodo
    exact ⟨hrest, hpending, Note.explained_record (.failure _ _) hnotes fun ht =>
      .rejected hc ((Execution.follows_of_prescribed hcheck he htop ht).rejects _ _ hc)⟩
  | leaf _ _ => exact ⟨(List.forall_mem_cons.1 htodo).2, hpending, hnotes⟩
  | @object frame value object nodes json p w rest _ hc =>
    obtain ⟨htop, hrest⟩ := List.forall_mem_cons.1 htodo
    have hfits := e.fits_completion frame value
    rw [hc] at hfits
    obtain ⟨_, _, _, hnodes, hmem, -⟩ := htop.node
    obtain ⟨_, hbelow⟩ := hnodes.nodes_below hmem hfits.1
    exact ⟨List.forall_mem_append.2 ⟨Task.prescribed_ofNodes hbelow _ _ _, hrest⟩, hpending, hnotes⟩
  | @list frame value item nullable items p w rest _ hc =>
    obtain ⟨htop, hrest⟩ := List.forall_mem_cons.1 htodo
    have hfits := e.fits_completion frame value
    rw [hc] at hfits
    exact ⟨List.forall_mem_append.2 ⟨Task.prescribed_ofItems htop hfits.1 _, hrest⟩, hpending, hnotes⟩
  | wave =>
    exact ⟨List.forall_mem_append.2 ⟨List.forall_mem_map.2 hpending, htodo⟩, nofun, hnotes⟩

theorem Reached.follows {o : Operation} {plan : Plan} (hcheck : s.registry.check = none)
    (he : e.registry = s.registry) (hplan : Plan.build s o = .ok plan) (h : Reached e plan m) :
    m.Follows e s := by
  induction h with
  | start w =>
    obtain ⟨selections, hfields⟩ := Plan.prescribes_fields hplan
    exact ⟨Task.prescribed_ofNodes hfields _ _ _, nofun, nofun⟩
  | step _ hs ih => exact ih.step hcheck he hs
  | turn w' _ ih => exact ⟨ih.todo, ih.pending, ih.notes⟩

/-! ## Several queries -/

namespace Multiplex

variable {schema : Schema ρ L W} {multiplex : Multiplex} {query : Prepared} {data : Data}

theorem prepare_of_receiveAll {p : Progress L} (h : .running query data p ∈ multiplex.receiveAll schema) :
    ∃ r ∈ multiplex.requests, r.prepare schema.registry schema.config = .ok (some query) := by
  unfold receiveAll at h
  simp only at h
  split at h
  · obtain ⟨run, -, he⟩ := List.mem_map.1 h
    cases run <;> cases he
  · obtain ⟨r, hr, he⟩ := List.mem_map.1 h
    unfold receive at he
    split at he
    · cases he
    · cases he
    · next hprepare =>
      cases he
      exact ⟨r, hr, hprepare⟩

theorem follows_of_reached (hcheck : schema.registry.check = none) {r : Request}
    (hquery : r.prepare schema.registry schema.config = .ok (some query)) {m : Machine L W}
    (h : Reached (execution schema multiplex query data) query.plan m) :
    ∃ s : Scope ρ, s.registry = schema.registry ∧ m.Follows (execution schema multiplex query data) s := by
  obtain ⟨s, o, hs, hplan⟩ := Request.build_of_prepare hquery
  exact ⟨s, hs, h.follows (hs ▸ hcheck) hs.symm hplan⟩

/-- On a schema that was checked, whatever execution looks up for a field is there, at every moment of
every run, and once all has run to its end every error of a field has its reason; the type name apart,
which is not looked up. Types are told apart by the names that they stand under in the registry. Each
type is taken to stand under its own name, which the types that are inserted do (`Keyed.Own`). -/
theorem settle_follows (hcheck : schema.registry.check = none) (multiplex : Multiplex) :
    (∀ (r : Request) (query : Prepared) (data : Data) (m : Machine L W),
      r.prepare schema.registry schema.config = .ok (some query) →
      Reached (execution schema multiplex query data) query.plan m →
      ∀ t ∈ m.tasks, t.frame.field.isTypename = false →
        (execution schema multiplex query data).Follows t) ∧
    ∀ (fuel : Nat) (w w' : W) (runs : List (QueryRun L)),
      multiplex.settle schema fuel w = (none, runs, w') →
      ∀ query data p, .running query data p ∈ runs →
        ∀ note ∈ p.notes, note.Explained (execution schema multiplex query data) := by
  constructor
  · intro r query data m hquery hreached t ht htypename
    obtain ⟨s, hs, hfollows⟩ := follows_of_reached hcheck hquery hreached
    refine Execution.follows_of_prescribed (hs ▸ hcheck) hs.symm ?_ htypename
    rcases List.mem_append.1 ht with ht | ht
    · exact hfollows.todo t ht
    · obtain ⟨p, hp, rfl⟩ := List.mem_map.1 ht
      exact hfollows.pending p hp
  · intro fuel w w' runs hsettle query data p hrun
    obtain ⟨received, hreceived, hcame⟩ := exists_of_forall₂ (settle_came hsettle).1 hrun
    cases hcame with
    | running w hreached =>
      obtain ⟨r, -, hquery⟩ := prepare_of_receiveAll hreceived
      obtain ⟨s, -, hfollows⟩ := follows_of_reached hcheck hquery hreached
      exact hfollows.notes

end Multiplex

/-! An interface with one object type, and a value that is of none. -/

namespace Strays

def host : Host Unit Unit Unit where
  resolve _ ctx entries w := (match ctx.name with
    | "pets" => .ok (.list [.leaf (.object [("__typename", .string "Dog")]), .leaf (.object [])])
    | _ => .ok (.leaf (.string "Rex")), entries, w)
  force _ w := (.ok (.leaf .null), w)
  turn := id
  drain := id

def schema : Schema Unit Unit Unit where
  registry :=
    let fields : Assoc (FieldSpec Unit) := [("name", ⟨none, [], .named "String" true, none⟩)]
    ((Registry.initial.insert "Pet" (.interface fields none)).insert "Dog"
      (.object ["Pet"] fields)).insert "Query" (.object []
        [("pets", ⟨none, [], .list (.named "Pet" true) false, none⟩)])
  host := host
  config := .default
  data := []

def multiplex : Multiplex :=
  .ofRequests [.ofQuery "\x7b pets \x7b name \x7d \x7d"]

/-- Whether it is an error of a field other than the type name. -/
def isError : Note → Bool
  | .failure frame _ => !frame.field.isTypename
  | .null _ => false

def hasError {L : Type} : QueryRun L → Bool
  | .running _ _ p => p.notes.any isError
  | _ => false

end Strays

theorem Multiplex.settle_follows_strays : Strays.schema.registry.check = none ∧
    ∃ query data p frame error,
      .running query data p ∈ (Strays.multiplex.settle Strays.schema 1 ()).2.1 ∧
      .failure frame error ∈ p.notes ∧
      (execution Strays.schema Strays.multiplex query data).Explains frame error := by
  have hcheck : Strays.schema.registry.check = none :=
    Option.isNone_iff_eq_none.1 (by decide +kernel)
  have hnone : (Strays.multiplex.settle Strays.schema 1 ()).1 = none :=
    Option.isNone_iff_eq_none.1 (by decide +kernel)
  have hany : (Strays.multiplex.settle Strays.schema 1 ()).2.1.any Strays.hasError = true := by
    decide +kernel
  refine ⟨hcheck, ?_⟩
  have hfollows := (settle_follows hcheck Strays.multiplex).2 1 ()
  generalize hs : Strays.multiplex.settle Strays.schema 1 () = ended at hnone hany ⊢
  obtain ⟨halt, runs, w⟩ := ended
  cases hnone
  obtain ⟨run, hrun, hnotes⟩ := List.any_eq_true.1 hany
  cases run with
  | running query data p =>
    obtain ⟨note, hnote, herror⟩ := List.any_eq_true.1 hnotes
    have hexplained := hfollows w runs hs query data p hrun note hnote
    cases note with
    | null frame => cases herror
    | failure frame error =>
      exact ⟨query, data, p, frame, error, hrun, hnote, hexplained (by simpa [Strays.isError] using herror)⟩
  | _ => cases hnotes

end GraphQL
