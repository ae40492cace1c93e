import GraphQL.Proofs.Execution.Reached

/-!
# Hosts over hosts

A host may do what another one does and know more: there is something in its lazies and in its world
that the other does not have. What it knows makes no difference to the requests that it runs, nor to
what is left of its world when that is forgotten (`Multiplex.run_mirrored`).
-/

namespace GraphQL

variable {ρ L M W V α β γ δ : Type}

/-! ## Forgetting -/

theorem Tree.mapLaterItems_eq (f : M → L) (items : List (Tree α M)) :
    mapLaterItems f items = items.map (mapLater f) := by
  induction items with
  | nil => rfl
  | cons item rest ih => rw [mapLaterItems, List.map_cons, ih]

mutual

theorem FieldValue.toJson?_mapLater (f : M → L) : (value : FieldValue M) →
    toJson? (value.mapLater f) = value.toJson?
  | .leaf _ => rfl
  | .list items => by rw [Tree.mapLater, toJson?, toJson?, itemsJson?_mapLater f items]
  | .later _ => rfl

theorem FieldValue.itemsJson?_mapLater (f : M → L) : (items : List (FieldValue M)) →
    itemsJson? (Tree.mapLaterItems f items) = itemsJson? items
  | [] => rfl
  | item :: rest => by
    rw [Tree.mapLaterItems, itemsJson?, itemsJson?, toJson?_mapLater f item, itemsJson?_mapLater f rest]

end

/-- The outcome with what is done to the lazies of its value. -/
def Outcome.mapLater (f : M → L) (outcome : Outcome M) : Outcome L :=
  Except.map (Tree.mapLater f) outcome

def Pending.mapLater (f : M → L) (d : Pending M) : Pending L :=
  ⟨d.frame, f d.lazy⟩

def Progress.mapLater (f : M → L) (p : Progress M) : Progress L :=
  ⟨p.tree, p.notes, p.pending.map (Pending.mapLater f), p.extensions⟩

def QueryRun.mapLater (f : M → L) : QueryRun M → QueryRun L
  | refused errors => refused errors
  | idle => idle
  | running query data p => running query data (p.mapLater f)

def Completion.mapLater (f : M → L) : Completion M → Completion L
  | aside lazy => aside (f lazy)
  | null => null
  | reject error => reject error
  | leaf json => leaf json
  | object name nodes json => object name nodes json
  | list item nullable items => list item nullable (items.map (Tree.mapLater f))

/-- A host answers calls as another one does, if `f` and `g` forget what it has of its own in its
lazies and in its world. -/
structure Host.Mimics (h' : Host ρ M V) (h : Host ρ L W) (f : M → L) (g : V → W) : Prop where
  resolve : ∀ resolver ctx entries v, h.resolve resolver ctx entries (g v) =
    ((h'.resolve resolver ctx entries v).1.mapLater f, (h'.resolve resolver ctx entries v).2.1,
      g (h'.resolve resolver ctx entries v).2.2)
  force : ∀ l v, h.force (f l) (g v) = ((h'.force l v).1.mapLater f, g (h'.force l v).2)

/-- A host does all that another one does. -/
structure Host.Mirrors (h' : Host ρ M V) (h : Host ρ L W) (f : M → L) (g : V → W) : Prop
    extends Host.Mimics h' h f g where
  turn : ∀ v, h.turn (g v) = g (h'.turn v)
  drain : ∀ v, h.drain (g v) = g (h'.drain v)

/-- The same query with another host. -/
def Execution.hostedBy (e : Execution ρ L W) (h : Host ρ M V) : Execution ρ M V :=
  ⟨e.registry, h, e.variableValues, e.data⟩

/-- The same requests with another host. -/
def Schema.hostedBy (s : Schema ρ L W) (h : Host ρ M V) : Schema ρ M V :=
  ⟨s.registry, h, s.config, s.data⟩

namespace Execution

/-! ## Parts of a run -/

/-- A part of a run comes to the same as another one, but for what is forgotten. -/
def Mirrors (f : M → L) (g : V → W) (k : α → β) (m' : Running M V α) (m : Running L W β) : Prop :=
  ∀ p v, m.run (p.mapLater f, g v) =
    ((m'.run (p, v)).1.map k, (m'.run (p, v)).2.1.mapLater f, g (m'.run (p, v)).2.2)

variable {f : M → L} {g : V → W} {k : α → β} {k' : γ → δ}

theorem Mirrors.bind {m' : Running M V α} {m : Running L W β} {n' : α → Running M V γ}
    {n : β → Running L W δ} (h : Mirrors f g k m' m) (hn : ∀ a, Mirrors f g k' (n' a) (n (k a))) :
    Mirrors f g k' (m' >>= n') (m >>= n) := by
  intro p v
  rw [run_bind, run_bind, h p v]
  obtain ⟨r, p', v'⟩ := m'.run (p, v)
  cases r with
  | error halt => rfl
  | ok a => exact hn a p' v'

theorem mirrors_pure (k : α → β) (a : α) : Mirrors f g k (pure a) (pure (k a)) :=
  fun _ _ => rfl

theorem mirrors_nothing : Mirrors f g id (pure ()) (pure ()) :=
  mirrors_pure id ()

theorem mirrors_throw (halt : Halt) :
    Mirrors f g k (throw halt : Running M V α) (throw halt : Running L W β) :=
  fun _ _ => rfl

theorem mirrors_update (u' : Progress M → Progress M) (u : Progress L → Progress L)
    (h : ∀ p, u (p.mapLater f) = (u' p).mapLater f) : Mirrors f g id (update u') (update u) := by
  intro p v
  rw [run_update, run_update, h]
  rfl

theorem mirrors_grow (t : ResponseTree → List SlotId × ResponseTree) :
    Mirrors f g id (grow t) (grow t) :=
  fun _ _ => rfl

theorem mirrors_progress : Mirrors f g (Progress.mapLater f) progress progress :=
  fun _ _ => rfl

theorem mirrors_isLive (slot : SlotId) : Mirrors f g id (isLive slot) (isLive slot) :=
  fun _ _ => rfl

theorem Mirrors.whileLive {slot : SlotId} {m' : Running M V Unit} {m : Running L W Unit}
    (h : Mirrors f g id m' m) :
    Mirrors f g id (do if ← isLive slot then m') (do if ← isLive slot then m) := by
  refine (mirrors_isLive slot).bind fun live => ?_
  cases live with
  | true => exact h
  | false => exact mirrors_nothing

theorem isPending_mapLater (p : Progress M) : (p.mapLater f).isPending = p.isPending := by
  simp [Progress.isPending, Progress.mapLater]

theorem mirrors_report (frame : Frame) (error : Error) :
    Mirrors f g id (report frame error) (report frame error) :=
  mirrors_update (fun p => p.record _) (fun p => p.record _) fun _ => rfl

theorem finish_mirrors {complete' : Frame → FieldValue M → Running M V Unit}
    {complete : Frame → FieldValue L → Running L W Unit} {frame : Frame}
    (h : ∀ value, Mirrors f g id (complete' frame value) (complete frame (value.mapLater f)))
    (outcome : Outcome M) : Mirrors f g id (finish complete' frame outcome)
      (finish complete frame (outcome.mapLater f)) := by
  cases outcome with
  | ok value => exact h value
  | error error =>
    cases error with
    | field error => exact mirrors_report frame error
    | internal message => exact mirrors_throw _

/-! ## Hosts -/

variable {e : Execution ρ L W} {h' : Host ρ M V} {frame : Frame}

theorem fieldOutcome_mirrors (hm : h'.Mimics e.host f g) (frame : Frame) (object : Name)
    (parent : Json) : Mirrors f g (Outcome.mapLater f)
      ((e.hostedBy h').fieldOutcome frame object parent) (e.fieldOutcome frame object parent) := by
  unfold fieldOutcome
  simp only [hostedBy]
  split
  · exact mirrors_pure (Outcome.mapLater f) (.ok (.leaf (.string object)))
  · cases e.registry.field? object frame.field.name with
    | none => exact mirrors_pure (Outcome.mapLater f) (.error _)
    | some spec =>
      simp only
      cases e.registry.coerceArguments e.variableValues frame.field.name spec.arguments
          frame.field.first with
      | error error => exact mirrors_pure (Outcome.mapLater f) (.error _)
      | ok arguments =>
        intro p v
        exact congrArg (fun r => (Except.ok r.1, { p.mapLater f with extensions := r.2.1 }, r.2.2))
          (hm.resolve ..)

theorem force_mirrors (hm : h'.Mimics e.host f g) (lazy : M) :
    Mirrors f g (Outcome.mapLater f) ((e.hostedBy h').force lazy) (e.force (f lazy)) := by
  intro p v
  rw [run_force, hm.force]
  rfl

/-! ## Values -/

theorem elements_mapLater (value : FieldValue M) :
    elements (value.mapLater f) = (elements value).map (List.map (Tree.mapLater f)) := by
  cases value with
  | list items =>
    rw [Tree.mapLater, Tree.mapLaterItems_eq]
    rfl
  | later lazy => rfl
  | leaf json =>
    cases json with
    | array items =>
      show Except.ok (items.map Tree.leaf) = .ok ((items.map Tree.leaf).map (Tree.mapLater f))
      rw [List.map_map]
      rfl
    | _ => rfl

theorem scalarCompletion_mapLater (name : Name) (builtin : Option Scalar) (value : FieldValue M) :
    scalarCompletion name builtin (value.mapLater f) =
      (scalarCompletion name builtin value).mapLater f := by
  unfold scalarCompletion
  rw [FieldValue.toJson?_mapLater]
  cases value.toJson? with
  | none => rfl
  | some json =>
    cases builtin with
    | none => rfl
    | some scalar =>
      simp only
      cases scalar.serialize? json <;> rfl

theorem enumCompletion_mapLater (name : Name) (values : List Name) (value : FieldValue M) :
    enumCompletion name values (value.mapLater f) = (enumCompletion name values value).mapLater f := by
  cases value with
  | leaf json =>
    cases json with
    | string text =>
      show (if _ then _ else _) = Completion.mapLater f (if _ then _ else _)
      split <;> rfl
    | _ => rfl
  | list items =>
    show Completion.reject (.enum name (FieldValue.toJson? (Tree.mapLater f (.list items)))) = _
    rw [FieldValue.toJson?_mapLater]
    rfl
  | later lazy => rfl

theorem objectCompletion_mapLater (field : Plan.Node) (name : Name) (value : FieldValue M) :
    e.objectCompletion field name (value.mapLater f) =
      ((e.hostedBy h').objectCompletion field name value).mapLater f := by
  cases value with
  | leaf json =>
    show e.objectCompletion field name (.leaf json) = _
    unfold objectCompletion
    simp only [hostedBy]
    split <;> rfl
  | _ => rfl

theorem namedCompletion_mapLater (field : Plan.Node) (name : Name) (value : FieldValue M) :
    e.namedCompletion field name (value.mapLater f) =
      ((e.hostedBy h').namedCompletion field name value).mapLater f := by
  unfold namedCompletion
  simp only [hostedBy]
  split
  · exact scalarCompletion_mapLater ..
  · exact enumCompletion_mapLater ..
  · exact objectCompletion_mapLater field name value
  · exact objectCompletion_mapLater field name value
  · exact objectCompletion_mapLater field name value
  · rfl

/-- How a value is completed that is there, and is not null. -/
theorem completion_of_value {value : FieldValue L} (hlater : ∀ lazy, value ≠ .later lazy)
    (hnull : value ≠ .leaf .null) : e.completion frame value =
      match frame.type with
      | .named name _ => e.namedCompletion frame.field name value
      | .list item nullable =>
        match elements value with
        | .error found => .reject (.notList found)
        | .ok items => .list item nullable items := by
  unfold completion
  split
  · exact absurd rfl (hlater _)
  · exact absurd rfl hnull
  · rfl

theorem completion_mapLater (frame : Frame) (value : FieldValue M) :
    e.completion frame (value.mapLater f) = ((e.hostedBy h').completion frame value).mapLater f := by
  have hvalue : (∀ lazy, value ≠ .later lazy) → value ≠ .leaf .null →
      e.completion frame (value.mapLater f) =
        ((e.hostedBy h').completion frame value).mapLater f := by
    intro hlater hnull
    rw [completion_of_value hlater hnull, completion_of_value]
    · cases frame.type with
      | named name nullable => exact namedCompletion_mapLater frame.field name value
      | list item nullable =>
        simp only [elements_mapLater]
        cases elements value <;> rfl
    · intro lazy h
      cases value with
      | later lazy => exact hlater lazy rfl
      | _ => cases h
    · intro h
      cases value with
      | leaf json =>
        cases h
        exact hnull rfl
      | _ => cases h
  cases value with
  | later lazy => rfl
  | list items => exact hvalue (fun _ => nofun) nofun
  | leaf json =>
    by_cases hnull : json = .null
    · subst hnull
      show (if _ then _ else _) = Completion.mapLater f (if _ then _ else _)
      split <;> rfl
    · exact hvalue (fun _ => nofun) fun h => hnull (Tree.leaf.inj h)

theorem completeElements_mirrors {complete' : Frame → FieldValue M → Running M V Unit}
    {complete : Frame → FieldValue L → Running L W Unit} {list : Frame} {item : TypeRef}
    (hitem : ∀ (frame : Frame) value, frame.field = list.field → frame.type = item →
      Mirrors f g id (complete' frame value) (complete frame (value.mapLater f)))
    (items : List (FieldValue M)) (slots : List SlotId) (i : Nat) :
    Mirrors f g id (completeElements complete' list item i (slots.zip items))
      (completeElements complete list item i (slots.zip (items.map (Tree.mapLater f)))) := by
  induction items generalizing slots i with
  | nil =>
    rw [List.map_nil, List.zip_nil_right, List.zip_nil_right]
    exact mirrors_nothing
  | cons value items ih =>
    cases slots with
    | nil => exact mirrors_nothing
    | cons slot slots =>
      exact (hitem ⟨list.field, item, list.path.child (.index i), slot⟩ value rfl rfl).bind
        fun _ => .whileLive (ih slots (i + 1))

/-- Running fields comes to the same. -/
def NodesMirror (f : M → L) (g : V → W) (e : Execution ρ L W) (h' : Host ρ M V)
    (nodes : List Plan.Node) : Prop :=
  ∀ object value above path slots, Mirrors f g id
    ((e.hostedBy h').runNodes object value above path nodes slots)
    (e.runNodes object value above path nodes slots)

theorem perform_mirrors {select' : Select M V} {select : Select L W} {value : FieldValue M}
    (hnodes : ∀ object nodes, frame.field.childrenFor? object = some nodes → NodesMirror f g e h' nodes)
    (hitem : ∀ item nullable, frame.type = .list item nullable →
      ∀ (inner : Frame) value, inner.field = frame.field → inner.type = item →
        Mirrors f g id ((e.hostedBy h').completeAs select' item inner value)
          (e.completeAs select item inner (value.mapLater f))) :
    Mirrors f g id (perform (e.hostedBy h') select' frame ((e.hostedBy h').completion frame value))
      (perform e select frame (e.completion frame (value.mapLater f))) := by
  have hfit := (e.hostedBy h').fits_completion frame value
  rw [show e.completion frame (value.mapLater f) = ((e.hostedBy h').completion frame value).mapLater f from
    completion_mapLater frame value]
  cases hc : (e.hostedBy h').completion frame value with
  | aside lazy =>
    refine mirrors_update (fun p => p.putAside frame lazy) (fun p => p.putAside frame (f lazy)) fun p => ?_
    simp [Progress.putAside, Progress.mapLater, Pending.mapLater]
  | null => exact mirrors_update (fun p => p.record _) (fun p => p.record _) fun _ => rfl
  | reject error => exact mirrors_report frame _
  | leaf json =>
    exact mirrors_update (fun p => { p with tree := p.tree.setLeaf frame.slot json })
      (fun p => { p with tree := p.tree.setLeaf frame.slot json }) fun _ => rfl
  | object object nodes json =>
    rw [hc] at hfit
    exact (mirrors_grow _).bind fun slots =>
      hnodes object nodes hfit.1 object json frame.slot frame.path slots
  | list item nullable items =>
    rw [hc] at hfit
    have hgrow : Mirrors f g id
        (grow fun t => t.setList frame.slot items.length (item.nullable || nullable))
        (grow fun t => t.setList frame.slot (items.map (Tree.mapLater f)).length
          (item.nullable || nullable)) := by
      rw [List.length_map]
      exact mirrors_grow _
    exact hgrow.bind fun slots => completeElements_mirrors (hitem item nullable hfit.1) items slots 0

theorem completeAs_mirrors (field : Plan.Node) (hnodes : ∀ object nodes,
      field.childrenFor? object = some nodes → NodesMirror f g e h' nodes)
    (type : TypeRef) : ∀ (frame : Frame) (value : FieldValue M), frame.field = field →
      frame.type = type → Mirrors f g id
        ((e.hostedBy h').completeAs ((e.hostedBy h').selectFrom field.children) type frame value)
        (e.completeAs (e.selectFrom field.children) type frame (value.mapLater f)) := by
  induction type with
  | named name nullable =>
    rintro frame value rfl ht
    rw [← ht, completeAs_eq, completeAs_eq]
    refine perform_mirrors hnodes fun item nullable ht' => ?_
    rw [ht] at ht'
    cases ht'
  | list item nullable ih =>
    rintro frame value rfl ht
    rw [← ht, completeAs_eq, completeAs_eq]
    refine perform_mirrors hnodes fun item nullable ht' => ?_
    rw [ht] at ht'
    cases ht'
    exact ih

/-! ## Fields -/

mutual

theorem runNode_mirrors (hm : h'.Mimics e.host f g) : (node : Plan.Node) →
    ∀ object parent slot path, Mirrors f g id
      ((e.hostedBy h').runNode object parent node slot path) (e.runNode object parent node slot path)
  | ⟨key, owner, type, first, others, children⟩ => fun object parent slot path => by
    rw [runNode, runNode]
    refine (fieldOutcome_mirrors hm _ object parent).bind fun outcome => ?_
    exact finish_mirrors (fun value => completeAs_mirrors ⟨key, owner, type, first, others, children⟩
      (children_mirror hm children) type ⟨_, type, path, slot⟩ value rfl rfl) outcome

theorem runNodes_mirror (hm : h'.Mimics e.host f g) :
    (nodes : List Plan.Node) → NodesMirror f g e h' nodes
  | [] => fun _ _ _ _ _ => mirrors_nothing
  | node :: nodes => fun object value above path slots => by
    cases slots with
    | nil => exact mirrors_nothing
    | cons slot slots =>
      exact (runNode_mirrors hm node object value slot _).bind fun _ =>
        .whileLive (runNodes_mirror hm nodes object value above path slots)

theorem children_mirror (hm : h'.Mimics e.host f g) : (children : List (Name × List Plan.Node)) →
    ∀ object nodes, Assoc.get? children object = some nodes → NodesMirror f g e h' nodes
  | [] => fun _ _ h => by cases h
  | (name, nodes) :: rest => fun object found h => by
    rw [Assoc.get?] at h
    split at h
    · cases h
      exact runNodes_mirror hm nodes
    · exact children_mirror hm rest object found h

end

/-! ## Waves -/

theorem completePending_mirrors (hm : h'.Mimics e.host f g) (pending : List (Pending M)) :
    Mirrors f g id ((e.hostedBy h').completePending pending)
      (e.completePending (pending.map (Pending.mapLater f))) := by
  induction pending with
  | nil => exact mirrors_nothing
  | cons d pending ih =>
    refine (mirrors_isLive d.frame.slot).bind fun live => ?_
    cases live with
    | true =>
      refine (force_mirrors hm d.lazy).bind fun outcome => (finish_mirrors (fun value => ?_) outcome).bind
        fun _ => ih
      exact completeAs_mirrors d.frame.field (children_mirror hm _) d.frame.type d.frame value rfl rfl
    | false => exact ih

theorem wave_mirrors (hm : h'.Mimics e.host f g) : Mirrors f g id (e.hostedBy h').wave e.wave :=
  mirrors_progress.bind fun p =>
    (mirrors_update (fun p => { p with pending := [] }) (fun p => { p with pending := [] })
      fun _ => rfl).bind fun _ => completePending_mirrors hm p.pending

theorem settle_mirrors (hm : h'.Mimics e.host f g) (fuel : Nat) :
    Mirrors f g id ((e.hostedBy h').settle fuel) (e.settle fuel) := by
  induction fuel with
  | zero =>
    refine mirrors_progress.bind fun p => ?_
    rw [isPending_mapLater]
    split
    · exact mirrors_throw .unfinished
    · exact mirrors_nothing
  | succ fuel ih =>
    refine mirrors_progress.bind fun p => ?_
    rw [isPending_mapLater]
    split
    · exact (wave_mirrors hm).bind fun _ => ih
    · exact mirrors_nothing

theorem runRoot_mirrors (hm : h'.Mimics e.host f g) (fuel : Nat) (serial : Bool) (root : Name)
    (nodes : List Plan.Node) (slots : List SlotId) : Mirrors f g id
      ((e.hostedBy h').runRoot fuel serial root nodes slots) (e.runRoot fuel serial root nodes slots) := by
  induction nodes generalizing slots with
  | nil => exact mirrors_nothing
  | cons node nodes ih =>
    cases slots with
    | nil => exact mirrors_nothing
    | cons slot slots =>
      rw [runRoot_cons, runRoot_cons]
      refine (runNode_mirrors hm node root _ slot _).bind fun _ => .bind (k := id) ?_ fun _ =>
        .whileLive (ih slots)
      cases serial with
      | true => exact settle_mirrors hm fuel
      | false => exact mirrors_nothing

theorem begin_mirrors (hm : h'.Mimics e.host f g) (fuel : Nat) (plan : Plan) :
    Mirrors f g id ((e.hostedBy h').begin fuel plan) (e.begin fuel plan) :=
  (mirrors_grow _).bind fun slots => runRoot_mirrors hm fuel _ plan.root plan.fields slots

end Execution

/-! ## Queries together -/

namespace Multiplex

variable {s : Schema ρ L W} {h' : Host ρ M V} {f : M → L} {g : V → W}
  {part' : Execution ρ M V → Plan → Running M V Unit} {part : Execution ρ L W → Plan → Running L W Unit}

/-- The parts of the runs of all queries come to the same. -/
def PartsMirror (f : M → L) (g : V → W) (s : Schema ρ L W) (h' : Host ρ M V) (m : Multiplex)
    (part' : Execution ρ M V → Plan → Running M V Unit)
    (part : Execution ρ L W → Plan → Running L W Unit) : Prop :=
  ∀ query data plan, Execution.Mirrors f g id (part' ((execution s m query data).hostedBy h') plan)
    (part (execution s m query data) plan)

theorem advance_mirrors {m : Multiplex} (hp : PartsMirror f g s h' m part' part) (run : QueryRun M)
    (v : V) : advance s m part (run.mapLater f) (g v) =
      ((advance (s.hostedBy h') m part' run v).1,
        (advance (s.hostedBy h') m part' run v).2.1.mapLater f,
        g (advance (s.hostedBy h') m part' run v).2.2) := by
  cases run with
  | running query data p =>
    have h := hp query data query.plan p v
    rw [QueryRun.mapLater, advance, advance, h]
    show _ = _
    have he : execution (s.hostedBy h') m query data = (execution s m query data).hostedBy h' := rfl
    rw [he]
    obtain ⟨r, p', v'⟩ := (part' ((execution s m query data).hostedBy h') query.plan).run (p, v)
    cases r <;> rfl
  | _ => rfl

theorem advanceAll_mirrors {m : Multiplex} (hp : PartsMirror f g s h' m part' part)
    (runs : List (QueryRun M)) (v : V) : advanceAll s m part (runs.map (QueryRun.mapLater f)) (g v) =
      ((advanceAll (s.hostedBy h') m part' runs v).1,
        (advanceAll (s.hostedBy h') m part' runs v).2.1.map (QueryRun.mapLater f),
        g (advanceAll (s.hostedBy h') m part' runs v).2.2) := by
  induction runs generalizing v with
  | nil => rfl
  | cons run rest ih =>
    rw [List.map_cons, advanceAll, advanceAll, advance_mirrors hp]
    obtain ⟨halt, run', v'⟩ := advance (s.hostedBy h') m part' run v
    cases halt with
    | some halt => rfl
    | none =>
      simp only [ih]
      rfl

theorem begin_mirror (hm : h'.Mimics s.host f g) (m : Multiplex) (fuel : Nat) :
    PartsMirror f g s h' m (fun e plan => e.begin fuel plan) fun e plan => e.begin fuel plan :=
  fun _ _ plan => Execution.begin_mirrors hm fuel plan

theorem wave_mirror (hm : h'.Mimics s.host f g) (m : Multiplex) :
    PartsMirror f g s h' m (fun e _ => e.wave) fun e _ => e.wave :=
  fun _ _ _ => Execution.wave_mirrors hm

theorem any_isPending_mapLater (f : M → L) (runs : List (QueryRun M)) :
    (runs.map (QueryRun.mapLater f)).any QueryRun.isPending = runs.any QueryRun.isPending := by
  rw [List.any_map]
  congr 1
  funext run
  cases run with
  | running query data p => exact Execution.isPending_mapLater p
  | _ => rfl

theorem waves_mirrors (hm : h'.Mirrors s.host f g) (m : Multiplex) (fuel : Nat)
    (runs : List (QueryRun M)) (v : V) : waves s m fuel (runs.map (QueryRun.mapLater f)) (g v) =
      ((waves (s.hostedBy h') m fuel runs v).1,
        (waves (s.hostedBy h') m fuel runs v).2.1.map (QueryRun.mapLater f),
        g (waves (s.hostedBy h') m fuel runs v).2.2) := by
  induction fuel generalizing runs v with
  | zero => rfl
  | succ fuel ih =>
    rw [waves, waves, advanceAll_mirrors (wave_mirror hm.toMimics m)]
    obtain ⟨halt, runs', v'⟩ := advanceAll (s.hostedBy h') m (fun e _ => e.wave) runs v
    cases halt with
    | some halt => rfl
    | none =>
      simp only [any_isPending_mapLater, hm.turn]
      split
      · exact ih runs' _
      · rfl

theorem totalComplexity_mapLater (f : M → L) (runs : List (QueryRun M)) :
    QueryRun.totalComplexity (runs.map (QueryRun.mapLater f)) = QueryRun.totalComplexity runs := by
  induction runs with
  | nil => rfl
  | cons run rest ih =>
    rw [List.map_cons, QueryRun.totalComplexity, QueryRun.totalComplexity, ih]
    cases run <;> rfl

theorem receive_mirrors (s : Schema ρ L W) (h' : Host ρ M V) (f : M → L) (r : Request) :
    receive s r = (receive (s.hostedBy h') r).mapLater f := by
  unfold receive
  simp only [Schema.hostedBy]
  split <;> rfl

theorem receiveAll_mirrors (s : Schema ρ L W) (h' : Host ρ M V) (f : M → L) (m : Multiplex) :
    m.receiveAll s = (m.receiveAll (s.hostedBy h')).map (QueryRun.mapLater f) := by
  have hreceive : m.requests.map (receive s) =
      (m.requests.map (receive (s.hostedBy h'))).map (QueryRun.mapLater f) := by
    rw [List.map_map]
    exact List.map_congr_left fun r _ => receive_mirrors s h' f r
  have hrefuse : ∀ (errors : List Error) (runs : List (QueryRun M)),
      (runs.map (QueryRun.mapLater f)).map (QueryRun.refuse errors) =
        (runs.map (QueryRun.refuse errors)).map (QueryRun.mapLater f) := by
    intro errors runs
    rw [List.map_map, List.map_map]
    refine List.map_congr_left fun run _ => ?_
    cases run <;> rfl
  unfold receiveAll
  simp only [hreceive, totalComplexity_mapLater]
  split
  · exact hrefuse ..
  · rfl

theorem outcome_mapLater (f : M → L) (halt : Option Halt) (runs : List (QueryRun M)) :
    outcome halt (runs.map (QueryRun.mapLater f)) = outcome halt runs := by
  cases halt with
  | some halt => rfl
  | none =>
    unfold outcome
    rw [List.map_map]
    refine congrArg Except.ok (List.map_congr_left fun run _ => ?_)
    cases run <;> rfl

/-- What a host knows more than another one makes no difference to what requests come to. -/
theorem run_mirrored (hm : h'.Mirrors s.host f g) (m : Multiplex) (fuel : Nat) (v : V) :
    m.run s fuel (g v) = ((m.run (s.hostedBy h') fuel v).1, g (m.run (s.hostedBy h') fuel v).2) := by
  rw [run, run, settle, settle, receiveAll_mirrors s h' f m,
    advanceAll_mirrors (begin_mirror hm.toMimics m fuel)]
  obtain ⟨halt, runs, v'⟩ := advanceAll (s.hostedBy h') m (fun e plan => e.begin fuel plan)
    (m.receiveAll (s.hostedBy h')) v
  have hdrain : ∀ v, s.host.drain (g v) = g ((s.hostedBy h').host.drain v) := hm.drain
  cases halt with
  | some halt =>
    simp only [outcome_mapLater, hdrain]
  | none =>
    simp only [hdrain, waves_mirrors hm, outcome_mapLater]

end Multiplex

end GraphQL
