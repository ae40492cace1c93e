import GraphQL.Proofs.Execution.Declared
import GraphQL.Proofs.Execution.Reached

/-!
# Errors and nulls account for each other

Each null of the data goes back to a null that a resolver gave where there may be one, or to an
error at or below it; each error has nulled the closest place that may be null; and nothing is
reported from within what was nulled before. Which places may be null is what the declared types
say. `Machine.Kept` is what every step keeps of this, given the paths that the slots were made for
and the object types that values were found to be of.
-/

namespace GraphQL

variable {ρ L W : Type}

/-- An error that nulls a place. -/
structure Failure where
  frame : Frame
  error : Error

namespace Failure

/-- The entry among the errors of the response. -/
def entry (f : Failure) : Error :=
  f.error.placed f.frame.field.first.pos f.frame.path

/-- Whether the entry got its path from the place, since the error had none. -/
def isPlaced (f : Failure) : Bool :=
  f.error.path.isNone

theorem path_entry (f : Failure) : f.entry.path = some (f.error.path.getD f.frame.path) := rfl

theorem path_of_isPlaced {f : Failure} (h : f.isPlaced = true) : f.entry.path = some f.frame.path := by
  rw [path_entry, Option.isNone_iff_eq_none.1 h]
  rfl

end Failure

def Note.failure? : Note → Option Failure
  | .null _ => none
  | .failure frame error => some ⟨frame, error⟩

/-- The failures so far, in the order in which they came up. -/
def Progress.failures (p : Progress L) : List Failure :=
  p.notes.filterMap Note.failure?

theorem Progress.errors_eq (p : Progress L) : p.errors = p.failures.map Failure.entry := by
  rw [errors, failures, List.map_filterMap]
  congr 1
  funext note
  cases note <;> rfl

/-- A place is where its slot was made for, and the slots on the way may be null where the plan
declares it. -/
structure Frame.Proper (plan : Plan) (types : Path → Option Name) (t : ResponseTree)
    (place : Nat → Path) (frame : Frame) : Prop where
  path : frame.path = place frame.slot
  flags : ∃ flags, plan.DeclaresAt types frame flags ∧ t.Flagged frame.slot flags

/-- A note is about a slot that was made for its place, and has nulled what is to be. -/
structure Note.Settled (plan : Plan) (types : Path → Option Name) (t : ResponseTree)
    (place : Nat → Path) (note : Note) : Prop where
  proper : note.frame.Proper plan types t place
  slot : ∃ slot, t.get? note.frame.slot = some slot
  nulled : ∃ s, t.get? (t.nulled note.frame.slot) = some s ∧ s.content = .null
  given : ∀ frame, note = .null frame → frame.type.nullable = true ∧ t.nulled frame.slot = frame.slot

section

variable {plan : Plan} {types types' : Path → Option Name} {t t' : ResponseTree}
  {place place' : Nat → Path}

theorem Frame.Proper.of_extends {frame : Frame} (h : frame.Proper plan types t place)
    (he : ResponseTree.Extends t t')
    (hle : ∀ path object, types path = some object → types' path = some object)
    (hp : place' frame.slot = place frame.slot) : frame.Proper plan types' t' place' := by
  obtain ⟨hpath, flags, hdeclares, hflagged⟩ := h
  exact ⟨hpath.trans hp.symm, flags, hdeclares.mono hle, hflagged.of_extends he⟩

theorem Frame.Proper.nullable {frame : Frame} (h : frame.Proper plan types t place)
    (hn : frame.type.nullable = true) {slot : ResponseTree.Slot}
    (hs : t.get? frame.slot = some slot) : slot.nullable = true := by
  obtain ⟨-, flags, hdeclares, hflagged⟩ := h
  exact hflagged.nullable_of_getLast? hs (hdeclares.of_nullable hn)

theorem Note.Settled.of_extends {note : Note} (h : note.Settled plan types t place)
    (he : ResponseTree.Extends t t') (wf : t.WellFormed) (wf' : t'.WellFormed)
    (hle : ∀ path object, types path = some object → types' path = some object)
    (hp : place' note.frame.slot = place note.frame.slot) :
    note.Settled plan types' t' place' := by
  obtain ⟨slot, hs⟩ := h.slot
  obtain ⟨content, hs', -⟩ := he.kept hs
  have hn := he.nulled_eq wf wf' hs
  refine ⟨h.proper.of_extends he hle hp, ⟨_, hs'⟩, ?_, ?_⟩
  · obtain ⟨s, hg, hc⟩ := h.nulled
    obtain ⟨c, hg', hnull⟩ := he.kept hg
    rw [hn]
    exact ⟨_, hg', hnull hc⟩
  · rintro frame rfl
    exact ⟨(h.given frame rfl).1, hn.trans (h.given frame rfl).2⟩

/-- A place that is noted and becomes null is settled. -/
theorem Note.settled_setNull {note : Note} (wf : t.WellFormed)
    (hproper : note.frame.Proper plan types t place) {slot : ResponseTree.Slot}
    (hslot : t.get? note.frame.slot = some slot)
    (hgiven : ∀ frame, note = .null frame → frame.type.nullable = true) :
    note.Settled plan types (t.setNull note.frame.slot) place := by
  have he := ResponseTree.extends_setNull t note.frame.slot
  have hnulled := he.nulled_eq wf (ResponseTree.wellFormed_setNull wf hslot) hslot
  obtain ⟨target, htarget, -⟩ := ResponseTree.nulled_nullable wf hslot
  obtain ⟨content, hkept, -⟩ := he.kept hslot
  refine ⟨hproper.of_extends he (fun _ _ => id) rfl, ⟨_, hkept⟩, ?_, ?_⟩
  · rw [hnulled, ResponseTree.get?_setNull, if_pos rfl, htarget]
    exact ⟨_, rfl, rfl⟩
  · rintro frame rfl
    have hnull := hgiven frame rfl
    exact ⟨hnull, hnulled.trans (ResponseTree.nulled_of_nullable hslot
      (hproper.nullable hnull hslot))⟩

end

namespace Machine

/-- What every step keeps: `place` has the paths that the slots were made for, `types` the object
types that values were found to be of. -/
structure Kept (plan : Plan) (r : Registry ρ) (m : Machine L W) (place : Nat → Path)
    (types : Path → Option Name) : Prop where
  sound : m.Sound
  places : ResponseTree.Places m.progress.tree place
  typed : plan.Typed r types
  known : ∀ {path object}, types path = some object → ∃ id slot,
    m.progress.tree.get? id = some slot ∧ slot.content ≠ .pending ∧ place id = path
  tasks : ∀ task ∈ m.tasks, task.frame.Proper plan types m.progress.tree place
  notes : ∀ note ∈ m.progress.notes, note.Settled plan types m.progress.tree place
  order : m.progress.notes.Pairwise fun a b =>
    ¬ ResponseTree.Within m.progress.tree (m.progress.tree.nulled a.frame.slot) b.frame.slot
  nulls : ∀ {id : Nat} {slot}, m.progress.tree.get? id = some slot → slot.content = .null →
    ∃ note ∈ m.progress.notes, m.progress.tree.nulled note.frame.slot = id
  leaves : ∀ {id : Nat} {slot json}, m.progress.tree.get? id = some slot →
    slot.content = .leaf json → json ≠ .null

variable {plan : Plan} {r : Registry ρ} {m m' : Machine L W} {place : Nat → Path}
  {types types' : Path → Option Name} {t : ResponseTree}

theorem Kept.of_tasks (h : m.Kept plan r place types) (hs : m'.Sound)
    (ht : m'.progress.tree = m.progress.tree) (hn : m'.progress.notes = m.progress.notes)
    (hsub : m'.tasks.map Task.frame ⊆ m.tasks.map Task.frame) : m'.Kept plan r place types := by
  constructor
  · exact hs
  · exact ht ▸ h.places
  · exact h.typed
  · rw [ht]
    exact h.known
  · intro task hm
    obtain ⟨task', hm', he⟩ := List.mem_map.1 (hsub (List.mem_map_of_mem hm))
    rw [← he, ht]
    exact h.tasks task' hm'
  · rw [hn, ht]
    exact h.notes
  · rw [hn, ht]
    exact h.order
  · rw [hn, ht]
    exact h.nulls
  · rw [ht]
    exact h.leaves

/-- What notes have nulled stays the same when the tree changes. -/
theorem Kept.nulled_eq (h : m.Kept plan r place types)
    (he : ResponseTree.Extends m.progress.tree t) (wf : t.WellFormed) {note : Note}
    (hm : note ∈ m.progress.notes) :
    t.nulled note.frame.slot = m.progress.tree.nulled note.frame.slot := by
  obtain ⟨slot, hs⟩ := (h.notes note hm).slot
  exact he.nulled_eq h.sound.tree wf hs

theorem Kept.order_of_extends (h : m.Kept plan r place types)
    (he : ResponseTree.Extends m.progress.tree t) (wf : t.WellFormed) :
    m.progress.notes.Pairwise fun a b =>
      ¬ ResponseTree.Within t (t.nulled a.frame.slot) b.frame.slot := by
  refine h.order.imp_of_mem fun {a b} ha hb hnot hw => hnot ?_
  obtain ⟨slot, hs⟩ := (h.notes b hb).slot
  rw [h.nulled_eq he wf ha] at hw
  exact (he.within_iff h.sound.tree hs).1 hw

/-- What has been found out about values still holds when places become null. -/
theorem Kept.known_setNull (h : m.Kept plan r place types) (id : Nat) {path : Path} {object : Name}
    (hobject : types path = some object) : ∃ id' slot,
      (m.progress.tree.setNull id).get? id' = some slot ∧ slot.content ≠ .pending ∧
        place id' = path := by
  obtain ⟨id', slot, hs, hc, hid⟩ := h.known hobject
  by_cases hself : id' = m.progress.tree.nulled id
  · refine ⟨id', { slot with content := .null }, ?_, by simp, hid⟩
    rw [ResponseTree.get?_setNull, if_pos hself, hs]
    rfl
  · refine ⟨id', slot, ?_, hc, hid⟩
    rw [ResponseTree.get?_setNull, if_neg hself]
    exact hs

/-- A place is noted and becomes null. -/
theorem Kept.note (note : Note) {work : Work L} {p p' : Progress L} {w w' : W}
    {rest : List (Task L)}
    (h : (⟨p, w, ⟨note.frame, work⟩ :: rest⟩ : Machine L W).Kept plan r place types)
    (hl : p.tree.isLive note.frame.slot = true) (ht : p'.tree = p.tree) (hn : p'.notes = p.notes)
    (hp : p'.pending = p.pending) (hgiven : ∀ frame, note = .null frame →
      frame.type.nullable = true) :
    (⟨p'.record note, w', rest⟩ : Machine L W).Kept plan r place types := by
  have hsound : (⟨p'.record note, w', rest⟩ : Machine L W).Sound := h.sound.note ht hp
  have htree : (p'.record note).tree = p.tree.setNull note.frame.slot := by
    rw [Progress.record, ht]
  have hnotes : (p'.record note).notes = p.notes ++ [note] := by
    rw [Progress.record, hn]
  have htasks : (⟨p'.record note, w', rest⟩ : Machine L W).tasks =
      rest ++ p.pending.map Task.ofPending := by rw [Machine.tasks, Progress.record, hp]
  obtain ⟨slot, hslot, hpend⟩ := h.sound.pending ⟨note.frame, work⟩ (List.mem_cons_self ..)
  replace hslot : p.tree.get? note.frame.slot = some slot := hslot
  have hproper : note.frame.Proper plan types p.tree place :=
    h.tasks ⟨note.frame, work⟩ (List.mem_cons_self ..)
  have wf : p.tree.WellFormed := h.sound.tree
  have wf' : (p.tree.setNull note.frame.slot).WellFormed := ResponseTree.wellFormed_setNull wf hslot
  have he := ResponseTree.extends_setNull p.tree note.frame.slot
  have hsettled := Note.settled_setNull wf hproper hslot hgiven
  have hle : ∀ path object, types path = some object → types path = some object :=
    fun _ _ h => h
  constructor
  · exact hsound
  · rw [htree]
    exact h.places.setNull _
  · exact h.typed
  · rw [htree]
    exact h.known_setNull _
  · rw [htasks, htree]
    intro task hm
    exact (h.tasks task (List.mem_cons_of_mem _ hm)).of_extends he hle rfl
  · rw [hnotes, htree]
    intro n hm
    rcases List.mem_append.1 hm with hm | hm
    · exact (h.notes n hm).of_extends he wf wf' hle rfl
    · exact List.mem_singleton.1 hm ▸ hsettled
  · rw [hnotes, htree, List.pairwise_append]
    refine ⟨h.order_of_extends he wf', List.pairwise_singleton _ _, ?_⟩
    -- the new note is about a place that is live
    intro a ha b hb hw
    rw [List.mem_singleton.1 hb, h.nulled_eq he wf' ha] at hw
    obtain ⟨s, hs, hc⟩ := (h.notes a ha).nulled
    exact (ResponseTree.isLive_iff wf hslot).1 hl _ s ((he.within_iff wf hslot).1 hw) hs hc
  · rw [hnotes, htree]
    intro id s hs hc
    rw [ResponseTree.get?_setNull] at hs
    split at hs
    · next hid =>
      exact ⟨note, by simp, (he.nulled_eq wf wf' hslot).trans hid.symm⟩
    · obtain ⟨n, hm, hid⟩ := h.nulls hs hc
      exact ⟨n, List.mem_append_left _ hm, (h.nulled_eq he wf' hm).trans hid⟩
  · rw [htree]
    intro id s json hs hc
    rw [ResponseTree.get?_setNull] at hs
    split at hs
    · obtain ⟨s', -, rfl⟩ := Option.map_eq_some_iff.1 hs
      cases hc
    · exact h.leaves hs hc

/-- New tasks are proper when each goes one segment down, to a place that the plan declares with the
flag of its slot. -/
theorem proper_new {t : ResponseTree} {id : Nat} {slot : ResponseTree.Slot}
    (hs : t.get? id = some slot) (hc : slot.content ≠ .null) {above flags : List Bool}
    (habove : t.Flagged id above) {segments : List Segment}
    {content : ResponseTree.Content} {new : List (Task L)}
    (hslots : new.map Task.slot = t.nextIds flags.length)
    (hnew : ∀ (k : Nat) (task : Task L), new[k]? = some task → ∃ segment nullable,
      segments[k]? = some segment ∧ flags[k]? = some nullable ∧
      task.frame.path = (place id).child segment ∧
      plan.DeclaresAt types task.frame (above ++ [nullable])) :
    ∀ task ∈ new, task.frame.Proper plan types (t.grow id flags content)
      (ResponseTree.Places.extended t place id segments) := by
  intro task hm
  obtain ⟨k, hk⟩ := List.mem_iff_getElem?.1 hm
  obtain ⟨segment, nullable, hseg, hflag, hpath, hdeclares⟩ := hnew k task hk
  have hid : task.frame.slot = t.slots.size + k := by
    have : (new.map Task.slot)[k]? = some task.slot := by rw [List.getElem?_map, hk]; rfl
    rw [hslots] at this
    exact (ResponseTree.getElem?_nextIds this).1
  refine ⟨?_, above ++ [nullable], hdeclares, ?_⟩
  · rw [hid, ResponseTree.Places.extended_new hseg, hpath]
  · rw [hid]
    have hgrown := habove.of_extends (ResponseTree.extends_grow hs hc flags content)
    exact .child (ResponseTree.get?_grow_new hs hflag) rfl hgrown

/-- A slot gets content, and tasks for what grows below it. -/
theorem Kept.grow (flags : List Bool) (segments : List Segment) (content : ResponseTree.Content)
    (new : List (Task L)) {frame : Frame} {work : Work L} {p : Progress L} {w : W}
    {rest : List (Task L)}
    (h : (⟨p, w, ⟨frame, work⟩ :: rest⟩ : Machine L W).Kept plan r place types)
    (hle : ∀ path object, types path = some object → types' path = some object)
    (htyped : plan.Typed r types')
    (htypes : ∀ path object, types' path = some object →
      types path = some object ∨ path = frame.path)
    (hc : content.children = p.tree.nextIds flags.length) (hnull : content ≠ .null)
    (hpend : content ≠ .pending) (hleaf : ∀ json, content = .leaf json → json ≠ .null)
    (hlen : segments.length = flags.length) (hnodup : segments.Nodup)
    (hleads : ∀ {segment child}, content.Leads segment child →
      ∃ k, segments[k]? = some segment ∧ child = p.tree.slots.size + k)
    (hslots : new.map Task.slot = p.tree.nextIds flags.length)
    (hnew : ∀ above, plan.DeclaresAt types' frame above → ∀ (k : Nat) (task : Task L),
      new[k]? = some task → ∃ segment nullable, segments[k]? = some segment ∧
        flags[k]? = some nullable ∧ task.frame.path = frame.path.child segment ∧
        plan.DeclaresAt types' task.frame (above ++ [nullable])) :
    (⟨{ p with tree := p.tree.grow frame.slot flags content }, w, new ++ rest⟩ :
      Machine L W).Kept plan r (ResponseTree.Places.extended p.tree place frame.slot segments)
        types' := by
  have hsound : (⟨{ p with tree := p.tree.grow frame.slot flags content }, w, new ++ rest⟩ :
    Machine L W).Sound := h.sound.grow hc hnull hpend hslots
  have htasks : (⟨{ p with tree := p.tree.grow frame.slot flags content }, w, new ++ rest⟩ :
      Machine L W).tasks = new ++ (rest ++ p.pending.map Task.ofPending) := by
    simp [Machine.tasks]
  obtain ⟨slot, hslot, hcontent⟩ := h.sound.pending ⟨frame, work⟩ (List.mem_cons_self ..)
  replace hslot : p.tree.get? frame.slot = some slot := hslot
  obtain ⟨hpath, above, hdeclares, hflagged⟩ := h.tasks ⟨frame, work⟩ (List.mem_cons_self ..)
  have hplace : frame.path = place frame.slot := hpath
  have wf : p.tree.WellFormed := h.sound.tree
  have wf' : (p.tree.grow frame.slot flags content).WellFormed := hsound.tree
  have hfree : slot.content ≠ .null := by
    rw [hcontent]
    simp
  have he := ResponseTree.extends_grow hslot hfree flags content
  constructor
  · exact hsound
  · exact h.places.grow wf hslot hcontent hlen hnodup hleads
  · exact htyped
  · intro path object hobject
    rcases htypes path object hobject with hold | rfl
    · obtain ⟨id, s, hs, hsettled, hid⟩ := h.known hold
      have hne : id ≠ frame.slot := by
        rintro rfl
        cases hslot.symm.trans hs
        exact hsettled hcontent
      refine ⟨id, s, ?_, hsettled, ?_⟩
      · exact (ResponseTree.get?_grow_old hne (ResponseTree.lt_size hs)).trans hs
      · rw [ResponseTree.Places.extended_old hs, hid]
    · refine ⟨frame.slot, _, ResponseTree.get?_grow_self hslot flags content, hpend, ?_⟩
      rw [ResponseTree.Places.extended_old hslot, hplace]
  · rw [htasks]
    intro task hm
    rcases List.mem_append.1 hm with hm | hm
    · refine proper_new hslot hfree hflagged hslots (fun k task hk => ?_) task hm
      rw [← hplace]
      exact hnew above (hdeclares.mono hle) k task hk
    · obtain ⟨s, hs, -⟩ := h.sound.pending task (List.mem_cons_of_mem _ hm)
      exact (h.tasks task (List.mem_cons_of_mem _ hm)).of_extends he hle
        (ResponseTree.Places.extended_old hs _ _)
  · intro note hm
    obtain ⟨s, hs⟩ := (h.notes note hm).slot
    exact (h.notes note hm).of_extends he wf wf' hle (ResponseTree.Places.extended_old hs _ _)
  · exact h.order_of_extends he wf'
  · intro id s hs hc'
    obtain ⟨-, rfl⟩ | ⟨-, hs⟩ | ⟨k, nullable, -, -, rfl⟩ := ResponseTree.get?_grow_cases hslot hs
    · exact absurd hc' hnull
    · obtain ⟨n, hm, hid⟩ := h.nulls hs hc'
      exact ⟨n, hm, (h.nulled_eq he wf' hm).trans hid⟩
    · cases hc'
  · intro id s json hs hc'
    obtain ⟨-, rfl⟩ | ⟨-, hs⟩ | ⟨k, nullable, -, -, rfl⟩ := ResponseTree.get?_grow_cases hslot hs
    · exact hleaf json hc'
    · exact h.leaves hs hc'
    · cases hc'

/-! ## Objects, lists and leaves -/

section

variable {nodes : List Plan.Node}

/-- The segments that lead to the fields of an object. -/
def fieldSegments (nodes : List Plan.Node) : List Segment :=
  nodes.map fun n => .field n.key

theorem nodup_fieldSegments (h : Plan.Distinct nodes) : (fieldSegments nodes).Nodup := by
  cases h with
  | intro hkeys _ =>
    exact List.pairwise_map.2 ((List.pairwise_map.1 hkeys).imp fun hne he =>
      hne (Segment.field.inj he))

theorem leads_fields {t : ResponseTree} {count : Nat} {segment : Segment} {child : Nat}
    (h : (ResponseTree.Content.object (((Execution.keysOf nodes).map Prod.fst).zip
      (t.nextIds count))).Leads segment child) :
    ∃ k, (fieldSegments nodes)[k]? = some segment ∧ child = t.slots.size + k := by
  cases segment with
  | index i => exact h.elim
  | field key =>
    obtain ⟨k, hk⟩ := List.mem_iff_getElem?.1 h
    obtain ⟨hkey, hchild⟩ := List.getElem?_zip_eq_some.1 hk
    have hfst : (Execution.keysOf nodes).map Prod.fst = nodes.map Plan.Node.key := by
      simp [Execution.keysOf, Function.comp_def]
    rw [hfst, List.getElem?_map] at hkey
    obtain ⟨node, hnode, rfl⟩ := Option.map_eq_some_iff.1 hkey
    exact ⟨k, by simp [fieldSegments, hnode], (ResponseTree.getElem?_nextIds hchild).1⟩

theorem new_fields {object : Name} {value : Json} {path : Path} {slots : List SlotId}
    {above : List Bool} (hdeclares : ∀ node ∈ nodes, plan.Declares types
      (path.child (.field node.key)) node node.type (above ++ [node.type.nullable]))
    (k : Nat) (task : Task L) (hk : (Task.ofNodes object value path nodes slots)[k]? = some task) :
    ∃ segment nullable, (fieldSegments nodes)[k]? = some segment ∧
      ((Execution.keysOf nodes).map Prod.snd)[k]? = some nullable ∧
      task.frame.path = path.child segment ∧
      plan.DeclaresAt types task.frame (above ++ [nullable]) := by
  obtain ⟨node, slot, hnode, -, rfl⟩ := Task.getElem?_ofNodes hk
  have hsnd : (Execution.keysOf nodes).map Prod.snd = nodes.map fun n => n.type.nullable := by
    simp [Execution.keysOf, Function.comp_def]
  refine ⟨.field node.key, node.type.nullable, ?_, ?_, rfl, ?_⟩
  · simp [fieldSegments, hnode]
  · simp [hsnd, hnode]
  · exact hdeclares node (List.mem_of_getElem? hnode)

end

/-- The value of a pending slot has not been found to be of any type. -/
theorem Kept.unknown {frame : Frame} {work : Work L} {p : Progress L} {w : W}
    {rest : List (Task L)}
    (h : (⟨p, w, ⟨frame, work⟩ :: rest⟩ : Machine L W).Kept plan r place types) :
    types frame.path = none := by
  obtain ⟨slot, hslot, hcontent⟩ := h.sound.pending ⟨frame, work⟩ (List.mem_cons_self ..)
  have hpath := (h.tasks ⟨frame, work⟩ (List.mem_cons_self ..)).path
  refine Option.eq_none_iff_forall_ne_some.2 fun object hobject => ?_
  obtain ⟨id, s, hs, hsettled, hid⟩ := h.known hobject
  cases h.places.injective hs hslot (hid.trans hpath)
  cases hs.symm.trans hslot
  exact hsettled hcontent

theorem Kept.growObject (hd : Plan.Distinct plan.fields) {frame : Frame} {work : Work L}
    {name object : Name} {nullable : Bool} {json : Json} {nodes : List Plan.Node} {p : Progress L}
    {w : W} {rest : List (Task L)}
    (h : (⟨p, w, ⟨frame, work⟩ :: rest⟩ : Machine L W).Kept plan r place types)
    (htype : frame.type = .named name nullable) (hconcrete : r.concreteType name json = some object)
    (hnodes : frame.field.childrenFor? object = some nodes) :
    (⟨(p.growObject frame.slot nodes).2, w,
      Task.ofNodes object json frame.path nodes (p.growObject frame.slot nodes).1 ++ rest⟩ :
        Machine L W).Kept plan r
      (ResponseTree.Places.extended p.tree place frame.slot (fieldSegments nodes))
      (Function.update types frame.path (some object)) := by
  have hslots : (p.growObject frame.slot nodes).1 = p.tree.nextIds nodes.length := by
    simp [Progress.growObject, ResponseTree.setObject_eq]
  obtain ⟨-, above, hdeclares, -⟩ := h.tasks ⟨frame, work⟩ (List.mem_cons_self ..)
  replace hdeclares : plan.DeclaresAt types frame above := hdeclares
  have hle : ∀ path found, types path = some found →
      Function.update types frame.path (some object) path = some found := by
    intro path found hfound
    have hne : path ≠ frame.path := by
      rintro rfl
      cases h.unknown.symm.trans hfound
    rw [Function.update_of_ne hne, hfound]
  have hobject : Function.update types frame.path (some object) frame.path = some object :=
    Function.update_self ..
  have htyped : plan.Typed r (Function.update types frame.path (some object)) := by
    intro path found hfound
    by_cases hpath : path = frame.path
    · subst hpath
      cases hobject.symm.trans hfound
      refine ⟨frame.field, name, nullable, above, json, ?_, hconcrete⟩
      rw [← htype]
      exact hdeclares.mono hle
    · rw [Function.update_of_ne hpath] at hfound
      obtain ⟨node, name', nullable', flags, value, hdeclared, hc⟩ := h.typed path found hfound
      exact ⟨node, name', nullable', flags, value, hdeclared.mono hle, hc⟩
  refine h.grow ((Execution.keysOf nodes).map Prod.snd) (fieldSegments nodes) _ _ hle htyped
    (fun path found hfound => ?_) ?_ (by simp) (by simp) (by simp) ?_
    (nodup_fieldSegments (hdeclares.distinct hd _ _ hnodes)) leads_fields ?_
    (fun above hdeclares => new_fields fun node hnode => ?_)
  · by_cases hpath : path = frame.path
    · exact .inr hpath
    · rw [Function.update_of_ne hpath] at hfound
      exact .inl hfound
  · simp [ResponseTree.Content.children, List.map_snd_zip]
  · simp [fieldSegments]
  · rw [Task.map_slot_ofNodes _ _ _ _ _ (by simp [hslots]), hslots]
    simp
  · unfold Plan.DeclaresAt at hdeclares
    rw [htype] at hdeclares
    exact .field hdeclares hobject hnodes hnode

theorem Kept.growList {frame : Frame} {work : Work L} {item : TypeRef} {nullable : Bool}
    {items : List (FieldValue L)} {p : Progress L} {w : W} {rest : List (Task L)}
    (h : (⟨p, w, ⟨frame, work⟩ :: rest⟩ : Machine L W).Kept plan r place types)
    (htype : frame.type = .list item nullable) :
    (⟨(p.growList frame.slot items.length (item.nullable || nullable)).2, w,
      Task.ofItems frame item 0
        ((p.growList frame.slot items.length (item.nullable || nullable)).1.zip items) ++ rest⟩ :
          Machine L W).Kept plan r
      (ResponseTree.Places.extended p.tree place frame.slot
        ((List.range items.length).map .index)) types := by
  have hslots : (p.growList frame.slot items.length (item.nullable || nullable)).1 =
      p.tree.nextIds items.length := rfl
  refine h.grow (List.replicate items.length (item.nullable || nullable))
    ((List.range items.length).map .index) _ _ (fun _ _ h => h) h.typed (fun _ _ => .inl)
    ?_ (by simp) (by simp) (by simp) ?_ ?_ ?_ ?_ ?_
  · simp [ResponseTree.Content.children]
  · simp
  · exact List.pairwise_map.2 (List.nodup_range.imp fun hne he => hne (Segment.index.inj he))
  · intro segment child hl
    cases segment with
    | field key => exact hl.elim
    | index i =>
      obtain ⟨he, hlt⟩ := ResponseTree.getElem?_nextIds hl
      exact ⟨i, by simp [hlt], he⟩
  · rw [Task.map_slot_ofItems, hslots, List.map_fst_zip (by simp)]
    simp
  · intro above hdeclares k task hk
    obtain ⟨slot, value, hitem, rfl⟩ := Task.getElem?_ofItems hk
    obtain ⟨-, hvalue⟩ := List.getElem?_zip_eq_some.1 hitem
    have hlt := (List.getElem?_eq_some_iff.1 hvalue).1
    refine ⟨.index k, item.nullable || nullable, by simp [hlt], by simp [hlt], ?_, ?_⟩
    · rw [Nat.zero_add]
    · unfold Plan.DeclaresAt at hdeclares
      rw [htype] at hdeclares
      exact .element _ hdeclares

theorem Kept.setLeaf {frame : Frame} {work : Work L} {json : Json} {p : Progress L} {w : W}
    {rest : List (Task L)}
    (h : (⟨p, w, ⟨frame, work⟩ :: rest⟩ : Machine L W).Kept plan r place types)
    (hjson : json ≠ .null) :
    (⟨{ p with tree := p.tree.setLeaf frame.slot json }, w, rest⟩ : Machine L W).Kept plan r
      (ResponseTree.Places.extended p.tree place frame.slot []) types := by
  refine h.grow [] [] (.leaf json) [] (fun _ _ h => h) h.typed (fun _ _ => .inl) rfl (by simp)
    (by simp) ?_ rfl .nil ?_ rfl ?_
  · rintro _ ⟨⟩
    exact hjson
  · intro segment child hl
    cases segment <;> exact hl.elim
  · intro above _ k task hk
    simp at hk

theorem Kept.step {e : Execution ρ L W} (hd : Plan.Distinct plan.fields)
    (h : m.Kept plan e.registry place types) (hs : Step e m m') :
    ∃ place' types', m'.Kept plan e.registry place' types' := by
  have hsound := hs.moves.sound h.sound
  cases hs with
  | skip _ =>
    exact ⟨place, types, h.of_tasks hsound rfl rfl (List.subset_cons_self _ _)⟩
  | @resolved frame object parent value p p' w w' rest hl hr =>
    obtain ⟨o, entries, w2, h2⟩ := fieldOutcome_run e frame object parent p w
    rw [hr] at h2
    cases h2
    exact ⟨place, types, h.of_tasks hsound rfl rfl (List.Subset.refl _)⟩
  | @unresolved frame object parent error p p' w w' rest hl hr =>
    obtain ⟨o, entries, w2, h2⟩ := fieldOutcome_run e frame object parent p w
    rw [hr] at h2
    cases h2
    exact ⟨place, types, h.note (.failure frame error) hl rfl rfl rfl (by simp)⟩
  | forced hl _ => exact ⟨place, types, h.of_tasks hsound rfl rfl (List.Subset.refl _)⟩
  | @unforced frame _ error _ _ _ _ hl _ =>
    exact ⟨place, types, h.note (.failure frame error) hl rfl rfl rfl (by simp)⟩
  | @aside frame value lazy p w rest hl _ =>
    refine ⟨place, types, h.of_tasks hsound rfl rfl fun f hf => ?_⟩
    simp only [Machine.tasks, Progress.putAside, List.map_append, List.mem_append, List.map_cons,
      List.map_nil, List.mem_cons] at hf ⊢
    rcases hf with hf | hf | hf | hf
    · exact .inl (.inr hf)
    · exact .inr hf
    · exact .inl (.inl hf)
    · cases hf
  | @null frame _ _ _ _ hl hc =>
    refine ⟨place, types, h.note (.null frame) hl rfl rfl rfl fun frame he => ?_⟩
    cases he
    exact (hc ▸ e.fits_completion frame _).2
  | @rejected frame _ error _ _ _ hl _ =>
    exact ⟨place, types,
      h.note (.failure frame (.ofMessage error.message)) hl rfl rfl rfl (by simp)⟩
  | @leaf frame value json p w rest hl hc =>
    have hfits : (Completion.leaf json).Fits frame value := hc ▸ e.fits_completion frame value
    exact ⟨_, _, h.setLeaf hfits⟩
  | @object frame value object nodes json p _ _ hl hc =>
    have hfits := hc ▸ e.fits_completion frame value
    obtain ⟨name, nullable, htype, hconcrete⟩ := Execution.concreteType_of_completion hc
    exact ⟨_, _, h.growObject hd htype hconcrete hfits.1⟩
  | @list frame value item nullable items p _ _ hl hc =>
    have hfits := hc ▸ e.fits_completion frame value
    exact ⟨_, _, h.growList hfits.1⟩
  | wave =>
    refine ⟨place, types, h.of_tasks hsound rfl rfl fun f hf => ?_⟩
    simp only [Machine.tasks, List.map_append, List.mem_append, List.map_nil, List.not_mem_nil,
      or_false] at hf ⊢
    exact hf.symm

theorem kept_start {plan : Plan} (h : Plan.Distinct plan.fields) (r : Registry ρ) (w : W) :
    (Machine.start plan w : Machine L W).Kept plan r
      (ResponseTree.Places.extended ResponseTree.fresh (fun _ => []) ResponseTree.root
        (fieldSegments plan.fields)) fun _ => none := by
  have hsound := Machine.sound_start (L := L) plan w
  have hroot : ResponseTree.fresh.get? ResponseTree.root = some ⟨none, true, .pending⟩ := rfl
  have hsize : ((Execution.keysOf plan.fields).map Prod.snd).length = plan.fields.length := by simp
  constructor
  · exact hsound
  · exact ResponseTree.Places.fresh.grow ResponseTree.wellFormed_fresh hroot rfl
      (by simp [fieldSegments]) (nodup_fieldSegments h) leads_fields
  · intro path object hobject
    cases hobject
  · intro path object hobject
    cases hobject
  · intro task hm
    replace hm : task ∈ Task.ofNodes plan.root (.object []) [] plan.fields _ ++ [] := hm
    rw [List.append_nil] at hm
    refine proper_new hroot (by simp) .root ?_ (new_fields fun node hnode => ?_) task hm
    · rw [Task.map_slot_ofNodes _ _ _ _ _ (by simp), hsize]
      simp [Progress.fresh]
    · exact Plan.Declares.root hnode
  · rintro _ ⟨⟩
  · exact .nil
  · intro id slot hs hc
    obtain ⟨-, rfl⟩ | ⟨-, hs⟩ | ⟨k, nullable, -, -, rfl⟩ := ResponseTree.get?_grow_cases hroot hs
    · cases hc
    · obtain ⟨-, rfl⟩ := ResponseTree.get?_fresh hs
      cases hc
    · cases hc
  · intro id slot json hs hc
    obtain ⟨-, rfl⟩ | ⟨-, hs⟩ | ⟨k, nullable, -, -, rfl⟩ := ResponseTree.get?_grow_cases hroot hs
    · cases hc
    · obtain ⟨-, rfl⟩ := ResponseTree.get?_fresh hs
      cases hc
    · cases hc

end Machine

theorem Reached.kept {e : Execution ρ L W} {plan : Plan} {m : Machine L W} (h : Reached e plan m)
    (hd : Plan.Distinct plan.fields) : ∃ place types, m.Kept plan e.registry place types := by
  induction h with
  | start w => exact ⟨_, _, Machine.kept_start hd e.registry w⟩
  | step _ hs ih =>
    obtain ⟨place, types, hk⟩ := ih
    exact hk.step hd hs
  | turn w' _ ih =>
    obtain ⟨place, types, hk⟩ := ih
    exact ⟨place, types, hk.of_tasks (hk.sound.of_perm rfl (.refl _)) rfl rfl (List.Subset.refl _)⟩

/-! ## What is left at the end -/

section

variable {plan : Plan} {r : Registry ρ} {p : Progress L} {w : W} {place : Nat → Path}
  {types : Path → Option Name}

theorem mem_notes_of_failure {f : Failure} (h : f ∈ p.failures) :
    .failure f.frame f.error ∈ p.notes := by
  obtain ⟨note, hm, hf⟩ := List.mem_filterMap.1 h
  cases note with
  | null frame => cases hf
  | failure frame error =>
    cases hf
    exact hm

/-- A slot of the data that is null was nulled by a note. -/
theorem content_null (h : (⟨p, w, []⟩ : Machine L W).Kept plan r place types)
    (hp : p.pending = []) {path : Path} {id : Nat} (ha : p.tree.at? path = some id)
    (hn : p.tree.toJson.at? path = some .null) :
    ∃ slot, p.tree.get? id = some slot ∧ slot.content = .null := by
  have wf : p.tree.WellFormed := h.sound.tree
  obtain ⟨slot, hs⟩ := ResponseTree.get?_of_at? wf ha
  refine ⟨slot, hs, ?_⟩
  rw [ResponseTree.toJson_eq, ResponseTree.jsonOf_down? wf ha, ResponseTree.jsonOf_eq wf hs] at hn
  cases hc : slot.content with
  | null => rfl
  | pending =>
    have hl := ResponseTree.isLive_of_at? wf path ha hs (by rw [hc]; exact nofun)
    have := h.sound.covered hs hc hl
    simp [Machine.tasks, hp] at this
  | leaf json =>
    rw [hc] at hn
    exact absurd (Option.some.inj hn) (h.leaves hs hc)
  | list items =>
    rw [hc] at hn
    cases hn
  | object fields =>
    rw [hc] at hn
    cases hn

namespace Machine.Kept

end Machine.Kept

end

/-! ## Several queries -/

namespace Multiplex

end Multiplex

/-! A host whose lazies fail, and whose lists have a null among them. -/

namespace Losses

def host : Host Unit Unit Unit where
  resolve _ ctx entries w := (match ctx.name with
    | "names" => .ok (.list [.leaf .null, .later (), .leaf (.string "kept")])
    | "self" => .ok (.leaf (.object []))
    | _ => .ok (.later ()), entries, w)
  force _ w := (.error (.ofMessage "lost"), w)
  turn := id
  drain := id

def schema : Schema Unit Unit Unit where
  registry := ⟨[("String", .scalar (some .string)), ("Query", .object []
    [("names", ⟨none, [], .list (.named "String" false) true, none⟩),
      ("self", ⟨none, [], .named "Query" true, none⟩),
      ("needed", ⟨none, [], .named "String" false, none⟩)])], "Query", none, none⟩
  host := host
  config := .default
  data := []

def multiplex : Multiplex :=
  .ofRequests [.ofQuery "\x7b names self \x7b needed names \x7d \x7d"]

/-- How many errors a request has come to. -/
def count {L : Type} : QueryRun L → Nat
  | .running _ _ p => p.failures.length
  | _ => 0

end Losses

end GraphQL
