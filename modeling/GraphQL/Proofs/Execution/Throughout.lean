import GraphQL.Proofs.Execution.Reached

/-!
# What holds of every place

A property of places that goes from a value to the fields of an object and to the elements of a list
holds of all that is to be done and of all that was noted, at every moment of a run, when it holds of
the root fields (`Reached.throughout`). None of these places is the root itself.
-/

namespace GraphQL

variable {ρ L W : Type}

/-- A property of places that is handed down. -/
structure Frame.Inherited (P : Frame → Prop) : Prop where
  field : ∀ {frame : Frame} {object : Name} {nodes : List Plan.Node} {node : Plan.Node}
    {slot : SlotId}, P frame → frame.field.childrenFor? object = some nodes → node ∈ nodes →
    slot ≠ ResponseTree.root → P ⟨node, node.type, frame.path.child (.field node.key), slot⟩
  element : ∀ {frame : Frame} {item : TypeRef} {nullable : Bool} {i : Nat} {slot : SlotId},
    P frame → frame.type = .list item nullable → slot ≠ ResponseTree.root →
    P ⟨frame.field, item, frame.path.child (.index i), slot⟩

/-- Slots that are added to a response are not its root. -/
theorem ResponseTree.WellFormed.ne_root_of_mem_nextIds {t : ResponseTree} (wf : t.WellFormed)
    {n id : Nat} (h : id ∈ t.nextIds n) : id ≠ ResponseTree.root := by
  obtain ⟨content, hroot⟩ := wf.root
  have hlt : ResponseTree.root < t.slots.size := ResponseTree.lt_size hroot
  obtain ⟨k, -, rfl⟩ := ResponseTree.mem_nextIds.1 h
  exact Nat.ne_of_gt (Nat.lt_of_lt_of_le hlt (Nat.le_add_right _ k))

section

variable {P : Frame → Prop} {t : ResponseTree} (wf : t.WellFormed)

include wf

theorem Task.forall_ofNodes {object : Name} {value : Json} {path : Path} {nodes : List Plan.Node}
    {slots : List SlotId} {n : Nat} (hslots : slots = t.nextIds n)
    (h : ∀ node ∈ nodes, ∀ slot ≠ ResponseTree.root,
      P ⟨node, node.type, path.child (.field node.key), slot⟩) :
    ∀ task ∈ Task.ofNodes (L := L) object value path nodes slots, P task.frame := by
  intro task hm
  obtain ⟨k, hk⟩ := List.mem_iff_getElem?.1 hm
  obtain ⟨node, slot, hnode, hslot, rfl⟩ := getElem?_ofNodes hk
  apply h node (List.mem_of_getElem? hnode)
  exact wf.ne_root_of_mem_nextIds (hslots ▸ List.mem_of_getElem? hslot)

theorem Task.forall_ofItems {list : Frame} {item : TypeRef} {slots : List SlotId} {n : Nat}
    {items : List (FieldValue L)} (hslots : slots = t.nextIds n)
    (h : ∀ i, ∀ slot ≠ ResponseTree.root, P ⟨list.field, item, list.path.child (.index i), slot⟩) :
    ∀ task ∈ Task.ofItems list item 0 (slots.zip items), P task.frame := by
  intro task hm
  obtain ⟨k, hk⟩ := List.mem_iff_getElem?.1 hm
  obtain ⟨slot, value, hitem, rfl⟩ := getElem?_ofItems hk
  obtain ⟨hslot, -⟩ := List.getElem?_zip_eq_some.1 hitem
  apply h
  exact wf.ne_root_of_mem_nextIds (hslots ▸ List.mem_of_getElem? hslot)

end

/-- All that is to be done and all that was noted is at places with a property. -/
structure Machine.Throughout (P : Frame → Prop) (m : Machine L W) : Prop where
  todo : ∀ task ∈ m.todo, P task.frame
  pending : ∀ p ∈ m.progress.pending, P p.frame
  notes : ∀ note ∈ m.progress.notes, P note.frame

theorem Machine.Throughout.step {e : Execution ρ L W} {P : Frame → Prop} {m m' : Machine L W}
    (h : m.Throughout P) (hP : Frame.Inherited P) (hsound : m.Sound) (hs : Step e m m') :
    m'.Throughout P := by
  obtain ⟨htodo, hpending, hnotes⟩ := h
  cases hs with
  | skip _ => exact ⟨(List.forall_mem_cons.1 htodo).2, hpending, hnotes⟩
  | @resolved frame object parent value p p' w w' rest _ hr =>
    obtain ⟨htop, hrest⟩ := List.forall_mem_cons.1 htodo
    obtain ⟨outcome, entries, w1, hrun⟩ := fieldOutcome_run e frame object parent p w
    cases hr.symm.trans hrun
    exact ⟨List.forall_mem_cons.2 ⟨htop, hrest⟩, hpending, hnotes⟩
  | @unresolved frame object parent error p p' w w' rest _ hr =>
    obtain ⟨htop, hrest⟩ := List.forall_mem_cons.1 htodo
    obtain ⟨outcome, entries, w1, hrun⟩ := fieldOutcome_run e frame object parent p w
    cases hr.symm.trans hrun
    exact ⟨hrest, hpending, List.forall_mem_append.2 ⟨hnotes, List.forall_mem_singleton.2 htop⟩⟩
  | forced _ _ =>
    obtain ⟨htop, hrest⟩ := List.forall_mem_cons.1 htodo
    exact ⟨List.forall_mem_cons.2 ⟨htop, hrest⟩, hpending, hnotes⟩
  | unforced _ _ | null _ _ | rejected _ _ =>
    obtain ⟨htop, hrest⟩ := List.forall_mem_cons.1 htodo
    exact ⟨hrest, hpending, List.forall_mem_append.2 ⟨hnotes, List.forall_mem_singleton.2 htop⟩⟩
  | aside _ _ =>
    obtain ⟨htop, hrest⟩ := List.forall_mem_cons.1 htodo
    exact ⟨hrest, List.forall_mem_append.2 ⟨hpending, List.forall_mem_singleton.2 htop⟩, hnotes⟩
  | leaf _ _ => exact ⟨(List.forall_mem_cons.1 htodo).2, hpending, hnotes⟩
  | @object frame value object nodes json p w rest _ hc =>
    obtain ⟨htop, hrest⟩ := List.forall_mem_cons.1 htodo
    have hfits := e.fits_completion frame value
    rw [hc] at hfits
    have hslots : (p.growObject frame.slot nodes).1 = p.tree.nextIds nodes.length := by
      simp [Progress.growObject, ResponseTree.setObject_eq]
    refine ⟨List.forall_mem_append.2 ⟨?_, hrest⟩, hpending, hnotes⟩
    apply Task.forall_ofNodes (P := P) hsound.tree hslots
    intro node hnode slot hslot
    exact hP.field htop hfits.1 hnode hslot
  | @list frame value item nullable items p w rest _ hc =>
    obtain ⟨htop, hrest⟩ := List.forall_mem_cons.1 htodo
    have hfits := e.fits_completion frame value
    rw [hc] at hfits
    have hslots : (p.growList frame.slot items.length (item.nullable || nullable)).1 =
        p.tree.nextIds items.length := rfl
    refine ⟨List.forall_mem_append.2 ⟨?_, hrest⟩, hpending, hnotes⟩
    apply Task.forall_ofItems (P := P) hsound.tree hslots
    intro i slot hslot
    exact hP.element htop hfits.1 hslot
  | wave =>
    refine ⟨List.forall_mem_append.2 ⟨List.forall_mem_map.2 hpending, htodo⟩, ?_, hnotes⟩
    exact List.forall_mem_nil _

theorem Machine.throughout_start {P : Frame → Prop} {plan : Plan}
    (h : ∀ node ∈ plan.fields, ∀ slot ≠ ResponseTree.root,
      P ⟨node, node.type, [.field node.key], slot⟩) (w : W) :
    (Machine.start plan w : Machine L W).Throughout P := by
  have hslots : (Progress.fresh (L := L).growObject ResponseTree.root plan.fields).1 =
      ResponseTree.fresh.nextIds plan.fields.length := by
    simp [Progress.growObject, Progress.fresh, ResponseTree.setObject_eq]
  refine ⟨Task.forall_ofNodes ResponseTree.wellFormed_fresh hslots h, ?_, ?_⟩
  · exact List.forall_mem_nil _
  · exact List.forall_mem_nil _

theorem Reached.throughout {e : Execution ρ L W} {P : Frame → Prop} {plan : Plan} {m : Machine L W}
    (h : Reached e plan m) (hP : Frame.Inherited P)
    (hroot : ∀ node ∈ plan.fields, ∀ slot ≠ ResponseTree.root,
      P ⟨node, node.type, [.field node.key], slot⟩) : m.Throughout P := by
  induction h with
  | start w => exact Machine.throughout_start hroot w
  | step hr hs ih => exact ih.step hP hr.sound hs
  | turn w' _ ih => exact ⟨ih.todo, ih.pending, ih.notes⟩

/-- What is to be done and what was noted concerns values below the root. -/
theorem Reached.belowRoot {e : Execution ρ L W} {plan : Plan} {m : Machine L W}
    (h : Reached e plan m) : m.Throughout fun frame => frame.slot ≠ ResponseTree.root :=
  h.throughout ⟨fun _ _ _ hslot => hslot, fun _ _ hslot => hslot⟩ fun _ _ _ hslot => hslot

end GraphQL
