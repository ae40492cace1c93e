import GraphQL.Proofs.Execution.Valuation

/-!
# Steps and direct evaluation

When the host answers as a function of what it is given, every step of a machine keeps a valuation
of its response in which each task comes to what direct evaluation makes of it (`Step.faithful`).
What the tasks still have to force bounds the number of waves (`Machine.potential`).
-/

namespace GraphQL

variable {ρ L W : Type}

/-- Somewhere in a value a lazy is deferred. -/
inductive Tree.Defers {α : Type} (l : L) : Tree α L → Prop where
  | later : Tree.Defers l (.later l)
  | list {items : List (Tree α L)} {item : Tree α L} : item ∈ items → Tree.Defers l item →
      Tree.Defers l (.list items)

/-- What is expected of the worlds of a host: that they are in order, and that they can answer some
lazies. -/
structure Ledger (L W : Type) where
  good : W → Prop
  owes : W → L → Prop

/-- The next world is in order and can still answer what the one before could. -/
structure Ledger.Grows (g : Ledger L W) (w w' : W) : Prop where
  good : g.good w'
  owes : ∀ l, g.owes w l → g.owes w' l

theorem Ledger.Grows.refl {g : Ledger L W} {w : W} (h : g.good w) : g.Grows w w :=
  ⟨h, fun _ => id⟩

theorem Ledger.Grows.trans {g : Ledger L W} {w w' w'' : W} (h : g.Grows w w') (h' : g.Grows w' w'') :
    g.Grows w w'' :=
  ⟨h'.good, fun l hl => h'.owes l (h.owes l hl)⟩

/-- An outcome is as it should be: the expected one, no failure that stops everything, and the
world can answer what it defers. -/
structure Ledger.Delivers (g : Ledger L W) (expected outcome : Outcome L) (w w' : W) : Prop where
  grows : g.Grows w w'
  expected : outcome = expected
  safe : ∀ message, outcome ≠ .error (.internal message)
  owes : ∀ value l, outcome = .ok value → value.Defers l → g.owes w' l

/-- The host answers as a function of what it is given, and no failure stops everything. -/
structure Host.Determined (h : Host ρ L W) (registry : Registry ρ) (a : Answers ρ L)
    (g : Ledger L W) : Prop where
  resolve : ∀ {object field : Name} {spec : FieldSpec ρ} {w : W},
    registry.field? object field = some spec → g.good w → ∀ ctx entries,
    g.Delivers (a.field spec.resolver ctx) (h.resolve spec.resolver ctx entries w).1 w
      (h.resolve spec.resolver ctx entries w).2.2
  force : ∀ {l : L} {w : W}, g.good w → g.owes w l →
    g.Delivers (a.lazy l) (h.force l w).1 w (h.force l w).2
  turn : ∀ {w : W}, g.good w → g.Grows w (h.turn w)
  drain : ∀ {w : W}, g.good w → g.Grows w (h.drain w)

namespace Execution

variable {e : Execution ρ L W} {a : Answers ρ L} {g : Ledger L W}

theorem delivers_of_done {w : W} {outcome : Outcome L} (hg : g.good w)
    (hsafe : ∀ message, outcome ≠ .error (.internal message))
    (hdone : ∀ value l, outcome = .ok value → ¬ value.Defers l) : g.Delivers outcome outcome w w :=
  ⟨.refl hg, rfl, hsafe, fun value l h hl => absurd hl (hdone value l h)⟩

theorem fieldOutcome_delivers (hd : e.host.Determined e.registry a g) {frame : Frame}
    {object : Name} {parent : Json} {p p' : Progress L} {w w' : W} {outcome : Outcome L}
    (hg : g.good w) (hr : (e.fieldOutcome frame object parent).run (p, w) = (.ok outcome, p', w')) :
    g.Delivers (e.answer a frame.field frame.path object parent) outcome w w' := by
  unfold fieldOutcome at hr
  unfold answer
  simp only at hr
  split at hr
  · next ht =>
    cases hr
    rw [if_pos ht]
    refine delivers_of_done hg (by simp) ?_
    rintro value l ⟨⟩ ⟨⟩
  · next ht =>
    rw [if_neg ht]
    cases hf : e.registry.field? object frame.field.name with
    | none =>
      rw [hf] at hr
      cases hr
      exact delivers_of_done hg (by rintro message ⟨⟩) (by simp)
    | some spec =>
      rw [hf] at hr
      simp only at hr ⊢
      cases hc : e.registry.coerceArguments e.variableValues frame.field.name spec.arguments
          frame.field.first with
      | error error =>
        rw [hc] at hr
        cases hr
        exact delivers_of_done hg (by simp) (by simp)
      | ok arguments =>
        rw [hc] at hr
        have hr' : (e.resolve spec ⟨object, frame.field.name, parent, arguments, frame.path,
          frame.field.first, e.variableValues, e.data⟩).run (p, w) = (.ok outcome, p', w') := hr
        cases hr'
        exact hd.resolve hf hg _ _

/-! ## Verdicts along steps -/

theorem evaluateAt_later (frame : Frame) (l : L) : e.evaluateAt a frame (.later l) =
    match a.lazy l with
    | .ok value => (e.evaluateAt a frame value).after 1
    | .error _ => Verdict.null.after 1 := by
  unfold evaluateAt
  cases frame.type <;> exact a.forcing_later l _

theorem evaluateNodes_eq (object : Name) (parent : Json) (path : Path) (nodes : List Plan.Node) :
    e.evaluateNodes a object parent path nodes = nodes.map fun node =>
      (node.key, node.type.nullable,
        e.evaluateNode a object parent node (path.child (.field node.key))) := by
  induction nodes with
  | nil => rfl
  | cons node rest ih => rw [evaluateNodes, List.map_cons, ih]

end Execution

theorem Execution.defers_of_elements {value item : FieldValue L} {items : List (FieldValue L)}
    (h : elements value = .ok items) (hm : item ∈ items) {l : L} (hl : item.Defers l) :
    value.Defers l := by
  cases value with
  | list found =>
    cases h
    exact .list hm hl
  | later l' => cases h
  | leaf json =>
    cases json with
    | array found =>
      cases h
      obtain ⟨j, -, rfl⟩ := List.mem_map.1 hm
      cases hl
    | _ => cases h

/-- A completion that does not put the value aside decides the verdict. -/
theorem Task.verdict_complete {e : Execution ρ L W} {a : Answers ρ L} {frame : Frame}
    {value : FieldValue L} {c : Completion L} (hc : e.completion frame value = c)
    (h : ∀ l, c ≠ .aside l) :
    Task.verdict e a ⟨frame, .complete value⟩ = e.completionVerdict a frame c := by
  subst hc
  refine Execution.evaluateAt_eq ?_
  rintro l rfl
  exact h l rfl

/-- The lazies that a task has still to force, once it is its turn. -/
def Task.load (e : Execution ρ L W) (a : Answers ρ L) (task : Task L) : Nat :=
  match task.work with
  | .force _ => (task.verdict e a).lazies - 1
  | _ => (task.verdict e a).lazies

def Work.Defers (l : L) : Work L → Prop
  | .resolve _ _ => False
  | .complete value => value.Defers l
  | .force l' => l' = l

namespace Machine

/-- What is left to force; it shrinks with every wave. -/
def potential (e : Execution ρ L W) (a : Answers ρ L) (m : Machine L W) : Nat :=
  (m.todo.map (Task.load e a)).sum +
    (m.progress.pending.map fun p => ((Task.ofPending p).verdict e a).lazies).sum

/-- Every task comes to what direct evaluation makes of it, in a valuation of the response. -/
structure Faithful (e : Execution ρ L W) (a : Answers ρ L) (g : Ledger L W) (v : Nat → Option Json)
    (m : Machine L W) : Prop where
  sound : m.Sound
  good : g.good m.world
  owed : ∀ task ∈ m.tasks, ∀ l, task.work.Defers l → g.owes m.world l
  valued : ResponseTree.Valued m.progress.tree v
  tasks : ∀ task ∈ m.tasks, v task.slot = (task.verdict e a).data

variable {e : Execution ρ L W} {a : Answers ρ L} {g : Ledger L W} {v : Nat → Option Json}
  {m m' : Machine L W}

theorem Faithful.not_breaks (h : m.Faithful e a g v) (hd : e.host.Determined e.registry a g)
    (message : String) : ¬ Breaks e m message := by
  intro hb
  cases hb with
  | resolve _ hr => exact (Execution.fieldOutcome_delivers hd h.good hr).safe message rfl
  | @force frame l _ p w w' rest _ hf =>
    have ho : g.owes w l := h.owed _ (List.mem_cons_self ..) l rfl
    have := (hd.force h.good ho).safe message
    rw [hf] at this
    exact this rfl

/-- What is known of a task remains so while the world goes on. -/
theorem Faithful.task (h : m.Faithful e a g v) {w' : W} (hg : g.Grows m.world w') {task : Task L}
    (hm : task ∈ m.tasks) :
    v task.slot = (task.verdict e a).data ∧ ∀ l, task.work.Defers l → g.owes w' l :=
  ⟨h.tasks task hm, fun l hl => hg.owes l (h.owed task hm l hl)⟩

theorem Faithful.of_tree (h : m.Faithful e a g v) (hs : m'.Sound)
    (ht : m'.progress.tree = m.progress.tree) (hg : g.good m'.world)
    (htasks : ∀ task ∈ m'.tasks, v task.slot = (task.verdict e a).data ∧
      ∀ l, task.work.Defers l → g.owes m'.world l) : m'.Faithful e a g v where
  sound := hs
  good := hg
  owed task hm := (htasks task hm).2
  valued := ht ▸ h.valued
  tasks task hm := (htasks task hm).1

/-- The task on top goes on as another one with the same verdict. -/
theorem Faithful.replace {task task' : Task L} {p p' : Progress L} {w w' : W} {rest : List (Task L)}
    (h : (⟨p, w, task :: rest⟩ : Machine L W).Faithful e a g v)
    (hs : (⟨p', w', task' :: rest⟩ : Machine L W).Sound) (ht : p'.tree = p.tree)
    (hp : p'.pending = p.pending) (hg : g.Grows w w') (hslot : task'.slot = task.slot)
    (hverdict : (task'.verdict e a).data = (task.verdict e a).data)
    (howed : ∀ l, task'.work.Defers l → g.owes w' l) :
    (⟨p', w', task' :: rest⟩ : Machine L W).Faithful e a g v := by
  refine h.of_tree hs ht hg.good fun t hm => ?_
  replace hm : t ∈ task' :: (rest ++ p'.pending.map Task.ofPending) := hm
  rcases List.mem_cons.1 hm with rfl | hm
  · exact ⟨by rw [hslot, hverdict]; exact h.tasks task (List.mem_cons_self ..), howed⟩
  · exact h.task hg (List.mem_cons_of_mem _ (hp ▸ hm))

/-- The task on top comes to nothing, and its slot becomes null. -/
theorem Faithful.note (note : Note) {work : Work L} {p p' : Progress L} {w w' : W}
    {rest : List (Task L)} (h : (⟨p, w, ⟨note.frame, work⟩ :: rest⟩ : Machine L W).Faithful e a g v)
    (hl : p.tree.isLive note.frame.slot = true) (ht : p'.tree = p.tree)
    (hp : p'.pending = p.pending) (hg : g.Grows w w')
    (hverdict : (Task.verdict e a ⟨note.frame, work⟩).data = none) :
    (⟨p'.record note, w', rest⟩ : Machine L W).Faithful e a g v := by
  obtain ⟨slot, hslot, -⟩ := h.sound.pending ⟨note.frame, work⟩ (List.mem_cons_self ..)
  have hv := (h.tasks ⟨note.frame, work⟩ (List.mem_cons_self ..)).trans hverdict
  have hrest : ∀ task ∈ (⟨p'.record note, w', rest⟩ : Machine L W).tasks,
      v task.slot = (task.verdict e a).data ∧ ∀ l, task.work.Defers l → g.owes w' l := by
    intro task hm
    rw [Machine.tasks, Progress.record, hp] at hm
    exact h.task hg (List.mem_cons_of_mem _ hm)
  constructor
  · exact h.sound.note ht hp
  · exact hg.good
  · exact fun task hm => (hrest task hm).2
  · show ResponseTree.Valued (p'.tree.setNull note.frame.slot) v
    rw [ht]
    exact h.valued.setNull h.sound.tree hslot hl hv
  · exact fun task hm => (hrest task hm).1

/-- A valuation with the values of new slots, by the tasks there are for them. -/
def revalued (e : Execution ρ L W) (a : Answers ρ L) (t : ResponseTree) (v : Nat → Option Json)
    (new : List (Task L)) : Nat → Option Json := fun j =>
  if j < t.slots.size then v j
  else (new[j - t.slots.size]?).bind fun task => (task.verdict e a).data

theorem revalued_old {t : ResponseTree} {new : List (Task L)} {j : Nat} {s : ResponseTree.Slot}
    (hs : t.get? j = some s) : revalued e a t v new j = v j :=
  if_pos (ResponseTree.lt_size hs)

theorem revalued_new {t : ResponseTree} {new : List (Task L)} {k : Nat} {task : Task L}
    (hk : new[k]? = some task) :
    revalued e a t v new (t.slots.size + k) = (task.verdict e a).data := by
  rw [revalued, if_neg (by omega), Nat.add_sub_cancel_left, hk]
  rfl

theorem revalued_root {t : ResponseTree} (wf : t.WellFormed) (new : List (Task L)) :
    revalued e a t v new ResponseTree.root = v ResponseTree.root := by
  obtain ⟨content, hr⟩ := wf.root
  exact revalued_old hr

/-- The slot of the task on top gets content, with new tasks below. -/
theorem Faithful.grow (flags : List Bool) (content : ResponseTree.Content) (new : List (Task L))
    {frame : Frame} {work : Work L} {p : Progress L} {w : W} {rest : List (Task L)}
    (h : (⟨p, w, ⟨frame, work⟩ :: rest⟩ : Machine L W).Faithful e a g v)
    (hc : content.children = p.tree.nextIds flags.length) (hnull : content ≠ .null)
    (hpend : content ≠ .pending) (hslots : new.map Task.slot = p.tree.nextIds flags.length)
    (howed : ∀ task ∈ new, ∀ l, task.work.Defers l → g.owes w l)
    (hleaf : ∀ json, content = .leaf json →
      (Task.verdict e a ⟨frame, work⟩).data = some json)
    (hlist : ∀ items, content = .list items → (Task.verdict e a ⟨frame, work⟩).data =
      Verdict.arrayOf (items.map fun child => ((p.tree.grow frame.slot flags content).mayBeNull child,
        revalued e a p.tree v new child)))
    (hobject : ∀ fields, content = .object fields → (Task.verdict e a ⟨frame, work⟩).data =
      Verdict.objectOf (fields.map fun f => (f.1,
        (p.tree.grow frame.slot flags content).mayBeNull f.2, revalued e a p.tree v new f.2))) :
    (⟨{ p with tree := p.tree.grow frame.slot flags content }, w, new ++ rest⟩ :
      Machine L W).Faithful e a g (revalued e a p.tree v new) := by
  obtain ⟨slot, hslot, -⟩ := h.sound.pending ⟨frame, work⟩ (List.mem_cons_self ..)
  replace hslot : p.tree.get? frame.slot = some slot := hslot
  have hv : revalued e a p.tree v new frame.slot = (Task.verdict e a ⟨frame, work⟩).data :=
    (revalued_old hslot).trans (h.tasks ⟨frame, work⟩ (List.mem_cons_self ..))
  have htasks : (⟨{ p with tree := p.tree.grow frame.slot flags content }, w, new ++ rest⟩ :
      Machine L W).tasks = new ++ (rest ++ p.pending.map Task.ofPending) := by
    simp [Machine.tasks]
  have hall : ∀ task ∈ new ++ (rest ++ p.pending.map Task.ofPending),
      revalued e a p.tree v new task.slot = (task.verdict e a).data ∧
        ∀ l, task.work.Defers l → g.owes w l := by
    intro task hm
    rcases List.mem_append.1 hm with hm | hm
    · obtain ⟨k, hk⟩ := List.mem_iff_getElem?.1 hm
      have hid : (new.map Task.slot)[k]? = some task.slot := by rw [List.getElem?_map, hk]; rfl
      rw [hslots] at hid
      rw [(ResponseTree.getElem?_nextIds hid).1]
      exact ⟨revalued_new hk, howed task hm⟩
    · obtain ⟨s, hs, -⟩ := h.sound.pending task (List.mem_cons_of_mem _ hm)
      rw [revalued_old hs]
      exact h.task (.refl h.good) (List.mem_cons_of_mem _ hm)
  constructor
  · exact h.sound.grow hc hnull hpend hslots
  · exact h.good
  · exact fun task hm => (hall task (htasks ▸ hm)).2
  · exact h.valued.grow h.sound.tree hslot revalued_old (fun json he => hv.trans (hleaf json he)) hnull
      (fun items he => hv.trans (hlist items he)) fun fields he => hv.trans (hobject fields he)
  · exact fun task hm => (hall task (htasks ▸ hm)).1

/-- An object comes to what its fields come to, in the slots they have got. -/
theorem data_object {t : ResponseTree} {id : Nat} {slot : ResponseTree.Slot}
    (hs : t.get? id = some slot) (object : Name) (json : Json) (path : Path)
    (nodes : List Plan.Node) (fields : List (String × SlotId))
    (hf : fields = ((Execution.keysOf nodes).map Prod.fst).zip (t.nextIds nodes.length)) :
    (Verdict.object (e.evaluateNodes a object json path nodes)).data =
      Verdict.objectOf (fields.map fun f => (f.1,
        (t.grow id ((Execution.keysOf nodes).map Prod.snd) (.object fields)).mayBeNull f.2,
        revalued e a t v (Task.ofNodes object json path nodes (t.nextIds nodes.length)) f.2)) := by
  refine congrArg Verdict.objectOf (List.ext_getElem? fun k => ?_)
  rw [Execution.evaluateNodes_eq, List.getElem?_map (l := fields), hf]
  simp only [List.map_map, List.getElem?_map, List.zip_eq_zipWith, List.getElem?_zipWith]
  cases hk : nodes[k]? with
  | none =>
    rw [show (Execution.keysOf nodes)[k]? = none by simp [Execution.keysOf, hk]]
    rfl
  | some node =>
    have hkey : (Execution.keysOf nodes)[k]? = some (node.key, node.type.nullable) := by
      simp [Execution.keysOf, hk]
    have hid := ResponseTree.getElem?_nextIds_of_lt (t := t) (List.getElem?_eq_some_iff.1 hk).1
    have htask : (Task.ofNodes (L := L) object json path nodes (t.nextIds nodes.length))[k]? =
        some ⟨⟨node, node.type, path.child (.field node.key), t.slots.size + k⟩,
          .resolve object json⟩ := by
      rw [Task.ofNodes_eq, List.getElem?_zipWith, hk, hid]
    rw [hkey, hid]
    simp only [Option.map_some, Function.comp_def, revalued_new htask]
    rw [ResponseTree.Valued.mayBeNull_grow_new hs _ (show _ = some node.type.nullable by simp [hkey]),
      Execution.evaluateNode_eq _ _ _ _ (t.slots.size + k)]

theorem Faithful.growObject {frame : Frame} {work : Work L} {object : Name} {json : Json}
    {nodes : List Plan.Node} {p : Progress L} {w : W} {rest : List (Task L)}
    (h : (⟨p, w, ⟨frame, work⟩ :: rest⟩ : Machine L W).Faithful e a g v)
    (hverdict : Task.verdict e a ⟨frame, work⟩ =
      .object (e.evaluateNodes a object json frame.path nodes)) :
    (⟨(p.growObject frame.slot nodes).2, w,
      Task.ofNodes object json frame.path nodes (p.growObject frame.slot nodes).1 ++ rest⟩ :
        Machine L W).Faithful e a g (revalued e a p.tree v
          (Task.ofNodes object json frame.path nodes (p.growObject frame.slot nodes).1)) := by
  have hslots : (p.growObject frame.slot nodes).1 = p.tree.nextIds nodes.length := by
    simp [Progress.growObject, ResponseTree.setObject_eq]
  obtain ⟨slot, hslot, -⟩ := h.sound.pending ⟨frame, work⟩ (List.mem_cons_self ..)
  refine h.grow ((Execution.keysOf nodes).map Prod.snd) _ _ ?_ (by simp) (by simp) ?_ ?_ (by simp) (by simp) ?_
  · simp [ResponseTree.Content.children, List.map_snd_zip]
  · rw [Task.map_slot_ofNodes _ _ _ _ _ (by simp [hslots]), hslots]
    simp
  · intro task hm l hl
    obtain ⟨k, hk⟩ := List.mem_iff_getElem?.1 hm
    obtain ⟨node, slot, -, -, rfl⟩ := Task.getElem?_ofNodes hk
    exact hl.elim
  · rintro _ ⟨⟩
    rw [hverdict, hslots]
    exact data_object hslot object json frame.path nodes _ (by rw [length_keysOf])

theorem Faithful.growList {frame : Frame} {work : Work L} {item : TypeRef} {nullable : Bool}
    {items : List (FieldValue L)} {p : Progress L} {w : W} {rest : List (Task L)}
    (h : (⟨p, w, ⟨frame, work⟩ :: rest⟩ : Machine L W).Faithful e a g v)
    (howed : ∀ value ∈ items, ∀ l, value.Defers l → g.owes w l)
    (hverdict : Task.verdict e a ⟨frame, work⟩ = .list (items.mapIdx fun i value =>
      (item.nullable || nullable,
        e.evaluateAt a ⟨frame.field, item, frame.path.child (.index i), frame.slot⟩ value))) :
    (⟨(p.growList frame.slot items.length (item.nullable || nullable)).2, w,
      Task.ofItems frame item 0
        ((p.growList frame.slot items.length (item.nullable || nullable)).1.zip items) ++ rest⟩ :
        Machine L W).Faithful e a g (revalued e a p.tree v (Task.ofItems frame item 0
          ((p.growList frame.slot items.length (item.nullable || nullable)).1.zip items))) := by
  have hslots : (p.growList frame.slot items.length (item.nullable || nullable)).1 =
      p.tree.nextIds items.length := rfl
  obtain ⟨slot, hslot, -⟩ := h.sound.pending ⟨frame, work⟩ (List.mem_cons_self ..)
  replace hslot : p.tree.get? frame.slot = some slot := hslot
  refine h.grow (List.replicate items.length (item.nullable || nullable)) _ _ ?_ nofun nofun ?_ ?_
    nofun ?_ nofun
  · simp [ResponseTree.Content.children]
  · rw [Task.map_slot_ofItems, hslots, List.map_fst_zip (by simp)]
    simp
  · intro task hm l hl
    obtain ⟨k, hk⟩ := List.mem_iff_getElem?.1 hm
    obtain ⟨slot, value, hitem, rfl⟩ := Task.getElem?_ofItems hk
    exact howed value (List.mem_of_getElem? (List.getElem?_zip_eq_some.1 hitem).2) l hl
  · rintro _ ⟨⟩
    rw [hverdict]
    refine congrArg Verdict.arrayOf (List.ext_getElem? fun k => ?_)
    simp only [List.getElem?_map, List.getElem?_mapIdx, hslots]
    cases hk : items[k]? with
    | none =>
      have hle : items.length ≤ k := List.getElem?_eq_none_iff.1 hk
      rw [List.getElem?_eq_none (by simpa using hle)]
      rfl
    | some value =>
      have hlt := (List.getElem?_eq_some_iff.1 hk).1
      have hid := ResponseTree.getElem?_nextIds_of_lt (t := p.tree) hlt
      have htask : (Task.ofItems (L := L) frame item 0 ((p.tree.nextIds items.length).zip items))[k]? =
          some ⟨⟨frame.field, item, frame.path.child (.index (0 + k)), p.tree.slots.size + k⟩,
            .complete value⟩ := by
        have hentry : ((p.tree.nextIds items.length).zip items)[k]? =
            some (p.tree.slots.size + k, value) := List.getElem?_zip_eq_some.2 ⟨hid, hk⟩
        rw [Task.ofItems_eq, List.getElem?_mapIdx, hentry]
        rfl
      rw [hid]
      simp only [Option.map_some, revalued_new htask, Nat.zero_add]
      rw [ResponseTree.Valued.mayBeNull_grow_new hslot _ (show _ = some (item.nullable || nullable) by
        simp [hlt])]
      rfl

end Machine

theorem Step.faithful {e : Execution ρ L W} {a : Answers ρ L} {g : Ledger L W}
    {v : Nat → Option Json} {m m' : Machine L W} (hd : e.host.Determined e.registry a g)
    (h : m.Faithful e a g v) (hs : Step e m m') :
    ∃ v', m'.Faithful e a g v' ∧ v' ResponseTree.root = v ResponseTree.root ∧
      g.Grows m.world m'.world := by
  have hsound := hs.moves.sound h.sound
  cases hs with
  | skip _ =>
    exact ⟨v, h.of_tree hsound rfl h.good fun t ht => h.task (.refl h.good) (List.mem_cons_of_mem _ ht),
      rfl, .refl h.good⟩
  | @resolved frame object parent value p p' w w' rest hl hr =>
    have hdel := Execution.fieldOutcome_delivers hd h.good hr
    obtain ⟨o, entries, w2, h2⟩ := fieldOutcome_run e frame object parent p w
    rw [hr] at h2
    cases h2
    refine ⟨v, h.replace hsound rfl rfl hdel.grows rfl ?_ fun l hl => hdel.owes value l rfl hl, rfl,
      hdel.grows⟩
    simp only [Task.verdict, ← hdel.expected]
  | @unresolved frame object parent error p p' w w' rest hl hr =>
    have hdel := Execution.fieldOutcome_delivers hd h.good hr
    obtain ⟨o, entries, w2, h2⟩ := fieldOutcome_run e frame object parent p w
    rw [hr] at h2
    cases h2
    refine ⟨v, h.note (.failure frame error) hl rfl rfl hdel.grows ?_, rfl, hdel.grows⟩
    simp only [Note.frame, Task.verdict, ← hdel.expected]
    rfl
  | @forced frame lazy value p w w' rest hl hf =>
    have hdel := hd.force h.good (h.owed _ (List.mem_cons_self ..) lazy rfl)
    rw [hf] at hdel
    refine ⟨v, h.replace hsound rfl rfl hdel.grows rfl ?_ fun l hl => hdel.owes value l rfl hl, rfl,
      hdel.grows⟩
    simp only [Task.verdict]
    rw [Execution.evaluateAt_later, ← hdel.expected]
    rfl
  | @unforced frame lazy error p w w' rest hl hf =>
    have hdel := hd.force h.good (h.owed _ (List.mem_cons_self ..) lazy rfl)
    rw [hf] at hdel
    refine ⟨v, h.note (.failure frame error) hl rfl rfl hdel.grows ?_, rfl, hdel.grows⟩
    simp only [Note.frame, Task.verdict]
    rw [Execution.evaluateAt_later, ← hdel.expected]
    rfl
  | @aside frame value lazy p w rest hl hc =>
    have hfit := e.fits_completion frame value
    rw [hc] at hfit
    cases hfit
    refine ⟨v, h.of_tree hsound rfl h.good fun t ht => ?_, rfl, .refl h.good⟩
    have hmem : t ∈ rest ++ (p.pending ++ [(⟨frame, lazy⟩ : Pending L)]).map Task.ofPending := ht
    rw [List.map_append, ← List.append_assoc] at hmem
    rcases List.mem_append.1 hmem with hm | hm
    · exact h.task (.refl h.good) (List.mem_cons_of_mem _ hm)
    · obtain ⟨hv, howed⟩ := h.task (.refl h.good) (List.mem_cons_self ..)
      rw [List.mem_singleton.1 hm]
      refine ⟨hv, fun l hl => howed l ?_⟩
      cases hl
      exact .later
  | @null frame value p w rest hl hc =>
    exact ⟨v, h.note (.null frame) hl rfl rfl (.refl h.good)
      (congrArg Verdict.data (Task.verdict_complete hc nofun)), rfl, .refl h.good⟩
  | @rejected frame value error p w rest hl hc =>
    exact ⟨v, h.note (.failure frame (.ofMessage error.message)) hl rfl rfl (.refl h.good)
      (congrArg Verdict.data (Task.verdict_complete hc nofun)), rfl, .refl h.good⟩
  | @leaf frame value json p w rest hl hc =>
    refine ⟨_, h.grow [] (.leaf json) [] rfl nofun nofun rfl nofun ?_ nofun nofun,
      Machine.revalued_root h.sound.tree _, .refl h.good⟩
    rintro _ ⟨⟩
    exact congrArg Verdict.data (Task.verdict_complete hc nofun)
  | @object frame value object nodes json p w rest hl hc =>
    exact ⟨_, h.growObject (Task.verdict_complete hc nofun), Machine.revalued_root h.sound.tree _,
      .refl h.good⟩
  | @list frame value item nullable items p w rest hl hc =>
    refine ⟨_, h.growList (fun item hm l hl => ?_) (Task.verdict_complete hc nofun),
      Machine.revalued_root h.sound.tree _, .refl h.good⟩
    have hfit := e.fits_completion frame value
    rw [hc] at hfit
    exact h.owed _ (List.mem_cons_self ..) l (Execution.defers_of_elements hfit.2 hm hl)
  | @wave p w todo =>
    refine ⟨v, h.of_tree hsound rfl h.good fun t ht => h.task (.refl h.good) ?_, rfl, .refl h.good⟩
    have hmem : t ∈ p.pending.map Task.ofPending ++ todo ++ [] := ht
    rw [List.append_nil, List.mem_append] at hmem
    exact List.mem_append.2 hmem.symm

end GraphQL
