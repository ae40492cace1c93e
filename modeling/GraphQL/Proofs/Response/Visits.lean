import GraphQL.Proofs.Response.Positions
import Mathlib.Data.List.Nodup

/-!
# Taking the data out of slots

The data of a response is taken out of its slots, and a slot that was visited has nothing left to
give. `take` does so and keeps the visits. In a well-formed response whose content is `Proper` no
slot is visited twice (`nodup_visits`), so that what comes out is the data below the root
(`take_visits`); the slots that are visited are those that a path leads to (`mem_visits_iff`).
-/

namespace GraphQL.ResponseTree

/-- Visits a slot, and says whether this is the first visit. -/
def visit (id : Nat) : StateM (List Nat) Bool := fun visited =>
  (decide (id ∉ visited), visited ++ [id])

/-- Takes the data below a slot out of the slots. -/
def take (t : ResponseTree) : (fuel : Nat) → Nat → StateM (List Nat) Json
  | 0, _ => pure .null
  | fuel + 1, id => do
    if ← visit id then
      match t.get? id with
      | some ⟨_, _, .leaf value⟩ => pure value
      | some ⟨_, _, .list items⟩ => do
        let items ← items.mapM (t.take fuel)
        pure (.array items)
      | some ⟨_, _, .object fields⟩ => do
        let fields ← fields.mapM fun field => do
          let value ← t.take fuel field.2
          pure (field.1, value)
        pure (.object fields)
      | _ => pure .null
    else pure .null

/-- The slots below one, each before those below it. -/
def visitsFrom (t : ResponseTree) : (fuel : Nat) → Nat → List Nat
  | 0, _ => []
  | fuel + 1, id =>
    id :: match t.get? id with
      | some slot => slot.content.children.flatMap (t.visitsFrom fuel)
      | none => []

/-- The slots that are visited when the data is taken out. -/
def visits (t : ResponseTree) : List Nat :=
  t.visitsFrom t.slots.size root

/-- Content that lists no slot and no key twice. A value is not null, which is content of its own. -/
def Content.Proper : Content → Prop
  | .leaf value => value ≠ .null
  | .list items => items.Nodup
  | .object fields => (Assoc.keys fields).Nodup ∧ (Assoc.values fields).Nodup
  | _ => True

/-- Slots that hang together, with proper content. -/
structure Orderly (t : ResponseTree) : Prop where
  wellFormed : t.WellFormed
  proper : ∀ {id : Nat} {slot}, t.get? id = some slot → slot.content.Proper

theorem Content.Proper.nodup_children {content : Content} (h : content.Proper) :
    content.children.Nodup := by
  cases content with
  | list items => exact h
  | object fields => exact h.2
  | _ => exact List.nodup_nil

/-- Some segment finds each slot below. -/
theorem Content.Proper.exists_child? {content : Content} (h : content.Proper) {child : Nat}
    (hc : child ∈ content.children) : ∃ segment, content.child? segment = some child := by
  obtain ⟨segment, -, hl, -⟩ := exists_leads hc
  refine ⟨segment, ?_⟩
  unfold Content.Leads at hl
  split at hl
  · exact Assoc.get?_of_mem h.1 hl
  · exact hl
  · cases hl

/-! ## What a computation takes -/

/-- After visits to none of some slots, a computation gives the result and visits these slots. -/
def Takes {α : Type} (m : StateM (List Nat) α) (a : α) (own : List Nat) : Prop :=
  ∀ visited, (visited ++ own).Nodup → m.run visited = (a, visited ++ own)

section

variable {α β : Type} {m : StateM (List Nat) α} {a : α} {b : β} {own own' : List Nat}

theorem takes_pure (a : α) : Takes (pure a) a [] := by
  intro visited _
  rw [List.append_nil]
  rfl

theorem takes_visit (id : Nat) : Takes (visit id) true [id] := by
  intro visited hnodup
  have hnew : id ∉ visited := fun hmem =>
    (List.nodup_append.1 hnodup).2.2 id hmem id (List.mem_singleton_self id) rfl
  show (decide (id ∉ visited), visited ++ [id]) = _
  rw [decide_eq_true hnew]

theorem Takes.bind {k : α → StateM (List Nat) β} (h : Takes m a own) (hk : Takes (k a) b own') :
    Takes (m >>= k) b (own ++ own') := by
  intro visited hnodup
  rw [← List.append_assoc] at hnodup ⊢
  show (k (m.run visited).1).run (m.run visited).2 = _
  rw [h visited (List.nodup_append.1 hnodup).1]
  exact hk _ hnodup

theorem Takes.andPure {k : α → β} (h : Takes m a own) :
    Takes (m >>= fun a => pure (k a)) (k a) own := by
  have := h.bind (k := fun a => pure (k a)) (takes_pure (k a))
  rwa [List.append_nil] at this

theorem Takes.mapM {f : α → StateM (List Nat) β} {g : α → β} {own : α → List Nat} {xs : List α}
    (h : ∀ x ∈ xs, Takes (f x) (g x) (own x)) : Takes (xs.mapM f) (xs.map g) (xs.flatMap own) := by
  induction xs with
  | nil => exact takes_pure []
  | cons x xs ih =>
    rw [List.mapM_cons, List.flatMap_cons]
    exact (h x (List.mem_cons_self ..)).bind
      (ih fun y hy => h y (List.mem_cons_of_mem _ hy)).andPure

end

/-! ## Visits -/

variable {t : ResponseTree} {id x : Nat} {slot : Slot}

/-- What holds of a slot once it holds of those that its content lists, with less fuel, holds of
every slot with as much fuel as there are slots from there on. -/
theorem WellFormed.fuel_induction (wf : t.WellFormed) {motive : Nat → Nat → Prop}
    (step : ∀ {fuel id : Nat} {slot}, t.get? id = some slot →
      (∀ child ∈ slot.content.children, motive fuel child) → motive (fuel + 1) id) :
    ∀ {fuel id : Nat} {slot}, t.get? id = some slot → t.slots.size ≤ id + fuel → motive fuel id := by
  intro fuel
  induction fuel with
  | zero =>
    intro id slot hs hle
    have := lt_size hs
    omega
  | succ fuel ih =>
    intro id slot hs hle
    refine step hs fun child hc => ?_
    have hbelow := wf.lt_of_child hs hc
    obtain ⟨s, hs', -⟩ := wf.parent_of_child hs hc
    exact ih hs' (by omega)

theorem visitsFrom_eq (wf : t.WellFormed) {fuel fuel' : Nat} (hs : t.get? id = some slot)
    (hle : t.slots.size ≤ id + fuel) (hle' : t.slots.size ≤ id + fuel') :
    t.visitsFrom fuel id = t.visitsFrom fuel' id := by
  refine wf.fuel_induction (motive := fun fuel id => ∀ fuel', t.slots.size ≤ id + fuel' →
    t.visitsFrom fuel id = t.visitsFrom fuel' id) ?_ hs hle fuel' hle'
  intro fuel id slot hs ih fuel' hle'
  have hlt := lt_size hs
  obtain ⟨fuel', rfl⟩ : ∃ n, fuel' = n + 1 := ⟨fuel' - 1, by omega⟩
  rw [visitsFrom, visitsFrom, hs]
  refine congrArg (id :: ·) (List.flatMap_congr fun child hc => ih child hc fuel' ?_)
  have hbelow := wf.lt_of_child hs hc
  omega

theorem within_of_mem_visitsFrom (wf : t.WellFormed) {fuel : Nat} :
    ∀ {id : Nat}, x ∈ t.visitsFrom fuel id → Within t id x := by
  induction fuel with
  | zero => intro id h; cases h
  | succ fuel ih =>
    intro id h
    rw [visitsFrom] at h
    rcases List.mem_cons.1 h with rfl | h
    · exact .self
    · split at h
      · next slot hs =>
        obtain ⟨child, hc, h⟩ := List.mem_flatMap.1 h
        obtain ⟨s, hs', hp⟩ := wf.parent_of_child hs hc
        exact .trans (.child hs' hp .self) (ih h)
      · cases h

/-- Nothing lies within two slots of one parent. -/
theorem not_within_both (wf : t.WellFormed) (hs : t.get? id = some slot) {a b : Nat}
    (ha : a ∈ slot.content.children) (hb : b ∈ slot.content.children) (hne : a ≠ b)
    (hxa : Within t a x) (hxb : Within t b x) : False := by
  have apart : ∀ {a b : Nat}, a ∈ slot.content.children → b ∈ slot.content.children → a ≠ b →
      ¬ Within t a b := by
    intro a b ha hb hne hw
    obtain ⟨s, hs', hp⟩ := wf.parent_of_child hs hb
    cases hw with
    | self => exact hne rfl
    | child hg hp' hw =>
      rw [hs'] at hg
      cases hg
      rw [hp] at hp'
      cases hp'
      have hle := wf.le_of_within hw
      have hlt := wf.lt_of_child hs ha
      omega
  rcases hxa.total hxb with hw | hw
  · exact apart ha hb hne hw
  · exact apart hb ha hne.symm hw

theorem nodup_visitsFrom (h : t.Orderly) (fuel id : Nat) : (t.visitsFrom fuel id).Nodup := by
  have wf := h.wellFormed
  induction fuel generalizing id with
  | zero => exact List.nodup_nil
  | succ fuel ih =>
    rw [visitsFrom]
    cases hs : t.get? id with
    | none => exact List.nodup_singleton id
    | some slot =>
      refine List.nodup_cons.2 ⟨fun hmem => ?_, List.nodup_flatMap.2 ⟨fun child _ => ih child, ?_⟩⟩
      · obtain ⟨child, hc, hmem⟩ := List.mem_flatMap.1 hmem
        have hle := wf.le_of_within (within_of_mem_visitsFrom wf hmem)
        have hlt := wf.lt_of_child hs hc
        omega
      · refine (h.proper hs).nodup_children.imp_of_mem fun {a b} ha hb hne x hxa hxb => ?_
        exact not_within_both wf hs ha hb hne (within_of_mem_visitsFrom wf hxa)
          (within_of_mem_visitsFrom wf hxb)

theorem nodup_visits (h : t.Orderly) : t.visits.Nodup :=
  nodup_visitsFrom h _ _

/-- The slots visited below one are those that paths lead to from there. -/
theorem mem_visitsFrom_iff (h : t.Orderly) {fuel : Nat} (hs : t.get? id = some slot)
    (hle : t.slots.size ≤ id + fuel) :
    x ∈ t.visitsFrom fuel id ↔ ∃ path, t.down? id path = some x := by
  refine h.wellFormed.fuel_induction (motive := fun fuel id =>
    x ∈ t.visitsFrom fuel id ↔ ∃ path, t.down? id path = some x) ?_ hs hle
  intro fuel id slot hs ih
  rw [visitsFrom, hs, List.mem_cons, List.mem_flatMap]
  constructor
  · rintro (rfl | ⟨child, hc, hx⟩)
    · exact ⟨[], rfl⟩
    · obtain ⟨path, hpath⟩ := (ih child hc).1 hx
      obtain ⟨segment, hsegment⟩ := (h.proper hs).exists_child? hc
      refine ⟨segment :: path, ?_⟩
      rw [down?, hs, Option.bind_some, hsegment]
      exact hpath
  · rintro ⟨path, hpath⟩
    cases path with
    | nil =>
      cases hpath
      exact .inl rfl
    | cons segment path =>
      rw [down?, hs, Option.bind_some] at hpath
      obtain ⟨child, hc, hpath⟩ := Option.bind_eq_some_iff.1 hpath
      have hmem := (Content.leads_of_child? hc).mem_children
      exact .inr ⟨child, hmem, (ih child hmem).2 ⟨path, hpath⟩⟩

theorem mem_visits_iff (h : t.Orderly) : x ∈ t.visits ↔ ∃ path, t.at? path = some x := by
  obtain ⟨content, hroot⟩ := h.wellFormed.root
  exact mem_visitsFrom_iff h hroot (Nat.le_add_left ..)

/-- Paths lead to what can still make it into the response. -/
theorem exists_at?_of_isLive (h : t.Orderly) (hs : t.get? id = some slot)
    (hl : t.isLive id = true) : ∃ path, t.at? path = some id := by
  have wf := h.wellFormed
  refine wf.parent_induction (motive := fun id => t.isLive id = true → ∃ path, t.at? path = some id)
    (fun _ => ⟨[], rfl⟩) ?_ hs hl
  intro id parent slot hs hp ih hl
  have hparent := ((isLive_eq wf hs).1 hl).2 parent hp
  obtain ⟨path, hpath⟩ := ih hparent
  obtain ⟨s, hs', hc⟩ := wf.child_of_parent hs hp
  have hmem := hc.resolve_left ((isLive_eq wf hs').1 hparent).1
  obtain ⟨segment, hsegment⟩ := (h.proper hs').exists_child? hmem
  refine ⟨path.child segment, ?_⟩
  rw [at?] at hpath ⊢
  rw [down?_append, hpath, Option.bind_some, hs', Option.bind_some, hsegment]

/-! ## The data that is taken -/

theorem takes_take (wf : t.WellFormed) {fuel : Nat} (hs : t.get? id = some slot)
    (hle : t.slots.size ≤ id + fuel) :
    Takes (t.take fuel id) (t.jsonOf id) (t.visitsFrom fuel id) := by
  refine wf.fuel_induction (motive := fun fuel id =>
    Takes (t.take fuel id) (t.jsonOf id) (t.visitsFrom fuel id)) ?_ hs hle
  intro fuel id slot hs ih
  rw [take, visitsFrom, jsonOf_eq wf hs, hs]
  refine (takes_visit id).bind ?_
  rw [if_pos rfl]
  obtain ⟨parent, nullable, content⟩ := slot
  cases content with
  | list items => exact (Takes.mapM ih).andPure
  | object fields =>
    have hfield : ∀ field ∈ fields, Takes
        (do let value ← t.take fuel field.2; pure (field.1, value))
        (field.1, t.jsonOf field.2) (t.visitsFrom fuel field.2) := fun field hf =>
      (ih field.2 (List.mem_map_of_mem hf)).andPure
    show Takes _ _ ((fields.map Prod.snd).flatMap (t.visitsFrom fuel))
    rw [List.flatMap_map]
    exact (Takes.mapM hfield).andPure
  | _ => exact takes_pure _

/-- However much fuel there is beyond what the slots need, all of the data is taken. -/
theorem take_visits (h : t.Orderly) {fuel : Nat} (hle : t.slots.size ≤ fuel) :
    (t.take fuel root).run [] = (t.toJson, t.visits) := by
  obtain ⟨content, hroot⟩ := h.wellFormed.root
  have hvisits : t.visitsFrom fuel root = t.visits :=
    visitsFrom_eq h.wellFormed hroot (by omega) (by omega)
  have htaken := takes_take h.wellFormed hroot (show t.slots.size ≤ root + fuel by omega) []
  rw [hvisits, List.nil_append] at htaken
  exact htaken (nodup_visits h)

/-- Data is null where nothing else came in. -/
theorem jsonOf_eq_null_iff (h : t.Orderly) (hs : t.get? id = some slot) :
    t.jsonOf id = .null ↔ slot.content = .null ∨ slot.content = .pending := by
  have hproper := h.proper hs
  rw [jsonOf_eq h.wellFormed hs]
  obtain ⟨parent, nullable, content⟩ := slot
  cases content with
  | leaf value =>
    have hvalue : value ≠ .null := hproper
    simp [hvalue]
  | _ => simp

end GraphQL.ResponseTree
