import GraphQL.Path
import GraphQL.Proofs.Response.Tree
import Mathlib.Data.List.Induction

/-!
# Positions of a response

A path leads through the data of a response, and through the slots the data are made of. Slots
that were nulled, or lie below one that was, have lost their position in the data but still have
the path they were made for; `Places` says which path that is.
-/

namespace GraphQL

namespace Json

def child? : Json → Segment → Option Json
  | .object fields, .field key => Assoc.get? fields key
  | .array items, .index i => items[i]?
  | _, _ => none

/-- The value that a path leads to. -/
def at? : Json → Path → Option Json
  | j, [] => some j
  | j, segment :: path => (j.child? segment).bind fun child => child.at? path

end Json

namespace ResponseTree

def Content.child? : Content → Segment → Option Nat
  | .object fields, .field key => Assoc.get? fields key
  | .list items, .index i => items[i]?
  | _, _ => none

/-- The slot that a path leads to from another one. -/
def down? (t : ResponseTree) : Nat → Path → Option Nat
  | id, [] => some id
  | id, segment :: path =>
    (t.get? id).bind fun slot => (slot.content.child? segment).bind fun child => t.down? child path

/-- The slot that a path leads to. -/
def at? (t : ResponseTree) (path : Path) : Option Nat :=
  t.down? root path

/-- How many slots are above one. Parents have smaller numbers, so that the number of the slot
bounds the way up. -/
def heightFrom (t : ResponseTree) : (fuel : Nat) → Nat → Nat
  | 0, _ => 0
  | fuel + 1, id =>
    match t.get? id with
    | some ⟨some parent, _, _⟩ => heightFrom t fuel parent + 1
    | _ => 0

def depth (t : ResponseTree) (id : Nat) : Nat :=
  t.heightFrom (id + 1) id

/-! ## What a slot leads to -/

/-- A segment leads from what a slot holds to a slot. -/
def Content.Leads : Content → Segment → Nat → Prop
  | .object fields, .field key, child => (key, child) ∈ fields
  | .list items, .index i, child => items[i]? = some child
  | _, _, _ => False

theorem Content.leads_of_child? {content : Content} {segment : Segment} {child : Nat}
    (h : content.child? segment = some child) : content.Leads segment child := by
  unfold Content.child? at h
  split at h
  · exact Assoc.mem_of_get? h
  · exact h
  · cases h

theorem Content.Leads.mem_children {content : Content} {segment : Segment} {child : Nat}
    (h : content.Leads segment child) : child ∈ content.children := by
  unfold Content.Leads at h
  split at h
  · exact List.mem_map_of_mem h
  · exact List.mem_of_getElem? h
  · cases h

/-- Some segment leads to each slot below, and there is a slot where it leads. -/
theorem Content.exists_leads {content : Content} {child : Nat} (h : child ∈ content.children) :
    ∃ segment found, content.Leads segment child ∧ content.child? segment = some found := by
  cases content with
  | list items =>
    obtain ⟨i, hi⟩ := List.mem_iff_getElem?.1 h
    exact ⟨.index i, child, hi, hi⟩
  | object fields =>
    obtain ⟨⟨key, _⟩, hm, rfl⟩ := List.mem_map.1 h
    obtain ⟨found, hf⟩ := Assoc.exists_get? hm
    exact ⟨.field key, found, hm, hf⟩
  | _ => cases h

/-! ## Data below a slot -/

variable {t : ResponseTree} {id : Nat} {slot : Slot}

/-- The data below a slot. -/
def jsonOf (t : ResponseTree) (id : Nat) : Json :=
  t.jsonFrom (t.slots.size - id) id

theorem get?_eq_none (h : t.slots.size ≤ id) : t.get? id = none :=
  Array.getElem?_eq_none h

theorem jsonFrom_eq (wf : t.WellFormed) : ∀ {fuel fuel' : Nat} {id : Nat}, t.slots.size ≤ id + fuel →
    t.slots.size ≤ id + fuel' → t.jsonFrom fuel id = t.jsonFrom fuel' id := by
  intro fuel
  induction fuel with
  | zero =>
    intro fuel' id h _
    cases fuel' with
    | zero => rfl
    | succ fuel' => rw [jsonFrom, jsonFrom, get?_eq_none (show t.slots.size ≤ id from h)]
  | succ fuel ih =>
    intro fuel' id h h'
    cases fuel' with
    | zero => rw [jsonFrom, jsonFrom, get?_eq_none (show t.slots.size ≤ id from h')]
    | succ fuel' =>
      rw [jsonFrom, jsonFrom]
      cases hs : t.get? id with
      | none => rfl
      | some slot =>
        obtain ⟨parent, nullable, content⟩ := slot
        -- slots below have greater numbers, so that less fuel does for them
        have hbelow : ∀ child ∈ content.children,
            t.jsonFrom fuel child = t.jsonFrom fuel' child := fun child hc => by
          have := wf.lt_of_child hs hc
          exact ih (by omega) (by omega)
        cases content with
        | list items => exact congrArg Json.array (List.map_congr_left hbelow)
        | object fields =>
          refine congrArg Json.object (List.map_congr_left fun field hf => ?_)
          show (field.1, _) = (field.1, _)
          rw [hbelow field.2 (List.mem_map_of_mem hf)]
        | _ => rfl

theorem jsonOf_eq (wf : t.WellFormed) (h : t.get? id = some slot) :
    t.jsonOf id = match slot.content with
      | .leaf value => value
      | .list items => .array (items.map t.jsonOf)
      | .object fields => .object (fields.map fun field => (field.1, t.jsonOf field.2))
      | _ => .null := by
  have hlt := lt_size h
  obtain ⟨fuel, hfuel⟩ : ∃ fuel, t.slots.size - id = fuel + 1 := ⟨t.slots.size - id - 1, by omega⟩
  obtain ⟨parent, nullable, content⟩ := slot
  have hbelow : ∀ child ∈ content.children, t.jsonFrom fuel child = t.jsonOf child := fun child hc =>
    have := wf.lt_of_child h hc
    jsonFrom_eq wf (by omega) (by omega)
  rw [jsonOf, hfuel, jsonFrom, h]
  cases content with
  | list items => exact congrArg Json.array (List.map_congr_left hbelow)
  | object fields =>
    refine congrArg Json.object (List.map_congr_left fun field hf => ?_)
    show (field.1, _) = (field.1, _)
    rw [hbelow field.2 (List.mem_map_of_mem hf)]
  | _ => rfl

theorem toJson_eq (t : ResponseTree) : t.toJson = t.jsonOf root := rfl

theorem jsonOf_child? (wf : t.WellFormed) (h : t.get? id = some slot) {segment : Segment}
    {child : Nat} (hc : slot.content.child? segment = some child) :
    (t.jsonOf id).child? segment = some (t.jsonOf child) := by
  rw [jsonOf_eq wf h]
  unfold Content.child? at hc
  split at hc
  · next he =>
    rw [he]
    simp [Json.child?, Assoc.get?_map, hc]
  · next he =>
    rw [he]
    simp [Json.child?, hc]
  · cases hc

/-- The data at the path to a slot are the data below the slot. -/
theorem jsonOf_down? (wf : t.WellFormed) {path : Path} {id found : Nat}
    (h : t.down? id path = some found) : (t.jsonOf id).at? path = some (t.jsonOf found) := by
  induction path generalizing id with
  | nil =>
    cases h
    rfl
  | cons segment path ih =>
    rw [down?] at h
    obtain ⟨slot, hs, h⟩ := Option.bind_eq_some_iff.1 h
    obtain ⟨child, hc, h⟩ := Option.bind_eq_some_iff.1 h
    rw [Json.at?, jsonOf_child? wf hs hc]
    exact ih h

theorem get?_of_down? (wf : t.WellFormed) {path : Path} {id found : Nat} {slot : Slot}
    (hs : t.get? id = some slot) (hd : t.down? id path = some found) :
    ∃ s, t.get? found = some s := by
  induction path generalizing id slot with
  | nil =>
    cases hd
    exact ⟨slot, hs⟩
  | cons segment path ih =>
    rw [down?, hs, Option.bind_some] at hd
    obtain ⟨child, hc, hd⟩ := Option.bind_eq_some_iff.1 hd
    obtain ⟨s, hs', -⟩ := wf.parent_of_child hs (Content.leads_of_child? hc).mem_children
    exact ih hs' hd

/-- A path leads to a slot that there is. -/
theorem get?_of_at? (wf : t.WellFormed) {path : Path} (h : t.at? path = some id) :
    ∃ slot, t.get? id = some slot := by
  obtain ⟨content, hroot⟩ := wf.root
  exact get?_of_down? wf hroot h

theorem down?_append (t : ResponseTree) (id : Nat) (path : Path) (segment : Segment) :
    t.down? id (path.child segment) = (t.down? id path).bind fun parent =>
      (t.get? parent).bind fun slot => slot.content.child? segment := by
  induction path generalizing id with
  | nil =>
    show t.down? id [segment] = _
    simp only [down?, Option.bind_some]
    cases t.get? id with
    | none => rfl
    | some slot =>
      simp only [Option.bind_some]
      cases slot.content.child? segment <;> rfl
  | cons first path ih =>
    show t.down? id (first :: Path.child path segment) = _
    rw [down?, down?]
    cases t.get? id with
    | none => rfl
    | some slot =>
      simp only [Option.bind_some]
      cases slot.content.child? first with
      | none => rfl
      | some child => exact ih child

/-- What a path leads to is live, unless it is null itself. -/
theorem isLive_of_at? (wf : t.WellFormed) (path : Path) :
    ∀ {id : Nat} {slot : Slot}, t.at? path = some id → t.get? id = some slot →
      slot.content ≠ .null → t.isLive id = true := by
  induction path using List.reverseRecOn with
  | nil =>
    intro id slot ha hs hc
    cases ha
    refine (isLive_eq wf hs).2 ⟨hc, fun parent hp => ?_⟩
    obtain ⟨content, hr⟩ := wf.root
    rw [hr] at hs
    cases hs
    cases hp
  | append_singleton path segment ih =>
    intro id slot ha hs hc
    obtain ⟨parent, hparent, ha⟩ := Option.bind_eq_some_iff.1
      ((down?_append t root path segment).symm.trans ha)
    obtain ⟨p, hp, hchild⟩ := Option.bind_eq_some_iff.1 ha
    obtain ⟨s, hs', hpar⟩ := wf.parent_of_child hp (Content.leads_of_child? hchild).mem_children
    rw [hs] at hs'
    cases hs'
    refine (isLive_eq wf hs).2 ⟨hc, fun above ha => ?_⟩
    rw [hpar] at ha
    cases ha
    refine ih hparent hp fun hnull => ?_
    rw [hnull] at hchild
    cases hchild

/-! ## The depth of a slot -/

theorem heightFrom_eq (wf : t.WellFormed) :
    ∀ {fuel fuel' : Nat} {id : Nat}, id < fuel → id < fuel' →
      t.heightFrom fuel id = t.heightFrom fuel' id := by
  intro fuel
  induction fuel with
  | zero => intro _ _ h; omega
  | succ fuel ih =>
    intro fuel' id h h'
    obtain ⟨fuel', rfl⟩ : ∃ n, fuel' = n + 1 := ⟨fuel' - 1, by omega⟩
    rw [heightFrom, heightFrom]
    split
    · next parent _ _ hg =>
      have := wf.lt_of_parent hg rfl
      rw [@ih fuel' parent (by omega) (by omega)]
    · rfl

theorem depth_of_parent (wf : t.WellFormed) (h : t.get? id = some slot) {parent : Nat}
    (hp : slot.parent = some parent) : t.depth id = t.depth parent + 1 := by
  have hlt := wf.lt_of_parent h hp
  obtain ⟨_, nullable, content⟩ := slot
  cases hp
  rw [depth, depth, heightFrom, h]
  simp only
  rw [heightFrom_eq wf hlt (Nat.lt_succ_self parent)]

theorem depth_root (wf : t.WellFormed) : t.depth root = 0 := by
  obtain ⟨content, h⟩ := wf.root
  rw [depth, heightFrom, h]

/-! ## The paths of slots -/

/-- `place` gives the paths that slots were made for. -/
structure Places (t : ResponseTree) (place : Nat → Path) : Prop where
  root : place ResponseTree.root = []
  of_parent : ∀ {id parent : Nat} {slot}, t.get? id = some slot → slot.parent = some parent →
    ∃ segment, place id = (place parent).child segment
  injective : ∀ {a b : Nat} {s s'}, t.get? a = some s → t.get? b = some s' → place a = place b → a = b
  of_leads : ∀ {id child : Nat} {slot segment}, t.get? id = some slot →
    slot.content.Leads segment child → place child = (place id).child segment

namespace Places

variable {place : Nat → Path}

theorem depth_eq (h : Places t place) (wf : t.WellFormed) :
    ∀ {id slot}, t.get? id = some slot → t.depth id = (place id).length := by
  intro id slot hs
  refine wf.parent_induction (motive := fun id => t.depth id = (place id).length) ?_ ?_ hs
  · rw [depth_root wf, h.root]
    rfl
  · intro id parent slot hs hp ih
    obtain ⟨segment, he⟩ := h.of_parent hs hp
    rw [depth_of_parent wf hs hp, ih, he, Path.child, List.length_append]
    rfl

theorem fresh : Places ResponseTree.fresh fun _ => [] where
  root := rfl
  of_parent hs hp := by
    obtain ⟨-, rfl⟩ := get?_fresh hs
    cases hp
  injective ha hb _ := (get?_fresh ha).1.trans (get?_fresh hb).1.symm
  of_leads hs hl := by
    obtain ⟨-, rfl⟩ := get?_fresh hs
    cases hl

theorem setNull (h : Places t place) (id : Nat) : Places (t.setNull id) place := by
  have hold : ∀ {j : Nat} {s : Slot}, (t.setNull id).get? j = some s → ∃ s', t.get? j = some s' ∧
      s.parent = s'.parent ∧ (s.content = s'.content ∨ s.content = .null) := by
    intro j s hs
    rw [get?_setNull] at hs
    split at hs
    · obtain ⟨s', hs', rfl⟩ := Option.map_eq_some_iff.1 hs
      exact ⟨s', hs', rfl, .inr rfl⟩
    · exact ⟨s, hs, rfl, .inl rfl⟩
  constructor
  · exact h.root
  · intro j parent s hs hp
    obtain ⟨s', hs', hparent, -⟩ := hold hs
    exact h.of_parent hs' (hparent ▸ hp)
  · intro a b s s' ha hb he
    obtain ⟨_, ha', -⟩ := hold ha
    obtain ⟨_, hb', -⟩ := hold hb
    exact h.injective ha' hb' he
  · intro j child s segment hs hl
    obtain ⟨s', hs', -, hc | hc⟩ := hold hs
    · exact h.of_leads hs' (hc ▸ hl)
    · rw [hc] at hl
      cases hl

/-- The paths of slots, with those of new slots that one slot gets, by the segments that lead to
them. -/
def extended (t : ResponseTree) (place : Nat → Path) (id : Nat) (segments : List Segment) :
    Nat → Path := fun j =>
  if j < t.slots.size then place j
  else match segments[j - t.slots.size]? with
    | some segment => (place id).child segment
    | none => []

theorem extended_old {j : Nat} {s : Slot} (hs : t.get? j = some s) (id : Nat)
    (segments : List Segment) : extended t place id segments j = place j :=
  if_pos (lt_size hs)

theorem extended_new {k : Nat} {segment : Segment} {segments : List Segment}
    (hk : segments[k]? = some segment) (id : Nat) :
    extended t place id segments (t.slots.size + k) = (place id).child segment := by
  rw [extended, if_neg (by omega), Nat.add_sub_cancel_left, hk]

theorem child_inj {p q : Path} {a b : Segment} (h : p.child a = q.child b) : p = q ∧ a = b := by
  obtain ⟨hp, hs⟩ := List.append_inj' h rfl
  exact ⟨hp, List.singleton_inj.1 hs⟩

theorem grow (h : Places t place) (wf : t.WellFormed) (hs : t.get? id = some slot)
    (hp : slot.content = .pending) {flags : List Bool} {content : Content} {segments : List Segment}
    (hlen : segments.length = flags.length) (hnodup : segments.Nodup)
    (hleads : ∀ {segment child}, content.Leads segment child →
      ∃ k, segments[k]? = some segment ∧ child = t.slots.size + k) :
    Places (t.grow id flags content) (extended t place id segments) := by
  have hseg : ∀ {k : Nat} {nullable : Bool}, flags[k]? = some nullable →
      ∃ segment, segments[k]? = some segment := fun hk =>
    ⟨_, List.getElem?_eq_getElem (hlen ▸ (List.getElem?_eq_some_iff.1 hk).1)⟩
  -- nothing was below the slot yet, so no slot has the path of a new one
  have hfree : ∀ {j : Nat} {s : Slot} {segment}, t.get? j = some s →
      place j ≠ (place id).child segment := by
    intro j s segment hj he
    cases hpar : s.parent with
    | none =>
      rw [wf.eq_root_of_parent hj hpar, h.root] at he
      simp [Path.child] at he
    | some parent =>
      obtain ⟨segment', he'⟩ := h.of_parent hj hpar
      obtain ⟨par, hpar', hc⟩ := wf.child_of_parent hj hpar
      have := h.injective hpar' hs (child_inj (he'.symm.trans he)).1
      subst this
      rw [hpar'] at hs
      cases hs
      rw [hp] at hc
      rcases hc with hc | hc <;> cases hc
  constructor
  · obtain ⟨c, hr⟩ := wf.root
    rw [extended_old hr, h.root]
  · intro j parent s hj hpar
    obtain ⟨rfl, rfl⟩ | ⟨-, hj⟩ | ⟨k, nullable, rfl, hk, rfl⟩ := get?_grow_cases hs hj
    · obtain ⟨p, hp'⟩ := wf.parent_valid hs hpar
      obtain ⟨segment, he⟩ := h.of_parent hs hpar
      exact ⟨segment, by rw [extended_old hs, extended_old hp', he]⟩
    · obtain ⟨p, hp'⟩ := wf.parent_valid hj hpar
      obtain ⟨segment, he⟩ := h.of_parent hj hpar
      exact ⟨segment, by rw [extended_old hj, extended_old hp', he]⟩
    · cases hpar
      obtain ⟨segment, hseg⟩ := hseg hk
      exact ⟨segment, by rw [extended_new hseg, extended_old hs]⟩
  · intro a b s s' ha hb he
    have hcases : ∀ {j : Nat} {s : Slot}, (t.grow id flags content).get? j = some s →
        (∃ s', t.get? j = some s') ∨ ∃ k segment, j = t.slots.size + k ∧
          segments[k]? = some segment := by
      intro j s hj
      obtain ⟨rfl, -⟩ | ⟨-, hj⟩ | ⟨k, nullable, rfl, hk, -⟩ := get?_grow_cases hs hj
      · exact .inl ⟨slot, hs⟩
      · exact .inl ⟨s, hj⟩
      · obtain ⟨segment, hseg⟩ := hseg hk
        exact .inr ⟨k, segment, rfl, hseg⟩
    obtain ⟨sa, ha⟩ | ⟨ka, a', rfl, hka⟩ := hcases ha <;>
      obtain ⟨sb, hb⟩ | ⟨kb, b', rfl, hkb⟩ := hcases hb
    · rw [extended_old ha, extended_old hb] at he
      exact h.injective ha hb he
    · rw [extended_old ha, extended_new hkb] at he
      exact absurd he (hfree ha)
    · rw [extended_new hka, extended_old hb] at he
      exact absurd he.symm (hfree hb)
    · rw [extended_new hka, extended_new hkb] at he
      obtain ⟨-, rfl⟩ := child_inj he
      have hlt := (List.getElem?_eq_some_iff.1 hka).1
      rw [(List.getElem?_inj hlt hnodup).1 (hka.trans hkb.symm)]
  · intro j child s segment hj hl
    obtain ⟨rfl, rfl⟩ | ⟨-, hj⟩ | ⟨k, nullable, rfl, hk, rfl⟩ := get?_grow_cases hs hj
    · obtain ⟨k, hk, rfl⟩ := hleads hl
      rw [extended_new hk, extended_old hs]
    · obtain ⟨c, hc, -⟩ := wf.parent_of_child hj hl.mem_children
      rw [extended_old hj, extended_old hc, h.of_leads hj hl]
    · cases hl

end Places

end ResponseTree

end GraphQL
