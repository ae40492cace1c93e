import GraphQL.Response.Tree

/-!
# Slots form a tree

`WellFormed t` says that the slots of a response hang together: parents have smaller numbers, a
slot is listed by its parent unless the parent is null, and only slots that may be null are null.
`Within t above id` is the order of the tree, by which `isLive` and `nulled` are characterised. The
two ways in which a response changes, `grow` for a slot that gets content and `setNull`, keep a
tree well-formed and are described slot by slot.
-/

namespace GraphQL.ResponseTree

/-! ## Order -/

/-- The slots that content lists. -/
def Content.children : Content → List Nat
  | .list items => items
  | .object fields => fields.map Prod.snd
  | _ => []

/-- `id` is the slot `above` or lies below it. -/
inductive Within (t : ResponseTree) (above : Nat) : Nat → Prop where
  | self : Within t above above
  | child {id parent : Nat} {slot : Slot} : t.get? id = some slot → slot.parent = some parent →
      Within t above parent → Within t above id

structure WellFormed (t : ResponseTree) : Prop where
  root : ∃ content, t.get? root = some ⟨none, true, content⟩
  parent_lt : ∀ {id : Nat} {slot}, t.get? id = some slot → id ≠ ResponseTree.root →
    ∃ parent : Nat, slot.parent = some parent ∧ parent < id
  parent_of_child : ∀ {id : Nat} {slot child}, t.get? id = some slot → child ∈ slot.content.children →
    ∃ s, t.get? child = some s ∧ s.parent = some id
  child_of_parent : ∀ {id parent : Nat} {slot}, t.get? id = some slot → slot.parent = some parent →
    ∃ s, t.get? parent = some s ∧ (s.content = .null ∨ id ∈ s.content.children)
  null : ∀ {id : Nat} {slot}, t.get? id = some slot → slot.content = .null → slot.nullable = true

section

variable {t t' : ResponseTree} {id above parent child : Nat} {slot : Slot}

theorem lt_size (h : t.get? id = some slot) : id < t.slots.size := by
  unfold get? at h
  rw [Array.getElem?_eq_some_iff] at h
  exact h.1

theorem get?_of_lt (h : id < t.slots.size) : ∃ slot, t.get? id = some slot :=
  ⟨t.slots[id], Array.getElem?_eq_getElem h⟩

theorem Within.trans {a b c : Nat} (h1 : Within t a b) (h2 : Within t b c) : Within t a c := by
  induction h2 with
  | self => exact h1
  | child hg hp _ ih => exact .child hg hp ih

/-- Of two slots around a third, one lies within the other. -/
theorem Within.total {a b : Nat} (ha : Within t a id)
    (hb : Within t b id) : Within t a b ∨ Within t b a := by
  induction ha with
  | self => exact .inr hb
  | child hg hp hw ih =>
    cases hb with
    | self => exact .inl (.child hg hp hw)
    | child hg' hp' hb' =>
      rw [hg] at hg'
      cases hg'
      rw [hp] at hp'
      cases hp'
      exact ih hb'

namespace WellFormed

theorem lt_of_parent (wf : t.WellFormed) (h : t.get? id = some slot)
    (hp : slot.parent = some parent) : parent < id := by
  by_cases hr : id = ResponseTree.root
  · obtain ⟨content, hc⟩ := wf.root
    subst hr
    rw [hc] at h
    cases h
    cases hp
  · obtain ⟨p, hp', hlt⟩ := wf.parent_lt h hr
    rw [hp] at hp'
    cases hp'
    exact hlt

theorem lt_of_child (wf : t.WellFormed) (h : t.get? id = some slot)
    (hc : child ∈ slot.content.children) : id < child := by
  obtain ⟨s, hs, hp⟩ := wf.parent_of_child h hc
  exact wf.lt_of_parent hs hp

theorem le_of_within (wf : t.WellFormed) (h : Within t above id) : above ≤ id := by
  induction h with
  | self => exact Nat.le_refl _
  | child hg hp _ ih =>
    have := wf.lt_of_parent hg hp
    omega

theorem parent_valid (wf : t.WellFormed) (h : t.get? id = some slot)
    (hp : slot.parent = some parent) : ∃ s, t.get? parent = some s := by
  obtain ⟨s, hs, -⟩ := wf.child_of_parent h hp
  exact ⟨s, hs⟩

theorem eq_root_of_parent (wf : t.WellFormed) (h : t.get? id = some slot)
    (hp : slot.parent = none) : id = ResponseTree.root := by
  by_cases hr : id = ResponseTree.root
  · exact hr
  · obtain ⟨p, hp', -⟩ := wf.parent_lt h hr
    rw [hp] at hp'
    cases hp'

/-- What holds of the root and goes from parents to children holds of all slots. -/
theorem parent_induction (wf : t.WellFormed) {motive : Nat → Prop}
    (root : motive ResponseTree.root)
    (child : ∀ {id parent : Nat} {slot}, t.get? id = some slot → slot.parent = some parent →
      motive parent → motive id) : ∀ {id slot}, t.get? id = some slot → motive id := by
  intro id
  induction id using Nat.strongRecOn with
  | ind id ih =>
    intro slot h
    cases hp : slot.parent with
    | none => exact wf.eq_root_of_parent h hp ▸ root
    | some parent =>
      obtain ⟨s, hs⟩ := wf.parent_valid h hp
      exact child h hp (ih parent (wf.lt_of_parent h hp) hs)

end WellFormed

/-! ## The beginning -/

theorem get?_fresh {id : Nat} {slot : Slot} (h : fresh.get? id = some slot) :
    id = root ∧ slot = ⟨none, true, .pending⟩ := by
  match id, h with
  | 0, h => exact ⟨rfl, by simpa [fresh, get?] using h.symm⟩
  | id + 1, h => simp [fresh, get?] at h

theorem wellFormed_fresh : fresh.WellFormed where
  root := ⟨.pending, rfl⟩
  parent_lt h hr := absurd (get?_fresh h).1 hr
  parent_of_child h hc := by
    obtain ⟨-, rfl⟩ := get?_fresh h
    cases hc
  child_of_parent h hp := by
    obtain ⟨-, rfl⟩ := get?_fresh h
    cases hp
  null h hn := by
    obtain ⟨-, rfl⟩ := get?_fresh h
    cases hn

/-! ## Liveness and the way of a null -/

theorem liveFrom_eq (wf : t.WellFormed) :
    ∀ {fuel fuel' : Nat} {id : Nat}, id < fuel → id < fuel' →
      t.liveFrom fuel id = t.liveFrom fuel' id := by
  intro fuel
  induction fuel with
  | zero => intro _ _ h; omega
  | succ fuel ih =>
    intro fuel' id h h'
    obtain ⟨fuel', rfl⟩ : ∃ n, fuel' = n + 1 := ⟨fuel' - 1, by omega⟩
    rw [liveFrom, liveFrom]
    split
    · rfl
    · next parent _ _ hnull hg =>
      have := wf.lt_of_parent hg rfl
      exact ih (by omega) (by omega)
    · rfl

theorem isLive_eq (wf : t.WellFormed) (h : t.get? id = some slot) :
    t.isLive id = true ↔
      slot.content ≠ .null ∧ ∀ parent, slot.parent = some parent → t.isLive parent = true := by
  obtain ⟨parent, nullable, content⟩ := slot
  have hp : ∀ p, parent = some p → t.liveFrom id p = t.isLive p := fun p hp =>
    liveFrom_eq wf (wf.lt_of_parent h hp) (Nat.lt_succ_self p)
  unfold isLive
  rw [liveFrom, h]
  cases content <;> cases parent <;> simp_all [isLive]

/-- A slot is live when neither it nor a slot above it is null. -/
theorem isLive_iff (wf : t.WellFormed) (h : t.get? id = some slot) :
    t.isLive id = true ↔
      ∀ above s, Within t above id → t.get? above = some s → s.content ≠ .null := by
  induction id using Nat.strongRecOn generalizing slot with
  | ind id ih =>
    rw [isLive_eq wf h]
    constructor
    · intro ⟨hc, hl⟩ above s hw hs
      cases hw with
      | self =>
        rw [h] at hs
        cases hs
        exact hc
      | child hg hp hw =>
        rw [h] at hg
        cases hg
        obtain ⟨p, hp'⟩ := wf.parent_valid h hp
        exact (ih _ (wf.lt_of_parent h hp) hp').1 (hl _ hp) above s hw hs
    · intro hall
      refine ⟨hall id slot .self h, fun parent hp => ?_⟩
      obtain ⟨p, hp'⟩ := wf.parent_valid h hp
      exact (ih _ (wf.lt_of_parent h hp) hp').2
        fun above s hw hs => hall above s (.child h hp hw) hs

theorem nullTarget_eq (wf : t.WellFormed) :
    ∀ {fuel fuel' : Nat} {id : Nat}, id < fuel → id < fuel' →
      t.nullTarget fuel id = t.nullTarget fuel' id := by
  intro fuel
  induction fuel with
  | zero => intro _ _ h; omega
  | succ fuel ih =>
    intro fuel' id h h'
    obtain ⟨fuel', rfl⟩ : ∃ n, fuel' = n + 1 := ⟨fuel' - 1, by omega⟩
    rw [nullTarget, nullTarget]
    split
    · next parent _ hg =>
      have := wf.lt_of_parent hg rfl
      exact ih (by omega) (by omega)
    · rfl

theorem nulled_of_nullable (h : t.get? id = some slot)
    (hn : slot.nullable = true) : t.nulled id = id := by
  obtain ⟨parent, nullable, content⟩ := slot
  cases parent <;> cases hn <;> simp [nulled, nullTarget, h]

theorem nulled_of_parent (wf : t.WellFormed) (h : t.get? id = some slot)
    (hn : slot.nullable = false) (hp : slot.parent = some parent) :
    t.nulled id = t.nulled parent := by
  obtain ⟨_, _, content⟩ := slot
  cases hn
  cases hp
  simp only [nulled, nullTarget, h]
  exact nullTarget_eq wf (wf.lt_of_parent h rfl) (Nat.lt_succ_self parent)

theorem parent_of_not_nullable (wf : t.WellFormed) (h : t.get? id = some slot)
    (hn : slot.nullable = false) : ∃ parent, slot.parent = some parent := by
  cases hp : slot.parent with
  | some parent => exact ⟨parent, rfl⟩
  | none =>
    obtain ⟨content, hr⟩ := wf.root
    rw [wf.eq_root_of_parent h hp, hr] at h
    cases h
    cases hn

/-- Goes up from a slot to the one that becomes null in its place. -/
theorem nulled_induction (wf : t.WellFormed) {motive : Nat → Prop}
    (stays : ∀ {id : Nat} {slot}, t.get? id = some slot → slot.nullable = true →
      t.nulled id = id → motive id)
    (moves : ∀ {id parent : Nat} {slot}, t.get? id = some slot → slot.nullable = false →
      slot.parent = some parent → t.nulled id = t.nulled parent → motive parent → motive id) :
    ∀ {id slot}, t.get? id = some slot → motive id := by
  intro id
  induction id using Nat.strongRecOn with
  | ind id ih =>
    intro slot h
    cases hn : slot.nullable with
    | true => exact stays h hn (nulled_of_nullable h hn)
    | false =>
      obtain ⟨parent, hp⟩ := parent_of_not_nullable wf h hn
      obtain ⟨s, hs⟩ := wf.parent_valid h hp
      exact moves h hn hp (nulled_of_parent wf h hn hp) (ih parent (wf.lt_of_parent h hp) hs)

theorem within_nulled (wf : t.WellFormed) (h : t.get? id = some slot) :
    Within t (t.nulled id) id := by
  refine nulled_induction wf (motive := fun id => Within t (t.nulled id) id) ?_ ?_ h
  · intro id slot _ _ he
    rw [he]
    exact .self
  · intro id slot parent h _ hp he ih
    rw [he]
    exact .child h hp ih

theorem nulled_nullable (wf : t.WellFormed) (h : t.get? id = some slot) :
    ∃ s, t.get? (t.nulled id) = some s ∧ s.nullable = true := by
  refine nulled_induction wf
    (motive := fun id => ∃ s, t.get? (t.nulled id) = some s ∧ s.nullable = true) ?_ ?_ h
  · intro id slot h hn he
    rw [he]
    exact ⟨slot, h, hn⟩
  · intro id slot parent _ _ _ he ih
    rw [he]
    exact ih

/-- What is at or above a slot and may be null is at or above the one that becomes null. -/
theorem within_nulled_of_nullable (wf : t.WellFormed) (h : t.get? id = some slot) {above : Nat}
    {s : Slot} (hs : t.get? above = some s) (hn : s.nullable = true) (hw : Within t above id) :
    Within t above (t.nulled id) := by
  refine nulled_induction wf (motive := fun id => Within t above id → Within t above (t.nulled id))
    ?_ ?_ h hw
  · intro id slot _ _ he hw
    rw [he]
    exact hw
  · intro id slot parent h hnot hp he ih hw
    rw [he]
    cases hw with
    | self =>
      rw [hs] at h
      cases h
      rw [hn] at hnot
      cases hnot
    | child hg hp' hw =>
      rw [h] at hg
      cases hg
      rw [hp] at hp'
      cases hp'
      exact ih hw

/-! ## Changes -/

theorem get?_pushAll (t : ResponseTree) (parent : Nat) (flags : List Bool) (j : Nat) :
    (t.pushAll parent flags).get? j =
      if j < t.slots.size then t.get? j
      else (flags[j - t.slots.size]?).map fun nullable => ⟨some parent, nullable, .pending⟩ := by
  unfold pushAll
  induction flags generalizing t with
  | nil =>
    by_cases hj : j < t.slots.size
    · simp [hj]
    · simp [hj, get?]
  | cons f flags ih =>
    rw [List.foldl_cons, ih]
    have hsize : (t.push parent f).slots.size = t.slots.size + 1 := by simp [push]
    rw [hsize]
    by_cases hj : j < t.slots.size
    · have : j < t.slots.size + 1 := by omega
      simp [hj, this, push, get?, Array.getElem_push_lt hj]
    · by_cases he : j = t.slots.size
      · subst he
        simp [push, get?]
      · have h1 : ¬ j < t.slots.size + 1 := by omega
        obtain ⟨k, hk⟩ : ∃ k, j - t.slots.size = k + 1 := ⟨j - t.slots.size - 1, by omega⟩
        have h2 : j - (t.slots.size + 1) = k := by omega
        rw [if_neg h1, if_neg hj, hk, h2, List.getElem?_cons_succ]

theorem get?_setContent (t : ResponseTree) (id j : Nat) (content : Content) :
    (t.setContent id content).get? j =
      if j = id then (t.get? id).map fun slot => { slot with content := content }
      else t.get? j := by
  unfold setContent
  cases h : t.get? id with
  | none =>
    by_cases hj : j = id
    · simp [hj, h]
    · simp [hj]
  | some slot =>
    have hlt := lt_size h
    by_cases hj : j = id
    · simp [hj, get?, hlt]
    · simp [hj, get?, Ne.symm hj]

@[simp] theorem size_setContent (t : ResponseTree) (id : Nat) (content : Content) :
    (t.setContent id content).slots.size = t.slots.size := by
  unfold setContent
  split <;> simp

/-- Gives a slot content, together with pending slots below it. -/
def grow (t : ResponseTree) (id : Nat) (flags : List Bool) (content : Content) : ResponseTree :=
  (t.pushAll id flags).setContent id content

theorem setObject_eq (t : ResponseTree) (id : Nat) (keys : List (String × Bool)) :
    t.setObject id keys = (t.nextIds keys.length, t.grow id (keys.map Prod.snd)
      (.object ((keys.map Prod.fst).zip (t.nextIds keys.length)))) := rfl

theorem setList_eq (t : ResponseTree) (id count : Nat) (nullable : Bool) :
    t.setList id count nullable = (t.nextIds count,
      t.grow id (List.replicate count nullable) (.list (t.nextIds count))) := rfl

theorem get?_grow_self (h : t.get? id = some slot) (flags : List Bool) (content : Content) :
    (t.grow id flags content).get? id = some { slot with content := content } := by
  simp [grow, get?_setContent, get?_pushAll, lt_size h, h]

theorem get?_grow_old {flags : List Bool} {content : Content} {j : Nat} (hj : j ≠ id)
    (hlt : j < t.slots.size) : (t.grow id flags content).get? j = t.get? j := by
  simp [grow, get?_setContent, get?_pushAll, hj, hlt]

theorem get?_grow_new (h : t.get? id = some slot) {flags : List Bool} {content : Content}
    {k : Nat} {nullable : Bool} (hk : flags[k]? = some nullable) :
    (t.grow id flags content).get? (t.slots.size + k) = some ⟨some id, nullable, .pending⟩ := by
  have := lt_size h
  have hne : t.slots.size + k ≠ id := by omega
  have hle : ¬ t.slots.size + k < t.slots.size := by omega
  simp [grow, get?_setContent, get?_pushAll, hne, hle, hk]

/-- A slot after growth is the one that grew, another one from before, or a new one. -/
theorem get?_grow_cases (h : t.get? id = some slot) {flags : List Bool} {content : Content}
    {j : Nat} {s : Slot} (hs : (t.grow id flags content).get? j = some s) :
    (j = id ∧ s = { slot with content := content }) ∨ (j ≠ id ∧ t.get? j = some s) ∨
      ∃ k nullable, j = t.slots.size + k ∧ flags[k]? = some nullable ∧
        s = ⟨some id, nullable, .pending⟩ := by
  by_cases hj : j = id
  · rw [hj, get?_grow_self h] at hs
    exact .inl ⟨hj, (Option.some.inj hs).symm⟩
  · by_cases hlt : j < t.slots.size
    · rw [get?_grow_old hj hlt] at hs
      exact .inr (.inl ⟨hj, hs⟩)
    · simp only [grow, get?_setContent, if_neg hj, get?_pushAll, if_neg hlt,
        Option.map_eq_some_iff] at hs
      obtain ⟨nullable, hn, rfl⟩ := hs
      exact .inr (.inr ⟨j - t.slots.size, nullable, by omega, hn, rfl⟩)

theorem mem_nextIds {count j : Nat} :
    j ∈ t.nextIds count ↔ ∃ k, k < count ∧ j = t.slots.size + k := by
  simp [nextIds, List.mem_range']

theorem getElem?_nextIds_of_lt {count k : Nat} (h : k < count) :
    (t.nextIds count)[k]? = some (t.slots.size + k) := by
  rw [nextIds, List.getElem?_range' h, Nat.one_mul]

theorem getElem?_nextIds {count k j : Nat} (h : (t.nextIds count)[k]? = some j) :
    j = t.slots.size + k ∧ k < count := by
  obtain ⟨hlt, he⟩ := List.getElem?_eq_some_iff.1 h
  rw [← he]
  simp only [nextIds, List.length_range'] at hlt
  simp only [nextIds, List.getElem_range', Nat.one_mul]
  exact ⟨trivial, hlt⟩

/-! ## What changes keep -/

/-- `t'` has the slots of `t` and perhaps more. Null is final, other content may change. -/
structure Extends (t t' : ResponseTree) : Prop where
  kept : ∀ {id : Nat} {slot}, t.get? id = some slot → ∃ content,
    t'.get? id = some { slot with content := content } ∧ (slot.content = .null → content = .null)

namespace Extends

theorem refl (t : ResponseTree) : Extends t t :=
  ⟨fun {_ slot} h => ⟨slot.content, h, id⟩⟩

theorem trans {a b c : ResponseTree} (h1 : Extends a b) (h2 : Extends b c) : Extends a c := by
  constructor
  intro id slot h
  obtain ⟨c1, hb, hn1⟩ := h1.kept h
  obtain ⟨c2, hc, hn2⟩ := h2.kept hb
  exact ⟨c2, hc, fun hn => hn2 (hn1 hn)⟩

theorem within_of (he : Extends t t') (h : Within t above id) : Within t' above id := by
  induction h with
  | self => exact .self
  | child hg hp _ ih =>
    obtain ⟨content, hg', -⟩ := he.kept hg
    exact .child hg' hp ih

/-- What lies above an old slot has not changed. -/
theorem within_iff (he : Extends t t') (wf : t.WellFormed) (h : t.get? id = some slot) :
    Within t' above id ↔ Within t above id := by
  constructor
  · intro hw
    induction hw generalizing slot with
    | self => exact .self
    | child hg hp _ ih =>
      obtain ⟨content, hg', -⟩ := he.kept h
      rw [hg] at hg'
      cases hg'
      obtain ⟨s, hs⟩ := wf.parent_valid h hp
      exact .child h hp (ih hs)
  · exact he.within_of

theorem nulled_eq (he : Extends t t') (wf : t.WellFormed) (wf' : t'.WellFormed)
    (h : t.get? id = some slot) : t'.nulled id = t.nulled id := by
  refine nulled_induction wf (motive := fun id => t'.nulled id = t.nulled id) ?_ ?_ h
  · intro id slot h hn hs
    obtain ⟨content, hg, -⟩ := he.kept h
    rw [hs, nulled_of_nullable hg hn]
  · intro id slot parent h hn hp hs ih
    obtain ⟨content, hg, -⟩ := he.kept h
    rw [nulled_of_parent wf' hg hn hp, ih, hs]

/-- What is live now was live before. -/
theorem isLive_of (he : Extends t t') (wf : t.WellFormed) (wf' : t'.WellFormed)
    (h : t.get? id = some slot) (hl : t'.isLive id = true) : t.isLive id = true := by
  rw [isLive_iff wf h]
  intro a s hw hs hn
  obtain ⟨content, hg, -⟩ := he.kept h
  obtain ⟨c, hs', hc⟩ := he.kept hs
  exact (isLive_iff wf' hg).1 hl a _ (he.within_of hw) hs' (hc hn)

end Extends

theorem extends_grow (h : t.get? id = some slot) (hp : slot.content ≠ .null)
    (flags : List Bool) (content : Content) : Extends t (t.grow id flags content) := by
  constructor
  intro j s hs
  by_cases hj : j = id
  · subst hj
    rw [h] at hs
    cases hs
    exact ⟨content, get?_grow_self h flags content, fun hn => absurd hn hp⟩
  · exact ⟨s.content, by rw [get?_grow_old hj (lt_size hs)]; exact hs, fun hn => hn⟩

theorem get?_setNull (t : ResponseTree) (id j : Nat) :
    (t.setNull id).get? j =
      if j = t.nulled id then (t.get? j).map fun slot => { slot with content := .null }
      else t.get? j := by
  unfold setNull
  rw [get?_setContent]
  split
  · next hj => rw [hj]
  · rfl

theorem extends_setNull (t : ResponseTree) (id : Nat) : Extends t (t.setNull id) := by
  constructor
  intro j s hs
  rw [get?_setNull, hs]
  split
  · exact ⟨.null, rfl, fun _ => rfl⟩
  · exact ⟨s.content, rfl, fun hn => hn⟩

theorem wellFormed_grow (wf : t.WellFormed) (h : t.get? id = some slot)
    (hp : slot.content = .pending) {flags : List Bool} {content : Content}
    (hc : content.children = t.nextIds flags.length) (hn : content ≠ .null) :
    (t.grow id flags content).WellFormed where
  root := by
    obtain ⟨c, hr⟩ := wf.root
    obtain ⟨c', hr', -⟩ := (extends_grow h (by rw [hp]; exact nofun) flags content).kept hr
    exact ⟨c', hr'⟩
  parent_lt := by
    intro j s hs hj
    obtain ⟨rfl, rfl⟩ | ⟨-, hs⟩ | ⟨k, nullable, rfl, -, rfl⟩ := get?_grow_cases h hs
    · have := wf.parent_lt h hj
      exact this
    · exact wf.parent_lt hs hj
    · have := lt_size h
      exact ⟨id, rfl, by omega⟩
  parent_of_child := by
    intro j s child hs hm
    obtain ⟨rfl, rfl⟩ | ⟨-, hs⟩ | ⟨k, nullable, rfl, -, rfl⟩ := get?_grow_cases h hs
    · rw [hc, mem_nextIds] at hm
      obtain ⟨k, hk, rfl⟩ := hm
      exact ⟨_, get?_grow_new h (List.getElem?_eq_getElem hk), rfl⟩
    · obtain ⟨s', hs', hp'⟩ := wf.parent_of_child hs hm
      obtain ⟨c, hg, -⟩ := (extends_grow h (by rw [hp]; exact nofun) flags content).kept hs'
      exact ⟨_, hg, hp'⟩
    · cases hm
  child_of_parent := by
    intro j parent s hs hps
    have up : ∀ {s : Slot}, t.get? j = some s → s.parent = some parent → ∃ s',
        (t.grow id flags content).get? parent = some s' ∧
          (s'.content = .null ∨ j ∈ s'.content.children) := by
      intro s hs hps
      obtain ⟨s', hs', hm⟩ := wf.child_of_parent hs hps
      by_cases he : parent = id
      · subst he
        rw [h] at hs'
        cases hs'
        rw [hp] at hm
        rcases hm with hm | hm <;> cases hm
      · exact ⟨s', by rw [get?_grow_old he (lt_size hs')]; exact hs', hm⟩
    obtain ⟨rfl, rfl⟩ | ⟨-, hs⟩ | ⟨k, nullable, rfl, hk, rfl⟩ := get?_grow_cases h hs
    · exact up h hps
    · exact up hs hps
    · cases hps
      refine ⟨_, get?_grow_self h flags content, .inr ?_⟩
      rw [hc, mem_nextIds]
      exact ⟨k, (List.getElem?_eq_some_iff.1 hk).1, rfl⟩
  null := by
    intro j s hs hnull
    obtain ⟨rfl, rfl⟩ | ⟨-, hs⟩ | ⟨k, nullable, rfl, -, rfl⟩ := get?_grow_cases h hs
    · exact absurd hnull hn
    · exact wf.null hs hnull
    · cases hnull

theorem wellFormed_setNull (wf : t.WellFormed) (h : t.get? id = some slot) :
    (t.setNull id).WellFormed := by
  have cases_of : ∀ {j : Nat} {s : Slot}, (t.setNull id).get? j = some s →
      ∃ s', t.get? j = some s' ∧ s.parent = s'.parent ∧ s.nullable = s'.nullable ∧
        (s.content = s'.content ∨ (j = t.nulled id ∧ s.content = .null)) := by
    intro j s hs
    rw [get?_setNull] at hs
    split at hs
    · next hj =>
      obtain ⟨s', hs', rfl⟩ := Option.map_eq_some_iff.1 hs
      exact ⟨s', hs', rfl, rfl, .inr ⟨hj, rfl⟩⟩
    · exact ⟨s, hs, rfl, rfl, .inl rfl⟩
  have he := extends_setNull t id
  constructor
  · obtain ⟨c, hr⟩ := wf.root
    obtain ⟨c', hr', -⟩ := he.kept hr
    exact ⟨c', hr'⟩
  · intro j s hs hj
    obtain ⟨s', hs', hp, -, -⟩ := cases_of hs
    rw [hp]
    exact wf.parent_lt hs' hj
  · intro j s child hs hm
    obtain ⟨s', hs', -, -, hc | ⟨-, hc⟩⟩ := cases_of hs
    · rw [hc] at hm
      obtain ⟨s2, hs2, hp2⟩ := wf.parent_of_child hs' hm
      obtain ⟨c, hg, -⟩ := he.kept hs2
      exact ⟨_, hg, hp2⟩
    · rw [hc] at hm
      cases hm
  · intro j parent s hs hps
    obtain ⟨s', hs', hp, -, -⟩ := cases_of hs
    rw [hp] at hps
    obtain ⟨sp, hsp, hm⟩ := wf.child_of_parent hs' hps
    rw [get?_setNull, hsp]
    split
    · exact ⟨_, rfl, .inl rfl⟩
    · exact ⟨_, rfl, hm⟩
  · intro j s hs hnull
    obtain ⟨s', hs', -, hn, hc | ⟨hj, -⟩⟩ := cases_of hs
    · rw [hn]
      exact wf.null hs' (hc ▸ hnull)
    · obtain ⟨s2, hs2, hn2⟩ := nulled_nullable wf h
      rw [hj, hs2] at hs'
      cases hs'
      rw [hn]
      exact hn2

/-- A slot that grows stays live, and so do all others. -/
theorem isLive_grow (wf : t.WellFormed) (h : t.get? id = some slot)
    (hp : slot.content = .pending) {flags : List Bool} {content : Content}
    (hc : content.children = t.nextIds flags.length) (hn : content ≠ .null) {j : Nat}
    (hj : j < t.slots.size) : (t.grow id flags content).isLive j = t.isLive j := by
  have wf' := wellFormed_grow wf h hp hc hn
  have he := extends_grow h (by rw [hp]; exact nofun) flags content
  obtain ⟨s, hs⟩ := get?_of_lt hj
  obtain ⟨c, hs', -⟩ := he.kept hs
  refine Bool.eq_iff_iff.2 ⟨he.isLive_of wf wf' hs, fun hl => ?_⟩
  rw [isLive_iff wf' hs']
  intro a sa hw hsa
  rw [he.within_iff wf hs] at hw
  obtain ⟨rfl, rfl⟩ | ⟨-, hsa⟩ | ⟨k, nullable, rfl, -, rfl⟩ := get?_grow_cases h hsa
  · exact hn
  · exact (isLive_iff wf hs).1 hl a sa hw hsa
  · exact nofun

end

end GraphQL.ResponseTree
