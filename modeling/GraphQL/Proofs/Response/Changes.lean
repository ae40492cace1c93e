import GraphQL.Proofs.Response.Visits

/-!
# Responses as they change

While a response is built, slots that are live and pending get content and live slots become null
(`Change`). Whatever the order, the slots stay a tree: the ways up from a slot come to an end
(`checks_isLive`, `bubbles_nulled`), a live slot is listed once, and a null changes one slot. What
is cut off by a null stays so, since no change makes a slot live again (`Changes.isLive_of`).
-/

namespace GraphQL.ResponseTree

variable {t t' : ResponseTree} {id : Nat} {slot : Slot}

/-! ## The ways up, without a bound -/

/-- `isLive` goes up from a slot until it finds a null or passes the top, and answers. -/
inductive Checks (t : ResponseTree) : Nat → Bool → Prop where
  | null {id : Nat} {slot : Slot} : t.get? id = some slot → slot.content = .null → Checks t id false
  | top {id : Nat} {slot : Slot} : t.get? id = some slot → slot.content ≠ .null →
      slot.parent = none → Checks t id true
  | up {id parent : Nat} {slot : Slot} {live : Bool} : t.get? id = some slot →
      slot.content ≠ .null → slot.parent = some parent → Checks t parent live → Checks t id live

/-- A null goes up from a slot that may not be null, until it finds one that may be or is at the
top. -/
inductive Bubbles (t : ResponseTree) : Nat → Nat → Prop where
  | here {id : Nat} {slot : Slot} : t.get? id = some slot →
      slot.nullable = true ∨ slot.parent = none → Bubbles t id id
  | up {id parent target : Nat} {slot : Slot} : t.get? id = some slot → slot.nullable = false →
      slot.parent = some parent → Bubbles t parent target → Bubbles t id target

theorem checks_isLive (wf : t.WellFormed) (h : t.get? id = some slot) :
    Checks t id (t.isLive id) := by
  have step : ∀ {id : Nat} {slot : Slot}, t.get? id = some slot →
      (∀ parent, slot.parent = some parent → Checks t parent (t.isLive parent)) →
        Checks t id (t.isLive id) := by
    intro id slot h hparent
    have hl := isLive_eq wf h
    by_cases hc : slot.content = .null
    · rw [Bool.eq_false_iff.2 fun hlive => (hl.1 hlive).1 hc]
      exact .null h hc
    · cases hp : slot.parent with
      | none =>
        rw [hl.2 ⟨hc, fun parent hp' => by rw [hp] at hp'; cases hp'⟩]
        exact .top h hc hp
      | some parent =>
        have he : t.isLive id = t.isLive parent := Bool.eq_iff_iff.2
          ⟨fun hlive => (hl.1 hlive).2 parent hp, fun hlive => hl.2 ⟨hc, fun other hp' => by
            rw [hp] at hp'
            cases hp'
            exact hlive⟩⟩
        rw [he]
        exact .up h hc hp (hparent parent hp)
  refine wf.parent_induction (motive := fun id => Checks t id (t.isLive id)) ?_ ?_ h
  · obtain ⟨content, hroot⟩ := wf.root
    exact step hroot fun parent hp => by cases hp
  · intro id parent slot h hp ih
    refine step h fun other hp' => ?_
    rw [hp] at hp'
    cases hp'
    exact ih

theorem bubbles_nulled (wf : t.WellFormed) (h : t.get? id = some slot) :
    Bubbles t id (t.nulled id) := by
  refine nulled_induction wf (motive := fun id => Bubbles t id (t.nulled id)) ?_ ?_ h
  · intro id slot h hn he
    rw [he]
    exact .here h (.inl hn)
  · intro id parent slot h hn hp he ih
    rw [he]
    exact .up h hn hp ih

/-! ## Changes -/

inductive Change where
  | object (id : Nat) (keys : List (String × Bool))
  | list (id count : Nat) (nullable : Bool)
  | leaf (id : Nat) (value : Json)
  | null (id : Nat)

def Change.apply (t : ResponseTree) : Change → ResponseTree
  | object id keys => (t.setObject id keys).2
  | list id count nullable => (t.setList id count nullable).2
  | leaf id value => t.setLeaf id value
  | null id => t.setNull id

/-- A live slot. -/
def IsLive (t : ResponseTree) (id : Nat) : Prop :=
  t.isLive id = true ∧ ∃ slot, t.get? id = some slot

/-- A live slot that has no content yet. -/
def IsOpen (t : ResponseTree) (id : Nat) : Prop :=
  t.isLive id = true ∧ ∃ slot, t.get? id = some slot ∧ slot.content = .pending

/-- Content comes to slots that are open, and does not say null; null comes to live slots. -/
def Change.Allowed (t : ResponseTree) : Change → Prop
  | object id keys => t.IsOpen id ∧ (keys.map Prod.fst).Nodup
  | list id _ _ => t.IsOpen id
  | leaf id value => t.IsOpen id ∧ value ≠ .null
  | null id => t.IsLive id

/-- Allowed changes lead from one response to another. -/
inductive Changes : ResponseTree → ResponseTree → Prop where
  | refl (t : ResponseTree) : Changes t t
  | step {t t' : ResponseTree} {c : Change} : c.Allowed t → Changes (c.apply t) t' → Changes t t'

theorem Changes.trans {a b c : ResponseTree} (h1 : Changes a b) (h2 : Changes b c) :
    Changes a c := by
  induction h1 with
  | refl => exact h2
  | step hc _ ih => exact .step hc (ih h2)

/-- A change is growth of a pending slot with proper content, or a null. -/
theorem Change.Allowed.cases {c : Change} (h : c.Allowed t) :
    (∃ id slot flags content, t.get? id = some slot ∧ slot.content = .pending ∧
      content.children = t.nextIds flags.length ∧ content ≠ .null ∧ content.Proper ∧
        c.apply t = t.grow id flags content) ∨
    ∃ id slot, t.get? id = some slot ∧ c.apply t = t.setNull id := by
  cases c with
  | object id keys =>
    obtain ⟨⟨-, slot, hs, hp⟩, hkeys⟩ := h
    have hlen : (keys.map Prod.fst).length = (t.nextIds keys.length).length := by simp [nextIds]
    refine .inl ⟨id, slot, keys.map Prod.snd,
      .object ((keys.map Prod.fst).zip (t.nextIds keys.length)), hs, hp, ?_, by simp, ⟨?_, ?_⟩, rfl⟩
    · rw [List.length_map]
      exact List.map_snd_zip (Nat.le_of_eq hlen.symm)
    · show (((keys.map Prod.fst).zip _).map Prod.fst).Nodup
      rw [List.map_fst_zip (Nat.le_of_eq hlen)]
      exact hkeys
    · show (((keys.map Prod.fst).zip _).map Prod.snd).Nodup
      rw [List.map_snd_zip (Nat.le_of_eq hlen.symm)]
      exact List.nodup_range' ..
  | list id count nullable =>
    obtain ⟨-, slot, hs, hp⟩ := h
    refine .inl ⟨id, slot, List.replicate count nullable, .list (t.nextIds count), hs, hp, ?_,
      by simp, List.nodup_range' .., rfl⟩
    rw [List.length_replicate]
    rfl
  | leaf id value =>
    obtain ⟨⟨-, slot, hs, hp⟩, hvalue⟩ := h
    exact .inl ⟨id, slot, [], .leaf value, hs, hp, rfl, by simp, hvalue, rfl⟩
  | null id =>
    obtain ⟨-, slot, hs⟩ := h
    exact .inr ⟨id, slot, hs, rfl⟩

theorem orderly_fresh : fresh.Orderly where
  wellFormed := wellFormed_fresh
  proper hs := by
    obtain ⟨-, rfl⟩ := get?_fresh hs
    trivial

theorem Orderly.grow (h : t.Orderly) (hs : t.get? id = some slot) (hp : slot.content = .pending)
    {flags : List Bool} {content : Content} (hc : content.children = t.nextIds flags.length)
    (hn : content ≠ .null) (hproper : content.Proper) : (t.grow id flags content).Orderly where
  wellFormed := wellFormed_grow h.wellFormed hs hp hc hn
  proper {j s} hj := by
    obtain ⟨rfl, rfl⟩ | ⟨-, hj⟩ | ⟨k, nullable, rfl, -, rfl⟩ := get?_grow_cases hs hj
    · exact hproper
    · exact h.proper hj
    · trivial

theorem Orderly.setNull (h : t.Orderly) (hs : t.get? id = some slot) : (t.setNull id).Orderly where
  wellFormed := wellFormed_setNull h.wellFormed hs
  proper {j s} hj := by
    rw [get?_setNull] at hj
    split at hj
    · obtain ⟨s', -, rfl⟩ := Option.map_eq_some_iff.1 hj
      trivial
    · exact h.proper hj

theorem Change.Allowed.orderly {c : Change} (hc : c.Allowed t) (h : t.Orderly) :
    (c.apply t).Orderly := by
  obtain ⟨id, slot, flags, content, hs, hp, hchildren, hn, hproper, he⟩ | ⟨id, slot, hs, he⟩ :=
    hc.cases
  · rw [he]
    exact h.grow hs hp hchildren hn hproper
  · rw [he]
    exact h.setNull hs

theorem Change.Allowed.extends {c : Change} (hc : c.Allowed t) : Extends t (c.apply t) := by
  obtain ⟨id, slot, flags, content, hs, hp, -, -, -, he⟩ | ⟨id, slot, -, he⟩ := hc.cases
  · rw [he]
    exact extends_grow hs (by simp [hp]) flags content
  · rw [he]
    exact extends_setNull t id

theorem Changes.orderly (hc : Changes t t') (h : t.Orderly) : t'.Orderly := by
  induction hc with
  | refl => exact h
  | step hc _ ih => exact ih (hc.orderly h)

theorem Changes.extends (hc : Changes t t') : Extends t t' := by
  induction hc with
  | refl t => exact Extends.refl t
  | step hc _ ih => exact hc.extends.trans ih

/-- What is live was live before. -/
theorem Changes.isLive_of (hc : Changes t t') (h : t.Orderly) (hs : t.get? id = some slot)
    (hl : t'.isLive id = true) : t.isLive id = true :=
  hc.extends.isLive_of h.wellFormed (hc.orderly h).wellFormed hs hl

/-! ## Lists and nulls -/

/-- The parent of a slot lists it once, and no other slot lists it. -/
def ListedOnce (t : ResponseTree) (id : Nat) : Prop :=
  ∃ slot parent above, t.get? id = some slot ∧ slot.parent = some parent ∧
    t.get? parent = some above ∧ above.content.children.count id = 1 ∧
      ∀ other s, t.get? other = some s → id ∈ s.content.children → other = parent

/-- `target` is the closest slot at or above `id` that may be null. -/
structure Closest (t : ResponseTree) (id target : Nat) : Prop where
  within : Within t target id
  nullable : ∃ slot, t.get? target = some slot ∧ slot.nullable = true
  below : ∀ {above : Nat} {slot}, Within t above id → t.get? above = some slot →
    slot.nullable = true → Within t above target

/-- The two differ in one slot, which has become null. -/
def Nulls (t t' : ResponseTree) (target : Nat) : Prop :=
  ∃ slot, t.get? target = some slot ∧ slot.content ≠ .null ∧ ∀ other, t'.get? other =
    if other = target then some { slot with content := .null } else t.get? other

theorem Orderly.listedOnce (h : t.Orderly) (hs : t.get? id = some slot) (hl : t.isLive id = true)
    (hne : id ≠ root) : t.ListedOnce id := by
  have wf := h.wellFormed
  obtain ⟨parent, hp, -⟩ := wf.parent_lt hs hne
  obtain ⟨above, ha, hc⟩ := wf.child_of_parent hs hp
  have hparent := ((isLive_eq wf hs).1 hl).2 parent hp
  have hmem := hc.resolve_left ((isLive_eq wf ha).1 hparent).1
  refine ⟨slot, parent, above, hs, hp, ha,
    List.count_eq_one_of_mem (h.proper ha).nodup_children hmem, fun other s ho hm => ?_⟩
  obtain ⟨slot', hs', hp'⟩ := wf.parent_of_child ho hm
  rw [hs] at hs'
  cases hs'
  rw [hp] at hp'
  exact (Option.some.inj hp').symm

theorem closest_nulled (wf : t.WellFormed) (hs : t.get? id = some slot) :
    t.Closest id (t.nulled id) where
  within := within_nulled wf hs
  nullable := nulled_nullable wf hs
  below hw ha hn := within_nulled_of_nullable wf hs ha hn hw

theorem nulls_setNull (wf : t.WellFormed) (hs : t.get? id = some slot) (hl : t.isLive id = true) :
    t.Nulls (t.setNull id) (t.nulled id) := by
  have hw := within_nulled wf hs
  obtain ⟨s, hs', -⟩ := nulled_nullable wf hs
  refine ⟨s, hs', (isLive_iff wf hs).1 hl _ s hw hs', fun other => ?_⟩
  rw [get?_setNull]
  split
  · next he =>
    rw [he, hs']
    rfl
  · rfl

/-- The slots of a response under construction stay a tree, and nulls are final. -/
theorem changes_tree (h : Changes fresh t) :
    (∀ {id slot}, t.get? id = some slot → id ≠ root →
      ∃ parent, slot.parent = some parent ∧ parent < id) ∧
    (∀ {id slot}, t.get? id = some slot →
      Checks t id (t.isLive id) ∧ Bubbles t id (t.nulled id)) ∧
    (∀ {id}, t.IsLive id → id ≠ root → t.ListedOnce id) ∧
    (∀ {id}, t.IsLive id →
      t.Closest id (t.nulled id) ∧ t.Nulls (t.setNull id) (t.nulled id)) ∧
    (∀ {t'}, Changes t t' → ∀ {id slot}, t.get? id = some slot → t.isLive id = false →
      t'.isLive id = false) ∧
    (∀ {fuel}, t.slots.size ≤ fuel → (t.take fuel root).run [] = (t.toJson, t.visits)) ∧
    t.visits.Nodup ∧
    (∀ {id}, id ∈ t.visits ↔ ∃ path, t.at? path = some id) ∧
    (∀ {id}, t.IsLive id → id ∈ t.visits) ∧
    ∀ {path id}, t.at? path = some id → ∃ slot, t.get? id = some slot ∧
      (t.toJson.at? path = some .null ↔ slot.content = .null ∨ slot.content = .pending) := by
  have ho := h.orderly orderly_fresh
  have wf := ho.wellFormed
  refine ⟨wf.parent_lt, fun hs => ⟨checks_isLive wf hs, bubbles_nulled wf hs⟩, ?_, ?_, ?_,
    take_visits ho, nodup_visits ho, mem_visits_iff ho, ?_, ?_⟩
  · rintro id ⟨hl, slot, hs⟩ hne
    exact ho.listedOnce hs hl hne
  · rintro id ⟨hl, slot, hs⟩
    exact ⟨closest_nulled wf hs, nulls_setNull wf hs hl⟩
  · intro t' hc id slot hs hl
    refine Bool.eq_false_iff.2 fun hl' => ?_
    rw [hc.isLive_of ho hs hl'] at hl
    cases hl
  · rintro id ⟨hl, slot, hs⟩
    exact (mem_visits_iff ho).2 (exists_at?_of_isLive ho hs hl)
  · intro path id hpath
    obtain ⟨slot, hs⟩ := get?_of_at? wf hpath
    refine ⟨slot, hs, ?_⟩
    rw [toJson_eq, jsonOf_down? wf hpath, Option.some_inj]
    exact jsonOf_eq_null_iff ho hs

namespace Sample

/-- An object with a list of elements that may not be null, beside another field. -/
def thing : ResponseTree :=
  [Change.object root [("thing", true), ("other", true)], .leaf 2 (.string "ok"),
    .object 1 [("id", false)], .list 3 2 false].foldl Change.apply fresh

theorem changes_thing : Changes fresh thing := by
  have hopen : ∀ {t : ResponseTree} {id parent : Nat} {nullable : Bool}, t.isLive id = true →
      t.get? id = some ⟨some parent, nullable, .pending⟩ → t.IsOpen id :=
    fun hl hs => ⟨hl, _, hs, rfl⟩
  refine .step (c := .object root [("thing", true), ("other", true)])
    ⟨⟨rfl, _, rfl, rfl⟩, by decide⟩ ?_
  refine .step (c := .leaf 2 (.string "ok")) ⟨hopen rfl rfl, by simp⟩ ?_
  refine .step (c := .object 1 [("id", false)]) ⟨hopen rfl rfl, by decide⟩ ?_
  exact .step (c := .list 3 2 false) (hopen rfl rfl) (.refl _)

end Sample

/-- A null at the second element is a null for the object, and the first element is lost with it. -/
theorem changes_tree_thing : Changes fresh Sample.thing ∧ Sample.thing.nulled 5 = 1 ∧
    Sample.thing.ListedOnce 5 ∧ Sample.thing.Nulls (Sample.thing.setNull 5) 1 ∧
      ∀ t', Changes (Sample.thing.setNull 5) t' → t'.isLive 4 = false := by
  have hlive : Sample.thing.IsLive 5 := ⟨rfl, _, rfl⟩
  have hafter : Changes fresh (Sample.thing.setNull 5) :=
    Sample.changes_thing.trans (.step (c := .null 5) hlive (.refl _))
  obtain ⟨-, -, hlisted, hnull, -⟩ := changes_tree Sample.changes_thing
  obtain ⟨-, -, -, -, hfinal, -⟩ := changes_tree hafter
  exact ⟨Sample.changes_thing, rfl, hlisted hlive (by decide), (hnull hlive).2,
    fun t' ht => hfinal ht (show (Sample.thing.setNull 5).get? 4 = some _ from rfl) rfl⟩

end GraphQL.ResponseTree
