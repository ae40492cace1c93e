import GraphQL.Proofs.Document.Relaid
import GraphQL.Proofs.Plan.Built

/-!
# Collecting does not look at positions

Selections that differ in nothing but where they stand bring in fields that differ in nothing else,
and if something is wrong with some of them, so it is with the others (`like_flatten`).
-/

namespace GraphQL

/-- The selection without its positions. -/
def Selection.unplaced (item : Selection) : Selection :=
  item.moved .away

/-- The field without its positions. -/
def Field.unplaced (f : Field) : Field :=
  f.moved .away

theorem Field.items_unplaced (f : Field) :
    (Field.unplaced f).selections.items = f.selections.items.map Selection.unplaced :=
  movedSelections_eq_map .away f.selections.items

theorem map_unplaced_of_moved {xs ys : List Selection}
    (h : movedSelections .away xs = movedSelections .away ys) :
    xs.map Selection.unplaced = ys.map Selection.unplaced := by
  rwa [movedSelections_eq_map, movedSelections_eq_map] at h

variable {vars : Variables} {m : Move}

/-- Two results that agree where they are values are one value, or both are errors. -/
theorem Except.cases_of_toOption {ε α : Type} {r r' : Except ε α} (h : r.toOption = r'.toOption) :
    (∃ a, r = .ok a ∧ r' = .ok a) ∨ ∃ e e', r = .error e ∧ r' = .error e' := by
  cases r with
  | error e =>
    cases r' with
    | error e' => exact .inr ⟨e, e', rfl, rfl⟩
    | ok b => cases h
  | ok a =>
    cases r' with
    | error e' => cases h
    | ok b => exact .inl ⟨b, congrArg Except.ok (Option.some.inj h), rfl⟩

/-- A directive is decided by its name and its arguments. -/
theorem Directive.toOption_excludes (d : Directive Name) :
    ((d.moved m).excludes vars).toOption = (d.excludes vars).toOption := by
  have hfind : Argument.find? (d.arguments.map (Argument.moved m)) "if" =
      (Argument.find? d.arguments "if").map (Located.moved m) := by
    unfold Argument.find?
    rw [List.find?_map, Option.map_map, Option.map_map]
    rfl
  have hcondition : ((d.moved m).condition vars).toOption = (d.condition vars).toOption := by
    unfold condition
    rw [show (d.moved m).arguments = d.arguments.map (Argument.moved m) from rfl, hfind]
    cases Argument.find? d.arguments "if" with
    | none => rfl
    | some value =>
      simp only [Option.map_some, Located.moved]
      cases value.node.fill vars <;> rfl
  unfold excludes
  rw [show (d.moved m).name.node = d.name.node from rfl]
  split
  · exact hcondition
  split
  · have hmap : ∀ r : Except ConditionError Bool, (r.map not).toOption = r.toOption.map not := by
      intro r
      cases r <;> rfl
    rw [hmap, hmap, hcondition]
  · rfl

theorem Directive.toOption_anyExcludes (ds : List (Directive Name)) :
    (anyExcludes vars (ds.map (Directive.moved m))).toOption = (anyExcludes vars ds).toOption := by
  induction ds with
  | nil => rfl
  | cons d ds ih =>
    have hd : ((d.moved m).excludes vars).toOption = (d.excludes vars).toOption :=
      toOption_excludes d
    rw [List.map_cons, anyExcludes, anyExcludes]
    rcases Except.cases_of_toOption hd with ⟨b, h, h'⟩ | ⟨e, e', h, h'⟩
    · rw [h, h']
      cases b with
      | false => exact ih
      | true => rfl
    · rw [h, h']
      rfl

/-- Two findings differ in positions only, and both are without problems or neither is. -/
structure Collected.Like (c d : Collected) : Prop where
  fields : c.fields.map Field.unplaced = d.fields.map Field.unplaced
  problems : c.problems = [] ↔ d.problems = []

namespace Collected.Like

variable {c d c' d' : Collected}

theorem refl (c : Collected) : c.Like c :=
  ⟨rfl, Iff.rfl⟩

theorem problem (e e' : PlanError) : (Collected.problem e).Like (.problem e') :=
  ⟨rfl, iff_of_false (List.cons_ne_nil _ _) (List.cons_ne_nil _ _)⟩

theorem append (h : c.Like d) (h' : c'.Like d') : (c ++ c').Like (d ++ d') where
  fields := by
    rw [Scope.fields_append, Scope.fields_append, List.map_append, List.map_append, h.fields,
      h'.fields]
  problems := by
    rw [Scope.problems_append, Scope.problems_append, List.append_eq_nil_iff,
      List.append_eq_nil_iff, h.problems, h'.problems]

end Collected.Like

namespace Scope

open Collected (Like)

variable {ρ : Type} {s : Scope ρ} {object : Name} {found found' : Collected}

theorem like_unlessExcluded {ds ds' : List (Directive Name)}
    (hds : ds.map (Directive.moved .away) = ds'.map (Directive.moved .away))
    (h : found.Like found') : (s.unlessExcluded ds found).Like (s.unlessExcluded ds' found') := by
  have hmoved : ∀ ds : List (Directive Name),
      (Directive.anyExcludes s.variableValues (ds.map (Directive.moved .away))).toOption =
        (Directive.anyExcludes s.variableValues ds).toOption := Directive.toOption_anyExcludes
  have hdecided : (Directive.anyExcludes s.variableValues ds).toOption =
      (Directive.anyExcludes s.variableValues ds').toOption := by rw [← hmoved ds, hds, hmoved ds']
  unfold unlessExcluded
  rcases Except.cases_of_toOption hdecided with ⟨b, hb, hb'⟩ | ⟨e, e', he, he'⟩
  · rw [hb, hb']
    cases b with
    | false => exact h
    | true => exact .refl _
  · rw [he, he']
    exact .problem _ _

theorem like_whereApplies {condition condition' : Located Name}
    (hname : condition.node = condition'.node) (h : found.Like found') :
    (s.whereApplies condition object found).Like (s.whereApplies condition' object found') := by
  unfold whereApplies applies
  rw [hname]
  cases s.registry.lookup condition'.node with
  | none => exact .problem _ _
  | some spec =>
    simp only
    cases decide (condition'.node = object) || s.registry.isPossible condition'.node object with
    | true => exact h
    | false => exact .refl _

section

variable {expand : FragmentSpread → Collected}

mutual

/-- Selections that differ in positions only bring in alike. -/
theorem like_flatten (hexpand : ∀ x y : FragmentSpread, x.name.node = y.name.node →
    (expand x).Like (expand y)) : ∀ x y : Selection, x.unplaced = y.unplaced →
    (s.flatten object expand x).Like (s.flatten object expand y)
  | .field f, .field g, h => by
    have hfield : Field.unplaced f = Field.unplaced g := Selection.field.inj h
    rw [flatten, flatten]
    apply like_unlessExcluded
    · exact congrArg FieldOf.directives hfield
    · exact ⟨congrArg (fun f => [f]) hfield, Iff.rfl⟩
  | .spread x, .spread y, h => by
    have hspread : x.moved .away = y.moved .away := Selection.spread.inj h
    rw [flatten, flatten]
    apply like_unlessExcluded
    · exact congrArg FragmentSpread.directives hspread
    · apply hexpand
      exact congrArg (fun z => z.name.node) hspread
  | .inline ⟨_, none, ds, ⟨_, items⟩⟩, .inline ⟨_, none, ds', ⟨_, items'⟩⟩, h => by
    obtain ⟨-, -, hds, hset⟩ := InlineFragmentOf.mk.inj (Selection.inline.inj h)
    rw [flatten, flatten]
    apply like_unlessExcluded hds
    exact like_flattenAll hexpand items items' (map_unplaced_of_moved (congrArg Block.items hset))
  | .inline ⟨_, some condition, ds, ⟨_, items⟩⟩,
      .inline ⟨_, some condition', ds', ⟨_, items'⟩⟩, h => by
    obtain ⟨-, hcondition, hds, hset⟩ := InlineFragmentOf.mk.inj (Selection.inline.inj h)
    rw [flatten, flatten]
    apply like_unlessExcluded hds
    apply like_whereApplies
    · exact congrArg (fun c => c.on.node) (Option.some.inj hcondition)
    · exact like_flattenAll hexpand items items' (map_unplaced_of_moved (congrArg Block.items hset))
  | .inline ⟨_, none, _, ⟨_, _⟩⟩, .inline ⟨_, some _, _, ⟨_, _⟩⟩, h => by cases h
  | .inline ⟨_, some _, _, ⟨_, _⟩⟩, .inline ⟨_, none, _, ⟨_, _⟩⟩, h => by cases h
  | .field _, .spread _, h => by cases h
  | .field _, .inline ⟨_, _, _, ⟨_, _⟩⟩, h => by cases h
  | .spread _, .field _, h => by cases h
  | .spread _, .inline ⟨_, _, _, ⟨_, _⟩⟩, h => by cases h
  | .inline ⟨_, _, _, ⟨_, _⟩⟩, .field _, h => by cases h
  | .inline ⟨_, _, _, ⟨_, _⟩⟩, .spread _, h => by cases h

theorem like_flattenAll (hexpand : ∀ x y : FragmentSpread, x.name.node = y.name.node →
    (expand x).Like (expand y)) : ∀ xs ys : List Selection,
    xs.map Selection.unplaced = ys.map Selection.unplaced →
    (s.flattenAll object expand xs).Like (s.flattenAll object expand ys)
  | [], [], _ => .refl _
  | x :: xs, y :: ys, h => by
    obtain ⟨hfirst, hrest⟩ := List.cons.inj h
    rw [flattenAll, flattenAll]
    exact (like_flatten hexpand x y hfirst).append (like_flattenAll hexpand xs ys hrest)
  | [], _ :: _, h => by cases h
  | _ :: _, [], h => by cases h

end

end

/-- A fragment brings in the same wherever it is spread. -/
theorem like_expand (fuel : Nat) (active : List Name) (x y : FragmentSpread)
    (h : x.name.node = y.name.node) :
    (s.expand object fuel active x).Like (s.expand object fuel active y) := by
  cases fuel with
  | zero => exact .refl _
  | succ fuel =>
    rw [expand, expand, h]
    cases s.document.fragment? y.name.node with
    | none => exact .problem _ _
    | some fragment =>
      simp only
      split
      · exact .problem _ _
      · exact .refl _

theorem flattenAll_eq (expand : FragmentSpread → Collected) (items : List Selection) :
    s.flattenAll object expand items =
      ⟨items.flatMap fun x => (s.flatten object expand x).fields,
        items.flatMap fun x => (s.flatten object expand x).problems⟩ := by
  induction items with
  | nil => rfl
  | cons item items ih =>
    rw [flattenAll, ih]
    rfl

/-- What the selections bring in is brought in by the first ones already, if perhaps from another
place of the document. -/
structure Repeats (s : Scope ρ) (object : Name) (items again : List Selection) : Prop where
  problems : (s.collect object again).problems = []
  fields : ∀ f ∈ (s.collect object again).fields, ∃ g ∈ (s.collect object items).fields,
    Field.unplaced f = Field.unplaced g

/-- Selections are repeated by selections of the same form. -/
theorem repeats_of_unplaced {items again : List Selection}
    (h : ∀ x ∈ again, ∃ y ∈ items, x.unplaced = y.unplaced)
    (hitems : (s.collect object items).problems = []) : s.Repeats object items again := by
  have hlike : ∀ x y : Selection, x.unplaced = y.unplaced →
      (s.flatten object (s.expand object (s.document.fragments.length + 1) []) x).Like
        (s.flatten object (s.expand object (s.document.fragments.length + 1) []) y) :=
    like_flatten (like_expand _ [])
  unfold collect at hitems
  rw [flattenAll_eq, List.flatMap_eq_nil_iff] at hitems
  constructor
  · unfold collect
    rw [flattenAll_eq, List.flatMap_eq_nil_iff]
    intro x hx
    obtain ⟨y, hy, hxy⟩ := h x hx
    exact (hlike x y hxy).problems.2 (hitems y hy)
  · intro f hf
    unfold collect at hf ⊢
    rw [flattenAll_eq] at hf ⊢
    obtain ⟨x, hx, hfx⟩ := List.mem_flatMap.1 hf
    obtain ⟨y, hy, hxy⟩ := h x hx
    obtain ⟨g, hg, hgf⟩ := List.mem_map.1 ((hlike x y hxy).fields ▸ List.mem_map_of_mem hfx)
    exact ⟨g, List.mem_flatMap.2 ⟨y, hy, hg⟩, hgf.symm⟩

/-- A fragment that is spread among selections is repeated by another spread of it, if that is not
excluded. -/
theorem repeats_spread {items : List Selection} {x y : FragmentSpread} (hx : .spread x ∈ items)
    (hname : y.name.node = x.name.node)
    (hkeep : Directive.anyExcludes s.variableValues x.directives = .ok false)
    (hkeep' : Directive.anyExcludes s.variableValues y.directives = .ok false)
    (hitems : (s.collect object items).problems = []) : s.Repeats object items [.spread y] := by
  have hcollect : ∀ z : FragmentSpread,
      Directive.anyExcludes s.variableValues z.directives = .ok false →
      ∀ expand, s.flatten object expand (.spread z) = expand z := by
    intro z hz expand
    rw [flatten, unlessExcluded, hz]
  have hlike : (s.expand object (s.document.fragments.length + 1) [] y).Like _ :=
    like_expand _ [] y x hname
  unfold collect at hitems
  rw [flattenAll_eq, List.flatMap_eq_nil_iff] at hitems
  have hfound := hitems _ hx
  rw [hcollect x hkeep] at hfound
  constructor
  · unfold collect
    simp only [flattenAll_eq, List.flatMap_singleton, hcollect y hkeep']
    exact hlike.problems.2 hfound
  · intro f hf
    unfold collect at hf ⊢
    simp only [flattenAll_eq, List.flatMap_singleton, hcollect y hkeep'] at hf
    rw [flattenAll_eq]
    obtain ⟨g, hg, hgf⟩ := List.mem_map.1 (hlike.fields ▸ List.mem_map_of_mem hf)
    refine ⟨g, List.mem_flatMap.2 ⟨_, hx, ?_⟩, hgf.symm⟩
    rwa [hcollect x hkeep]

end Scope

end GraphQL
