import GraphQL.Registry.Check

/-!
# What a check vouches for

In a registry with which nothing is wrong, the type of each field is registered and no input object.
The object type that a value is found to be of is always one of the possible types, whether or not the
registry was checked.
-/

namespace GraphQL

/-- Whether values of fields can be of the type. -/
def TypeSpec.isOutput {ρ : Type} : TypeSpec ρ → Bool
  | input _ => false
  | _ => true

namespace Registry

variable {ρ : Type} {r : Registry ρ} {name object field : Name} {spec : TypeSpec ρ}

theorem typeProblems_of_check (h : r.check = none) (hs : r.lookup name = some spec) :
    r.typeProblems name spec = [] := by
  have hproblems : r.problems = [] := List.head?_eq_none_iff.1 h
  unfold problems at hproblems
  obtain ⟨-, htypes⟩ := List.append_eq_nil_iff.1 hproblems
  exact List.flatMap_eq_nil_iff.1 htypes _ (Assoc.mem_of_get? hs)

theorem fieldProblems_of_check (h : r.check = none) (hs : r.lookup object = some spec)
    {f : FieldSpec ρ} (hf : spec.field? field = some f) : r.outputProblems object field f.type = [] := by
  have hproblems := typeProblems_of_check h hs
  have hfields : ∀ {fields : Assoc (FieldSpec ρ)}, fields.get? field = some f →
      r.fieldProblems object fields = [] → r.outputProblems object field f.type = [] :=
    fun hf hnone =>
      (List.append_eq_nil_iff.1 (List.flatMap_eq_nil_iff.1 hnone _ (Assoc.mem_of_get? hf))).1
  cases spec with
  | object interfaces fields => exact hfields hf (List.append_eq_nil_iff.1 hproblems).2
  | interface fields rule => exact hfields hf hproblems
  | _ => cases hf

/-- The type of a field is registered, and its values can be of it. -/
theorem output_of_check (h : r.check = none) {f : FieldSpec ρ} (hf : r.field? object field = some f) :
    ∃ spec, r.lookup f.type.innermost = some spec ∧ spec.isOutput = true := by
  obtain ⟨spec, hs, hf⟩ := Option.bind_eq_some_iff.1 hf
  have hproblems := fieldProblems_of_check h hs hf
  unfold outputProblems at hproblems
  cases htype : r.lookup f.type.innermost with
  | none =>
    rw [htype] at hproblems
    cases hproblems
  | some spec =>
    refine ⟨spec, rfl, ?_⟩
    cases spec with
    | input fields =>
      rw [htype] at hproblems
      cases hproblems
    | _ => rfl

/-! ## Object types of values -/

theorem mem_possibleTypes (h : r.isPossible name object = true) : object ∈ r.possibleTypes name := by
  unfold isPossible at h
  unfold possibleTypes
  cases hs : r.lookup name with
  | none =>
    rw [hs] at h
    cases h
  | some spec =>
    rw [hs] at h
    cases spec with
    | object interfaces fields =>
      rw [of_decide_eq_true h]
      exact List.mem_singleton_self _
    | interface fields rule =>
      simp only at h ⊢
      unfold isKind at h
      split at h
      · next spec hobject =>
        exact List.mem_map.2 ⟨_, List.mem_filter.2 ⟨Assoc.mem_of_get? hobject, h⟩, rfl⟩
      · cases h
    | union members rule => exact List.contains_iff_mem.1 h
    | _ => cases h

theorem possible_of_concreteType {value : Json} (h : r.concreteType name value = some object) :
    object ∈ r.possibleTypes name := by
  unfold concreteType at h
  split at h
  · next interfaces fields hs =>
    cases h
    rw [possibleTypes, hs]
    exact List.mem_singleton_self _
  · exact mem_possibleTypes (Option.filter_eq_some_iff.1 h).2
  · exact mem_possibleTypes (Option.filter_eq_some_iff.1 h).2
  · cases h

/-- The rule by which the object type of values of an abstract type is found. -/
def rule? (r : Registry ρ) (name : Name) : Option TypeRule :=
  match r.lookup name with
  | some (.interface _ rule) => some rule
  | some (.union _ rule) => some rule
  | _ => none

/-- A value has no object type only where a rule was asked for it and gave no possible type. -/
theorem rule_of_concreteType_eq_none {value : Json} (hs : r.lookup name = some spec)
    (hcomposite : spec.isComposite = true) (h : r.concreteType name value = none) :
    ∃ rule, r.rule? name = some rule ∧
      ∀ object, applyRule rule value = some object → r.isPossible name object = false := by
  have hnone : ∀ {rule : TypeRule}, (applyRule rule value).filter (r.isPossible name) = none →
      ∀ object, applyRule rule value = some object → r.isPossible name object = false :=
    fun h object ho => by simpa using Option.filter_eq_none_iff.1 h object ho
  unfold concreteType at h
  rw [hs] at h
  cases spec with
  | object interfaces fields => cases h
  | interface fields rule => exact ⟨rule, by rw [rule?, hs], hnone h⟩
  | union members rule => exact ⟨rule, by rw [rule?, hs], hnone h⟩
  | _ => cases hcomposite

end Registry

end GraphQL
