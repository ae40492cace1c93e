import Mathlib.Data.List.Forall2
import GraphQL.Proofs.Plan.Prescription

/-!
# What lies below merged fields

`Scope.opens` are the object types on which the selections of merged fields are planned. They are
all that a node depends on below it (`node_congr`), and where nothing is wrong the nodes of
selections are those of the groups of their fields, one by one (`nodes_eq_iff`).
-/

namespace GraphQL

/-- The selections of merged fields, one list after the other. -/
def Merged.selections (g : Merged) : List Selection :=
  g.items.flatMap fun f => f.selections.items

namespace Scope

variable {ρ : Type} {s : Scope ρ} {object : Name} {g : Merged}
  {below below' : Name → List Selection → Planned (List Plan.Node)}

/-- The object types on which the selections of merged fields are planned. -/
def opens (s : Scope ρ) (object : Name) (g : Merged) : List Name :=
  match s.typeOf? object g.first.name.node with
  | some type => if g.selections = [] then [] else s.registry.possibleTypes type.innermost
  | none => []

theorem possibleTypes_eq_nil {r : Registry ρ} {name : Name}
    (h : r.isKind TypeSpec.isComposite name ≠ true) : r.possibleTypes name = [] := by
  unfold Registry.isKind at h
  unfold Registry.possibleTypes
  split <;> simp_all [TypeSpec.isComposite]

/-- The node of merged fields whose first one has a type. -/
theorem node_of_type {type : TypeRef} (h : s.typeOf? object g.first.name.node = some type) :
    s.node below object g =
      if s.registry.isKind TypeSpec.isComposite type.innermost = true then
        if g.selections = [] then
          ⟨none, [.needsSelections g.first.name.node type.innermost g.first.pos]⟩
        else
          ⟨some ⟨g.key, object, type, g.first, g.others,
              (s.registry.possibleTypes type.innermost).map fun possible =>
                (possible, (below possible g.selections).value)⟩,
            (s.registry.possibleTypes type.innermost).flatMap fun possible =>
              (below possible g.selections).problems⟩
      else if g.selections = [] then ⟨some ⟨g.key, object, type, g.first, g.others, []⟩, []⟩
      else ⟨none, [.noSelections g.first.name.node type.innermost g.first.pos]⟩ := by
  unfold node
  simp only [h, List.isEmpty_iff, List.map_map, List.flatMap_map]
  rfl

theorem node_of_no_type (h : s.typeOf? object g.first.name.node = none) :
    s.node below object g = ⟨none, [.undefinedField g.first.name.node object g.first.pos]⟩ := by
  unfold node
  simp only [h]

/-- The node of merged fields hangs on the plans for the object types that it opens, and on no
others. -/
theorem node_congr (h : ∀ possible ∈ s.opens object g,
    below possible g.selections = below' possible g.selections) :
    s.node below object g = s.node below' object g := by
  unfold opens at h
  cases htype : s.typeOf? object g.first.name.node with
  | none => rw [node_of_no_type htype, node_of_no_type htype]
  | some type =>
    rw [htype] at h
    rw [node_of_type htype, node_of_type htype]
    by_cases hnil : g.selections = []
    · simp only [if_pos hnil]
    · simp only [if_neg hnil] at h ⊢
      have hvalues := List.map_congr_left fun possible hp =>
        congrArg (fun planned => (possible, Planned.value planned)) (h possible hp)
      have hproblems := List.flatMap_congr fun possible hp =>
        congrArg Planned.problems (h possible hp)
      rw [hvalues, hproblems]

/-- What is wrong below merged fields is wrong with them. -/
theorem problems_of_opens {possible : Name} (h : possible ∈ s.opens object g) {p : PlanError}
    (hp : p ∈ (below possible g.selections).problems) : p ∈ (s.node below object g).problems := by
  unfold opens at h
  cases htype : s.typeOf? object g.first.name.node with
  | none =>
    rw [htype] at h
    cases h
  | some type =>
    rw [htype] at h
    simp only at h
    by_cases hnil : g.selections = []
    · rw [if_pos hnil] at h
      cases h
    · rw [if_neg hnil] at h
      have hcomposite : s.registry.isKind TypeSpec.isComposite type.innermost = true := by
        by_contra hne
        rw [possibleTypes_eq_nil hne] at h
        cases h
      rw [node_of_type htype, if_pos hcomposite, if_neg hnil]
      exact List.mem_flatMap.2 ⟨possible, h, hp⟩

/-- Merged fields have a node and nothing wrong if their first field is known, has selections where
it has to, and nothing is wrong with these on any object type that its value can be of. -/
theorem node_eq_iff {n : Plan.Node} : s.node below object g = ⟨some n, []⟩ ↔
    ∃ type, s.typeOf? object g.first.name.node = some type ∧
      (s.registry.isKind TypeSpec.isComposite type.innermost = true ↔ g.selections ≠ []) ∧
      (∀ possible ∈ s.registry.possibleTypes type.innermost,
        (below possible g.selections).problems = []) ∧
      n = ⟨g.key, object, type, g.first, g.others,
        (s.registry.possibleTypes type.innermost).map fun possible =>
          (possible, (below possible g.selections).value)⟩ := by
  cases htype : s.typeOf? object g.first.name.node with
  | none => simp [node_of_no_type htype]
  | some type =>
    rw [node_of_type htype]
    simp only [Option.some.injEq, exists_eq_left']
    by_cases hcomposite : s.registry.isKind TypeSpec.isComposite type.innermost = true
    · by_cases hnil : g.selections = []
      · simp [hcomposite, hnil]
      · rw [if_pos hcomposite, if_neg hnil, Planned.mk.injEq, Option.some.injEq,
          List.flatMap_eq_nil_iff]
        constructor
        · rintro ⟨hn, hproblems⟩
          exact ⟨iff_of_true hcomposite hnil, hproblems, hn.symm⟩
        · rintro ⟨-, hproblems, hn⟩
          exact ⟨hn.symm, hproblems⟩
    · rw [possibleTypes_eq_nil hcomposite]
      by_cases hnil : g.selections = []
      · rw [if_neg hcomposite, if_pos hnil, Planned.mk.injEq, Option.some.injEq]
        constructor
        · rintro ⟨hn, -⟩
          exact ⟨iff_of_false hcomposite (not_not_intro hnil), by simp, hn.symm⟩
        · rintro ⟨-, -, hn⟩
          exact ⟨hn.symm, rfl⟩
      · simp [hcomposite, hnil]

/-- Merged fields that have no node have something wrong. -/
theorem exists_value (h : (s.node below object g).problems = []) :
    ∃ n, s.node below object g = ⟨some n, []⟩ := by
  cases hv : s.node below object g with
  | mk value problems =>
    rw [hv] at h
    obtain rfl : problems = [] := h
    cases value with
    | some n => exact ⟨n, rfl⟩
    | none =>
      exfalso
      cases htype : s.typeOf? object g.first.name.node with
      | none =>
        rw [node_of_no_type htype] at hv
        cases hv
      | some type =>
        rw [node_of_type htype] at hv
        split at hv <;> split at hv <;> cases hv

theorem gather_cons {α : Type} (part : Planned (Option α)) (parts : List (Planned (Option α))) :
    gather (part :: parts) =
      ⟨part.value.toList ++ (gather parts).value, part.problems ++ (gather parts).problems⟩ := by
  unfold gather
  cases hv : part.value <;> simp [hv]

/-- Groups give nodes, one by one, if nothing is wrong with any of them. -/
theorem gather_eq_iff {groups : List Merged} {ns : List Plan.Node} :
    gather (groups.map (s.node below object)) = ⟨ns, []⟩ ↔
      List.Forall₂ (fun g n => s.node below object g = ⟨some n, []⟩) groups ns := by
  induction groups generalizing ns with
  | nil =>
    rw [List.forall₂_nil_left_iff]
    constructor
    · intro h
      exact (congrArg Planned.value h).symm
    · rintro rfl
      rfl
  | cons g groups ih =>
    rw [List.map_cons, gather_cons, List.forall₂_cons_left_iff]
    constructor
    · intro h
      obtain ⟨hvalue, hproblems⟩ := Planned.mk.inj h
      obtain ⟨hg, hrest⟩ := List.append_eq_nil_iff.1 hproblems
      obtain ⟨n, hn⟩ := exists_value hg
      rw [hn] at hvalue
      refine ⟨n, (gather (groups.map (s.node below object))).value, hn, ih.1 ?_, hvalue.symm⟩
      rw [← hrest]
    · rintro ⟨n, ms, hn, hms, rfl⟩
      rw [hn, ih.2 hms]
      rfl

/-- The nodes of selections with which nothing is wrong are those of the groups of their fields. -/
theorem nodes_eq_iff {pos : Position} {levels : Nat} {selections : List Selection}
    {ns : List Plan.Node} : s.nodes pos (levels + 1) object selections = ⟨ns, []⟩ ↔
      (s.collect object selections).problems = [] ∧
        List.Forall₂ (fun g n => s.node (s.nodes pos levels) object g = ⟨some n, []⟩)
          (Merged.groups (s.collect object selections).fields) ns := by
  rw [← gather_eq_iff, nodes]
  simp only [Planned.mk.injEq, List.append_eq_nil_iff]
  constructor
  · rintro ⟨rfl, hfound, hrest⟩
    refine ⟨hfound, ?_⟩
    rw [← hrest]
  · rintro ⟨hfound, h⟩
    rw [h]
    exact ⟨rfl, hfound, rfl⟩

/-- With nothing wrong below merged fields, their node is the same with any plans that extend
those. -/
theorem node_eq_of_nodes {pos : Position} {levels levels' : Nat} {n : Plan.Node}
    (h : s.node (s.nodes pos levels) object g = ⟨some n, []⟩)
    (hnodes : ∀ possible, (s.nodes pos levels possible g.selections).problems = [] →
      s.nodes pos levels' possible g.selections = s.nodes pos levels possible g.selections) :
    s.node (s.nodes pos levels') object g = ⟨some n, []⟩ := by
  rw [← h]
  apply node_congr
  intro possible hp
  apply hnodes
  apply List.eq_nil_iff_forall_not_mem.2
  intro p hproblem
  have := problems_of_opens hp hproblem
  rw [h] at this
  cases this

/-- Nodes with which nothing is wrong are the same with more levels allowed. -/
theorem nodes_of_le {pos : Position} {levels levels' : Nat} {selections : List Selection}
    {ns : List Plan.Node} (h : s.nodes pos levels object selections = ⟨ns, []⟩)
    (hle : levels ≤ levels') : s.nodes pos levels' object selections = ⟨ns, []⟩ := by
  induction levels generalizing levels' object selections ns with
  | zero => cases h
  | succ levels ih =>
    obtain ⟨more, rfl⟩ : ∃ more, levels' = more + 1 := ⟨levels' - 1, by omega⟩
    obtain ⟨hfound, hgroups⟩ := nodes_eq_iff.1 h
    refine nodes_eq_iff.2 ⟨hfound, hgroups.imp fun g n hg => ?_⟩
    apply node_eq_of_nodes hg
    intro possible hnone
    have hbelow : s.nodes pos levels possible g.selections =
        ⟨(s.nodes pos levels possible g.selections).value, []⟩ := by rw [← hnone]
    rw [hbelow]
    exact ih hbelow (Nat.le_of_succ_le_succ hle)

end Scope

end GraphQL
