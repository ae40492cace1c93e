import GraphQL.Proofs.Execution.Ready

/-!
# The keys of a plan

The fields of an object have distinct response keys, at every level of the plan of a request.
-/

namespace GraphQL

/-- Fields have distinct keys, and so have those below each of them. -/
inductive Plan.Distinct : List Plan.Node → Prop where
  | intro {nodes : List Plan.Node} : (nodes.map Plan.Node.key).Nodup →
      (∀ node ∈ nodes, ∀ object children, node.childrenFor? object = some children →
        Plan.Distinct children) →
      Plan.Distinct nodes

namespace Merged

theorem keys_add (f : Field) (groups : List Merged) :
    (add f groups).map key =
      if (Field.responseKey f).node ∈ groups.map key then groups.map key
      else groups.map key ++ [(Field.responseKey f).node] := by
  induction groups with
  | nil => rfl
  | cons g rest ih =>
    rw [add]
    by_cases h : g.key = (Field.responseKey f).node
    · simp [h]
    · rw [if_neg h, List.map_cons, ih]
      by_cases hin : (Field.responseKey f).node ∈ rest.map key
      · simp [hin]
      · rw [if_neg hin, if_neg]
        · rfl
        · rw [List.map_cons, List.mem_cons]
          rintro (he | hm)
          · exact h he.symm
          · exact hin hm

theorem nodup_add (f : Field) {groups : List Merged} (h : (groups.map key).Nodup) :
    ((add f groups).map key).Nodup := by
  rw [keys_add]
  split
  · exact h
  · next hin =>
    rw [List.nodup_append]
    refine ⟨h, by simp, ?_⟩
    intro a ha b hb he
    rw [List.mem_singleton.1 hb] at he
    exact hin (he ▸ ha)

theorem nodup_groups (fields : List Field) : ((groups fields).map key).Nodup := by
  suffices ∀ start : List Merged, (start.map key).Nodup →
      ((fields.foldl (fun groups f => add f groups) start).map key).Nodup from this [] .nil
  induction fields with
  | nil => exact fun _ h => h
  | cons f fields ih => exact fun start h => ih _ (nodup_add f h)

end Merged

namespace Scope

variable {ρ : Type} {s : Scope ρ} {below : Name → List Selection → Planned (List Plan.Node)}

/-- The node of merged fields has their key, and below it are nodes that were planned. -/
theorem node_value {object : Name} {g : Merged} {node : Plan.Node}
    (h : (s.node below object g).value = some node) : node.key = g.key ∧
      ∀ object children, node.childrenFor? object = some children →
        ∃ possible selections, children = (below possible selections).value := by
  unfold Scope.node at h
  simp only at h
  split at h
  · cases h
  · split at h
    · split at h
      · cases h
      · cases h
        refine ⟨rfl, fun object children hc => ?_⟩
        obtain ⟨entry, hm, he⟩ := List.mem_map.1 (Assoc.mem_of_get? hc)
        obtain ⟨possible, -, rfl⟩ := List.mem_map.1 hm
        cases he
        exact ⟨_, _, rfl⟩
    · split at h
      · cases h
        exact ⟨rfl, fun _ _ hc => nomatch hc⟩
      · cases h

/-- Of the groups of fields, some become nodes. -/
theorem keys_gather (object : Name) (groups : List Merged) :
    ((gather (groups.map (s.node below object))).value.map Plan.Node.key).Sublist
      (groups.map Merged.key) := by
  induction groups with
  | nil => exact .slnil
  | cons g rest ih =>
    rw [gather] at ih ⊢
    cases hv : (s.node below object g).value with
    | none =>
      simp only [List.map_cons, List.filterMap_cons, hv]
      exact ih.cons _
    | some node =>
      simp only [List.map_cons, List.filterMap_cons, hv]
      rw [(node_value hv).1]
      exact ih.cons_cons _

theorem mem_gather {α β : Type} {part : α → Planned (Option β)} {xs : List α} {y : β}
    (h : y ∈ (gather (xs.map part)).value) : ∃ x ∈ xs, (part x).value = some y := by
  obtain ⟨p, hp, hy⟩ := List.mem_filterMap.1 h
  obtain ⟨x, hx, rfl⟩ := List.mem_map.1 hp
  exact ⟨x, hx, hy⟩

theorem distinct_nodes (s : Scope ρ) (pos : Position) (levels : Nat) (object : Name)
    (selections : List Selection) : Plan.Distinct (s.nodes pos levels object selections).value := by
  induction levels generalizing object selections with
  | zero => exact .intro .nil nofun
  | succ levels ih =>
    rw [nodes]
    have hparts : ∀ node ∈ (gather ((Merged.groups (s.collect object selections).fields).map
        (s.node (s.nodes pos levels) object))).value,
      ∃ g, (s.node (s.nodes pos levels) object g).value =
          some node := by
      intro node hm
      obtain ⟨g, -, hv⟩ := mem_gather hm
      exact ⟨g, hv⟩
    refine .intro ?_ fun node hm object children hc => ?_
    · refine List.Nodup.sublist ?_ (Merged.nodup_groups (s.collect object selections).fields)
      exact keys_gather object _
    · obtain ⟨g, hv⟩ := hparts node hm
      obtain ⟨possible, selections, rfl⟩ := (node_value hv).2 object children hc
      exact ih possible selections

end Scope

theorem Plan.distinct_build {ρ : Type} {s : Scope ρ} {o : Operation} {plan : Plan}
    (h : Plan.build s o = .ok plan) : Plan.Distinct plan.fields := by
  unfold Plan.build at h
  split at h
  · cases h
  · next root _ =>
    have := s.distinct_nodes o.selections.pos (s.levels o) root o.selections.items
    split at h
    · next fields hf =>
      cases h
      rw [hf] at this
      exact this
    · cases h

theorem Request.distinct_prepare {ρ : Type} {registry : Registry ρ} {config : Config} {r : Request}
    {query : Prepared} (h : r.prepare registry config = .ok (some query)) :
    Plan.Distinct query.plan.fields := by
  obtain ⟨s, o, -, hb⟩ := build_of_prepare h
  exact Plan.distinct_build hb

end GraphQL
