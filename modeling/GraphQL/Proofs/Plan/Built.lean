import Mathlib.Data.List.Perm.Subperm
import GraphQL.Proofs.Plan.Keys
import GraphQL.Proofs.Plan.Prescription

/-!
# Plans are what is prescribed

Where nothing is wrong, `Scope.collect` flattens selections (`flattens_collect`), `Merged.groups`
has the fields of each key (`items_groups`), and `Plan.build` gives the prescribed nodes, and no
others (`Plan.build_prescribed`).
-/

namespace GraphQL

/-! ## Conditions -/

namespace Directive

variable {vars : Variables} {d : Directive Name} {ds : List (Directive Name)}

/-- What a single directive says. -/
theorem keep_cons : Keep vars (d :: ds) ↔ ((d.name.node = "skip" → d.condition vars ≠ .ok true) ∧
    (d.name.node = "include" → d.condition vars ≠ .ok false)) ∧ Keep vars ds :=
  List.forall_mem_cons

theorem keep_of_excludes (h : d.excludes vars = .ok false) :
    (d.name.node = "skip" → d.condition vars ≠ .ok true) ∧
      (d.name.node = "include" → d.condition vars ≠ .ok false) := by
  have hne : ("include" : String) ≠ "skip" := by decide
  unfold excludes at h
  constructor
  · intro hskip
    rw [if_pos hskip] at h
    rw [h]
    simp
  · intro hinclude hfalse
    rw [if_neg (hinclude ▸ hne), if_pos hinclude, hfalse] at h
    cases h

theorem not_keep_of_excludes (h : d.excludes vars = .ok true) :
    ¬ ((d.name.node = "skip" → d.condition vars ≠ .ok true) ∧
      (d.name.node = "include" → d.condition vars ≠ .ok false)) := by
  rintro ⟨hskip, hinclude⟩
  unfold excludes at h
  split at h
  · next hname => exact hskip hname h
  · split at h
    · next hname =>
      refine hinclude hname ?_
      cases hc : d.condition vars with
      | error e =>
        rw [hc] at h
        cases h
      | ok b =>
        rw [hc] at h
        cases b with
        | false => rfl
        | true => cases h
    · cases h

/-- The order in which directives are looked at does not matter where none of them is wrong. -/
theorem keep_of_anyExcludes (h : anyExcludes vars ds = .ok false) : Keep vars ds := by
  induction ds with
  | nil => exact nofun
  | cons d ds ih =>
    rw [anyExcludes] at h
    split at h
    · next hd => exact keep_cons.2 ⟨keep_of_excludes hd, ih h⟩
    · next hne => exact absurd h hne

theorem not_keep_of_anyExcludes (h : anyExcludes vars ds = .ok true) : ¬ Keep vars ds := by
  induction ds with
  | nil => cases h
  | cons d ds ih =>
    rw [keep_cons]
    rw [anyExcludes] at h
    split at h
    · exact fun hkeep => ih h hkeep.2
    · exact fun hkeep => not_keep_of_excludes h hkeep.1

end Directive

namespace Scope

variable {ρ : Type} {s : Scope ρ} {object : Name}

/-! ## Collecting -/

@[simp] theorem fields_append (a b : Collected) : (a ++ b).fields = a.fields ++ b.fields :=
  rfl

@[simp] theorem problems_append (a b : Collected) : (a ++ b).problems = a.problems ++ b.problems :=
  rfl

theorem unlessExcluded_cases {ds : List (Directive Name)} {found : Collected}
    (h : (s.unlessExcluded ds found).problems = []) :
    (Directive.Keep s.variableValues ds ∧ s.unlessExcluded ds found = found) ∨
      (¬ Directive.Keep s.variableValues ds ∧ s.unlessExcluded ds found = .nothing) := by
  unfold unlessExcluded at h ⊢
  split at h
  · next hds => exact .inl ⟨Directive.keep_of_anyExcludes hds, rfl⟩
  · next hds => exact .inr ⟨Directive.not_keep_of_anyExcludes hds, rfl⟩
  · cases h

theorem whereApplies_cases {condition : TypeCondition} {found : Collected}
    (h : (s.whereApplies condition.on object found).problems = []) :
    (s.Applies object (some condition) ∧ s.whereApplies condition.on object found = found) ∨
      (¬ s.Applies object (some condition) ∧
        s.whereApplies condition.on object found = .nothing) := by
  have happlies : ∀ b, s.applies condition.on object = .ok b →
      (b = true ↔ s.Applies object (some condition)) := by
    intro b hb
    unfold applies at hb
    split at hb
    · cases hb
    · cases hb
      rw [Bool.or_eq_true, decide_eq_true_eq]
      exact Iff.rfl
  unfold whereApplies at h ⊢
  split at h
  · next hc => exact .inl ⟨(happlies true hc).1 rfl, rfl⟩
  · next hc => exact .inr ⟨fun ha => Bool.noConfusion ((happlies false hc).2 ha), rfl⟩
  · cases h

/-- What the spread of a fragment has to bring in. -/
def Spreads (s : Scope ρ) (object : Name) (spread : FragmentSpread) (fields : List Field) : Prop :=
  ∃ fragment, s.document.fragment? spread.name.node = some fragment ∧
    ((s.Applies object (some fragment.condition) ∧
        s.Flattens object fragment.selections.items fields) ∨
      (¬ s.Applies object (some fragment.condition) ∧ fields = []))

section

variable {expand : FragmentSpread → Collected}

mutual

theorem flattens_flatten
    (hexpand : ∀ spread, (expand spread).problems = [] →
      s.Spreads object spread (expand spread).fields)
    {rest : List Selection} {fields : List Field} (hrest : s.Flattens object rest fields) :
    ∀ item : Selection, (s.flatten object expand item).problems = [] →
      s.Flattens object (item :: rest) ((s.flatten object expand item).fields ++ fields)
  | .field f, h => by
    rw [flatten] at h ⊢
    rcases unlessExcluded_cases h with ⟨hkeep, heq⟩ | ⟨hdrop, heq⟩
    · rw [heq]
      exact .field hkeep hrest
    · rw [heq]
      exact .dropped hdrop hrest
  | .spread spread, h => by
    rw [flatten] at h ⊢
    rcases unlessExcluded_cases h with ⟨hkeep, heq⟩ | ⟨hdrop, heq⟩
    · rw [heq] at h ⊢
      obtain ⟨fragment, hfound, ⟨happlies, hinner⟩ | ⟨hnot, hnil⟩⟩ := hexpand spread h
      · exact .spread hkeep hfound happlies hinner hrest
      · rw [hnil]
        exact .otherSpread hkeep hfound hnot hrest
    · rw [heq]
      exact .dropped hdrop hrest
  | .inline ⟨pos, none, directives, ⟨pos', items⟩⟩, h => by
    rw [flatten] at h ⊢
    rcases unlessExcluded_cases h with ⟨hkeep, heq⟩ | ⟨hdrop, heq⟩
    · rw [heq] at h ⊢
      exact .inline hkeep trivial (flattens_flattenAll hexpand items h) hrest
    · rw [heq]
      exact .dropped hdrop hrest
  | .inline ⟨pos, some condition, directives, ⟨pos', items⟩⟩, h => by
    rw [flatten] at h ⊢
    rcases unlessExcluded_cases h with ⟨hkeep, heq⟩ | ⟨hdrop, heq⟩
    · rw [heq] at h ⊢
      rcases whereApplies_cases h with ⟨happlies, heq⟩ | ⟨hnot, heq⟩
      · rw [heq] at h ⊢
        exact .inline hkeep happlies (flattens_flattenAll hexpand items h) hrest
      · rw [heq]
        exact .otherInline hkeep hnot hrest
    · rw [heq]
      exact .dropped hdrop hrest

theorem flattens_flattenAll
    (hexpand : ∀ spread, (expand spread).problems = [] →
      s.Spreads object spread (expand spread).fields) :
    ∀ items : List Selection, (s.flattenAll object expand items).problems = [] →
      s.Flattens object items (s.flattenAll object expand items).fields
  | [], _ => .nil
  | item :: rest, h => by
    rw [flattenAll] at h ⊢
    rw [problems_append, List.append_eq_nil_iff] at h
    exact flattens_flatten hexpand (flattens_flattenAll hexpand rest h.2) item h.1

end

end

/-- The names of fragments. -/
def fragmentNames (s : Scope ρ) : List Name :=
  s.document.fragments.filterMap fun f => f.name.map Located.node

theorem mem_fragmentNames {name : Name} {fragment : Fragment}
    (h : s.document.fragment? name = some fragment) : name ∈ s.fragmentNames := by
  have hmem := List.mem_of_find?_eq_some h
  have hname := List.find?_some h
  refine List.mem_filterMap.2 ⟨fragment, hmem, ?_⟩
  split at hname
  · next n hn =>
    rw [hn]
    exact congrArg some (of_decide_eq_true hname)
  · cases hname

/-- Distinct fragments are not more than there are. -/
theorem length_le_fragments {active : List Name} (hactive : active.Nodup)
    (hnames : ∀ name ∈ active, name ∈ s.fragmentNames) :
    active.length ≤ s.document.fragments.length :=
  Nat.le_trans (List.Nodup.subperm hactive hnames).length_le (List.length_filterMap_le _ _)

/-- A spread brings in its fragment. The fragments around it are distinct, so that as many may be
expanded in it as are not around it. -/
theorem spreads_expand (fuel : Nat) (active : List Name) (hactive : active.Nodup)
    (hnames : ∀ name ∈ active, name ∈ s.fragmentNames)
    (hfuel : s.document.fragments.length < fuel + active.length) (spread : FragmentSpread)
    (h : (s.expand object fuel active spread).problems = []) :
    s.Spreads object spread (s.expand object fuel active spread).fields := by
  induction fuel generalizing active spread with
  | zero =>
    have := length_le_fragments hactive hnames
    omega
  | succ fuel ih =>
    rw [expand] at h ⊢
    split at h
    · cases h
    · next fragment hfound =>
      refine ⟨fragment, hfound, ?_⟩
      split at h
      · cases h
      · next hloop =>
        rw [if_neg hloop]
        rcases whereApplies_cases h with ⟨happlies, heq⟩ | ⟨hnot, heq⟩
        · rw [heq] at h ⊢
          refine .inl ⟨happlies, flattens_flattenAll (fun spread h => ih _ ?_ ?_ ?_ spread h) _ h⟩
          · refine List.nodup_cons.2 ⟨fun hm => hloop ?_, hactive⟩
            exact List.contains_iff_mem.2 hm
          · exact List.forall_mem_cons.2 ⟨mem_fragmentNames hfound, hnames⟩
          · rw [List.length_cons]
            omega
        · rw [heq]
          exact .inr ⟨hnot, rfl⟩

theorem flattens_collect {selections : List Selection}
    (h : (s.collect object selections).problems = []) :
    s.Flattens object selections (s.collect object selections).fields := by
  refine flattens_flattenAll (fun spread hspread => ?_) selections h
  exact spreads_expand _ [] .nil nofun (by simp) spread hspread

end Scope

/-! ## Grouping -/

namespace Merged

open Scope

/-- The groups of some fields: a group for each key, in the order in which the keys first occur. -/
structure Groups (fields : List Field) (groups : List Merged) : Prop where
  keys : groups.map key = Name.distinct (fields.map keyOf)
  items : ∀ g ∈ groups, g.items = fields.filter fun f => keyOf f = g.key

theorem mem_add {f : Field} {groups : List Merged} (hkeys : (groups.map key).Nodup) {g : Merged}
    (h : g ∈ add f groups) : (g ∈ groups ∧ g.key ≠ keyOf f) ∨
      (g.key = keyOf f ∧ ((∃ old ∈ groups, old.key = keyOf f ∧ g.items = old.items ++ [f]) ∨
        (keyOf f ∉ groups.map key ∧ g.items = [f]))) := by
  induction groups with
  | nil =>
    rw [List.mem_singleton.1 h]
    exact .inr ⟨rfl, .inr ⟨List.not_mem_nil, rfl⟩⟩
  | cons first rest ih =>
    obtain ⟨hfirst, hrest⟩ := List.nodup_cons.1 hkeys
    rw [add] at h
    split at h
    · next hkey =>
      rcases List.mem_cons.1 h with rfl | hm
      · exact .inr ⟨hkey, .inl ⟨first, List.mem_cons_self .., hkey, rfl⟩⟩
      · refine .inl ⟨List.mem_cons_of_mem _ hm, fun he => hfirst ?_⟩
        rw [hkey]
        exact List.mem_map.2 ⟨g, hm, he⟩
    · next hkey =>
      rcases List.mem_cons.1 h with rfl | hm
      · exact .inl ⟨List.mem_cons_self .., hkey⟩
      · rcases ih hrest hm with ⟨hg, hne⟩ | ⟨hg, ⟨old, hold, hold', hitems⟩ | ⟨hnew, hitems⟩⟩
        · exact .inl ⟨List.mem_cons_of_mem _ hg, hne⟩
        · exact .inr ⟨hg, .inl ⟨old, List.mem_cons_of_mem _ hold, hold', hitems⟩⟩
        · refine .inr ⟨hg, .inr ⟨fun hmem => ?_, hitems⟩⟩
          rcases List.mem_cons.1 hmem with he | hmem
          · exact hkey he.symm
          · exact hnew hmem

theorem Groups.add {fields : List Field} {groups : List Merged} (h : Groups fields groups)
    (f : Field) : Groups (fields ++ [f]) (add f groups) := by
  have hnodup : (groups.map key).Nodup := h.keys ▸ Name.nodup_distinct _
  have hmem : keyOf f ∈ groups.map key ↔ keyOf f ∈ fields.map keyOf := by
    rw [h.keys, Name.mem_distinct]
  refine ⟨?_, fun g hg => ?_⟩
  · rw [keys_add, List.map_append, List.map_singleton, Name.distinct_concat, ← h.keys]
    show (if keyOf f ∈ groups.map key then _ else _) = _
    simp only [hmem]
    rfl
  · rw [List.filter_append]
    rcases mem_add hnodup hg with ⟨hg, hne⟩ | ⟨hkey, ⟨old, hold, hkey', hitems⟩ | ⟨hnew, hitems⟩⟩
    · rw [h.items g hg, List.filter_cons_of_neg (by simpa using Ne.symm hne), List.filter_nil,
        List.append_nil]
    · rw [hitems, h.items old hold, hkey', hkey, List.filter_cons_of_pos (by simp), List.filter_nil]
    · have hnone : fields.filter (fun x => keyOf x = g.key) = [] := by
        rw [List.filter_eq_nil_iff]
        intro x hx he
        rw [hmem] at hnew
        exact hnew (hkey ▸ of_decide_eq_true he ▸ List.mem_map_of_mem hx)
      rw [hitems, hnone, hkey, List.filter_cons_of_pos (by simp), List.filter_nil, List.nil_append]

theorem groups_spec (fields : List Field) : Groups fields (groups fields) := by
  suffices ∀ (rest seen : List Field) (start : List Merged), Groups seen start →
      Groups (seen ++ rest) (rest.foldl (fun groups f => Merged.add f groups) start) from
    this fields [] [] ⟨rfl, nofun⟩
  intro rest
  induction rest with
  | nil =>
    intro seen start h
    rw [List.append_nil]
    exact h
  | cons f rest ih =>
    intro seen start h
    have := ih (seen ++ [f]) _ (h.add f)
    rwa [List.append_assoc, List.singleton_append] at this

end Merged

/-! ## Nodes -/

namespace Scope

variable {ρ : Type} {s : Scope ρ} {object : Name}

/-- Merged fields become their node, unless something is wrong with them or below them. -/
theorem exists_node {below : Name → List Selection → Planned (List Plan.Node)} {g : Merged}
    {fields : List Field} (hitems : g.items = fields.filter fun f => keyOf f = g.key)
    (h : (s.node below object g).problems = []) :
    ∃ n, (s.node below object g).value = some n ∧ n.key = g.key ∧ s.Merges object fields n ∧
      ∀ entry ∈ n.children, ∃ planned,
        below entry.1 (n.items.flatMap fun f => f.selections.items) = planned ∧
          planned.problems = [] ∧ entry.2 = planned.value := by
  unfold Scope.node at h ⊢
  simp only at h ⊢
  split at h
  · cases h
  · next type htype =>
    split at h
    · next hcomposite =>
      split at h
      · cases h
      · next hsome =>
        rw [if_pos hcomposite, if_neg hsome]
        refine ⟨_, rfl, rfl, ⟨rfl, hitems, htype, ?_⟩, fun entry hentry => ?_⟩
        · rw [List.map_map, List.map_map]
          exact List.map_id'' (fun _ => rfl) _
        · obtain ⟨pair, hpair, rfl⟩ := List.mem_map.1 hentry
          obtain ⟨possible, -, rfl⟩ := List.mem_map.1 hpair
          exact ⟨_, rfl, List.flatMap_eq_nil_iff.1 h _ hpair, rfl⟩
    · next hleaf =>
      split at h
      · next hnone =>
        rw [if_neg hleaf, if_pos hnone]
        refine ⟨_, rfl, rfl, ⟨rfl, hitems, htype, ?_⟩, nofun⟩
        unfold Registry.possibleTypes
        unfold Registry.isKind at hleaf
        split <;> simp_all [TypeSpec.isComposite]
      · cases h

/-- Parts that are all there are gathered in their order. -/
theorem map_gather {α β γ : Type} {part : α → Planned (Option β)} {markOf : β → γ} {mark : α → γ}
    {xs : List α} (h : ∀ x ∈ xs, ∃ y, (part x).value = some y ∧ markOf y = mark x) :
    (gather (xs.map part)).value.map markOf = xs.map mark := by
  induction xs with
  | nil => rfl
  | cons x xs ih =>
    obtain ⟨y, hy, hmark⟩ := h x (List.mem_cons_self ..)
    have hrest := ih fun x hx => h x (List.mem_cons_of_mem _ hx)
    rw [gather] at hrest ⊢
    rw [List.map_cons, List.filterMap_cons, hy, List.map_cons, List.map_cons, hrest, hmark]

/-- Nodes below which nothing is wrong are what is prescribed. -/
theorem prescribes_nodes {pos : Position} {levels : Nat} {selections : List Selection}
    (h : (s.nodes pos levels object selections).problems = []) :
    s.Prescribes object selections (s.nodes pos levels object selections).value := by
  induction levels generalizing object selections with
  | zero => cases h
  | succ levels ih =>
    rw [nodes] at h ⊢
    simp only [List.append_eq_nil_iff] at h ⊢
    obtain ⟨hfound, hplanned⟩ := h
    obtain ⟨hkeys, hitems⟩ := Merged.groups_spec (s.collect object selections).fields
    have hflat := flattens_collect hfound
    generalize (s.collect object selections).fields = fields at *
    have hnode : ∀ g ∈ Merged.groups fields, ∃ n,
        (s.node (s.nodes pos levels) object g).value = some n ∧ n.key = g.key ∧
          s.Merges object fields n ∧ ∀ entry ∈ n.children,
            s.Prescribes entry.1 (n.items.flatMap fun f => f.selections.items) entry.2 := by
      intro g hg
      have hproblems : (s.node (s.nodes pos levels) object g).problems = [] :=
        List.flatMap_eq_nil_iff.1 hplanned _ (List.mem_map_of_mem hg)
      obtain ⟨n, hvalue, hkey, hmerges, hbelow⟩ := exists_node (hitems g hg) hproblems
      refine ⟨n, hvalue, hkey, hmerges, fun entry hentry => ?_⟩
      obtain ⟨planned, rfl, hnone, hvalue⟩ := hbelow entry hentry
      rw [hvalue]
      exact ih hnone
    have hmem : ∀ n ∈
        (gather ((Merged.groups fields).map (s.node (s.nodes pos levels) object))).value,
        s.Merges object fields n ∧ ∀ entry ∈ n.children,
          s.Prescribes entry.1 (n.items.flatMap fun f => f.selections.items) entry.2 := by
      intro n hn
      obtain ⟨g, hg, hvalue⟩ := mem_gather hn
      obtain ⟨m, hvalue', -, hm⟩ := hnode g hg
      cases hvalue.symm.trans hvalue'
      exact hm
    refine .intro hflat ?_ (fun n hn => (hmem n hn).1) fun n hn => (hmem n hn).2
    rw [← hkeys]
    refine map_gather fun g hg => ?_
    obtain ⟨n, hvalue, hkey, -⟩ := hnode g hg
    exact ⟨n, hvalue, hkey⟩

end Scope

/-- The plan of an operation is that of its root type, and its fields are those prescribed there. -/
theorem Plan.build_prescribed {ρ : Type} {s : Scope ρ} {o : Operation} {plan : Plan}
    (h : Plan.build s o = .ok plan) :
    plan.kind = o.kind ∧ s.registry.root? o.kind = some plan.root ∧
      ∀ nodes, s.Prescribes plan.root o.selections.items nodes ↔ nodes = plan.fields := by
  unfold Plan.build at h
  split at h
  · cases h
  · next root hroot =>
    split at h
    · next fields hfields =>
      cases h
      have hprescribed : s.Prescribes root o.selections.items
          (s.nodes o.selections.pos (s.levels o) root o.selections.items).value :=
        Scope.prescribes_nodes (by rw [hfields])
      rw [hfields] at hprescribed
      refine ⟨rfl, hroot, fun nodes => ⟨fun hnodes => hnodes.unique hprescribed, ?_⟩⟩
      rintro rfl
      exact hprescribed
    · cases h

namespace Sample

/-- A selection on an interface, with fragments on it and on one of the two types that implement
it. -/
def nodeSource : String :=
  "query ($short: Boolean) { node { ...Id ... on User { name @skip(if: $short) id } } n: node { id } } " ++
    "fragment Id on Node { id ... on Bot { key: id @include(if: true) } }"

/-- An interface and two types that implement it. -/
def nodeRegistry : Registry Empty :=
  let id : Assoc (FieldSpec Empty) := [("id", ⟨none, [], .named "ID" false, none⟩)]
  ((((Registry.initial.insert "Node" (.interface id none)).insert "User"
    (.object ["Node"] (id ++ [("name", ⟨none, [], .named "String" true, none⟩)]))).insert "Bot"
    (.object ["Node"] id)).insert "Query"
    (.object [] [("node", ⟨none, [], .named "Node" true, none⟩)]))

def nodeScope (d : Document) : Scope Empty :=
  ⟨nodeRegistry, d, .ofList [("short", .bool false)], true⟩

/-- Whether the sample has a plan. -/
def isPlanned : Bool :=
  match Document.parse nodeSource none with
  | .error _ => false
  | .ok d =>
    match d.operations with
    | [o] => (Plan.build (nodeScope d) o).isOk
    | _ => false

end Sample

theorem Plan.build_prescribed_interface : ∃ d o plan,
    Document.parse Sample.nodeSource none = .ok d ∧ d.operations = [o] ∧
      Plan.build (Sample.nodeScope d) o = .ok plan ∧
      ∀ nodes, (Sample.nodeScope d).Prescribes plan.root o.selections.items nodes ↔
        nodes = plan.fields := by
  have h : Sample.isPlanned = true := by decide +kernel
  unfold Sample.isPlanned at h
  split at h
  · cases h
  · next d hd =>
    split at h
    · next o ho =>
      cases hplan : Plan.build (Sample.nodeScope d) o with
      | error problems =>
        rw [hplan] at h
        cases h
      | ok plan => exact ⟨d, o, plan, hd, ho, hplan, (Plan.build_prescribed hplan).2.2⟩
    · cases h

end GraphQL
