import GraphQL.Proofs.Plan.Below
import GraphQL.Proofs.Plan.Built
import GraphQL.Proofs.Plan.Cycles

/-!
# Plans come to an end

`Scope.Builds` is the recursion that builds a plan, without a bound on how deep it goes: it only has
what comes to an end. `Plan.build` has a bound, and one for the fragments within each other. If
cycles of fragments stay on top (`Document.CyclesOnTop`), it is never in the way
(`Plan.build_ends`), and every spread met within its own fragment is reported.
-/

namespace GraphQL

namespace Scope

variable {ρ : Type}

/-! ## The recursion without a bound -/

/-- What the spread of a named fragment brings in, with the fragments `active` around it. -/
inductive Expands (s : Scope ρ) (object : Name) :
    (active : List Name) → FragmentSpread → Collected → Prop where
  | undefined {active : List Name} {spread : FragmentSpread} :
      s.document.fragment? spread.name.node = none →
      Expands s object active spread
        (.problem (.undefinedFragment spread.name.node spread.pos))
  | loop {active : List Name} {spread : FragmentSpread} {fragment : Fragment} :
      s.document.fragment? spread.name.node = some fragment → spread.name.node ∈ active →
      Expands s object active spread (.problem (.fragmentLoop spread.name.node spread.pos))
  | fragment {active : List Name} {spread : FragmentSpread} {fragment : Fragment}
      {inner : FragmentSpread → Collected} :
      s.document.fragment? spread.name.node = some fragment → spread.name.node ∉ active →
      (∀ next, Expands s object (spread.name.node :: active) next (inner next)) →
      Expands s object active spread
        (s.whereApplies fragment.condition.on object
          (s.flattenAll object inner fragment.selections.items))

/-- The fields that selections put on an object type. -/
inductive Collects (s : Scope ρ) (object : Name) (selections : List Selection) : Collected → Prop
  where
  | intro {outer : FragmentSpread → Collected} :
      (∀ spread, s.Expands object [] spread (outer spread)) →
      Collects s object selections (s.flattenAll object outer selections)

/-- The nodes of selections on an object type: with the selections of merged fields planned on each
object type that they open. -/
inductive Plans (s : Scope ρ) : Name → List Selection → Planned (List Plan.Node) → Prop where
  | intro {object : Name} {selections : List Selection} {found : Collected}
      {below : Name → List Selection → Planned (List Plan.Node)} :
      s.Collects object selections found →
      (∀ g ∈ Merged.groups found.fields, ∀ possible ∈ s.opens object g,
        Plans s possible g.selections (below possible g.selections)) →
      Plans s object selections
        ⟨(gather ((Merged.groups found.fields).map (s.node below object))).value,
          found.problems ++
            (gather ((Merged.groups found.fields).map (s.node below object))).problems⟩

/-- The plan of an operation, or all that is wrong. -/
inductive Builds (s : Scope ρ) (o : Operation) : Except (List PlanError) Plan → Prop where
  | noRoot : s.registry.root? o.kind = none → Builds s o (.error [.noRoot o.kind o.selections.pos])
  | plan {root : Name} {fields : List Plan.Node} : s.registry.root? o.kind = some root →
      s.Plans root o.selections.items ⟨fields, []⟩ → Builds s o (.ok ⟨o.kind, root, fields⟩)
  | problems {root : Name} {fields : List Plan.Node} {problems : List PlanError} :
      s.registry.root? o.kind = some root → s.Plans root o.selections.items ⟨fields, problems⟩ →
      problems ≠ [] → Builds s o (.error problems)

/-! ## Loops on the way -/

/-- On the way through selections on an object type, a spread is met of a fragment that is being
expanded. No directive excludes it or what it stands in, and all conditions on the way apply. -/
inductive Loops (s : Scope ρ) (object : Name) :
    (active : List Name) → List Selection → FragmentSpread → Prop where
  | here {active : List Name} {items : List Selection} {spread : FragmentSpread}
      {fragment : Fragment} : .spread spread ∈ items →
      Directive.anyExcludes s.variableValues spread.directives = .ok false →
      s.document.fragment? spread.name.node = some fragment → spread.name.node ∈ active →
      Loops s object active items spread
  | inline {active : List Name} {items : List Selection} {spread : FragmentSpread}
      {f : InlineFragment} : .inline f ∈ items →
      Directive.anyExcludes s.variableValues f.directives = .ok false →
      (∀ condition ∈ f.condition, s.applies condition.on object = .ok true) →
      Loops s object active f.selections.items spread → Loops s object active items spread
  | fragment {active : List Name} {items : List Selection} {spread outer : FragmentSpread}
      {fragment : Fragment} : .spread outer ∈ items →
      Directive.anyExcludes s.variableValues outer.directives = .ok false →
      s.document.fragment? outer.name.node = some fragment → outer.name.node ∉ active →
      s.applies fragment.condition.on object = .ok true →
      Loops s object (outer.name.node :: active) fragment.selections.items spread →
      Loops s object active items spread

/-- Such a spread is met on an object type, or below the fields that are there. -/
inductive Meets (s : Scope ρ) : Name → List Selection → FragmentSpread → Prop where
  | here {object : Name} {selections : List Selection} {spread : FragmentSpread} :
      s.Loops object [] selections spread → Meets s object selections spread
  | inside {object possible : Name} {selections : List Selection} {spread : FragmentSpread}
      {found : Collected} {g : Merged} : s.Collects object selections found →
      g ∈ Merged.groups found.fields → possible ∈ s.opens object g →
      Meets s possible g.selections spread → Meets s object selections spread

variable {s : Scope ρ} {object : Name}

/-! ## One outcome -/

theorem Expands.unique {active : List Name} {spread : FragmentSpread} {found found' : Collected}
    (h : s.Expands object active spread found) (h' : s.Expands object active spread found') :
    found = found' := by
  induction h generalizing found' with
  | undefined hnone =>
    cases h' with
    | undefined => rfl
    | loop hsome | fragment hsome => cases hnone.symm.trans hsome
  | loop hsome hactive =>
    cases h' with
    | undefined hnone => cases hnone.symm.trans hsome
    | loop => rfl
    | fragment _ hnot => exact absurd hactive hnot
  | fragment hsome hnot _ ih =>
    cases h' with
    | undefined hnone => cases hnone.symm.trans hsome
    | loop _ hactive => exact absurd hactive hnot
    | fragment hsome' _ hinner =>
      cases hsome.symm.trans hsome'
      rw [funext fun next => ih next (hinner next)]

theorem Collects.unique {selections : List Selection} {found found' : Collected}
    (h : s.Collects object selections found) (h' : s.Collects object selections found') :
    found = found' := by
  obtain ⟨houter⟩ := h
  obtain ⟨houter'⟩ := h'
  rw [funext fun spread => (houter spread).unique (houter' spread)]

theorem Plans.unique {selections : List Selection} {planned planned' : Planned (List Plan.Node)}
    (h : s.Plans object selections planned) (h' : s.Plans object selections planned') :
    planned = planned' := by
  induction h generalizing planned' with
  | intro hfound _ ih =>
    obtain ⟨hfound', hbelow'⟩ := h'
    cases hfound.unique hfound'
    have hnodes := List.map_congr_left fun g hg =>
      node_congr fun possible hp => ih g hg possible hp (hbelow' g hg possible hp)
    rw [hnodes]

theorem Builds.unique {o : Operation} {result result' : Except (List PlanError) Plan}
    (h : s.Builds o result) (h' : s.Builds o result') : result = result' := by
  cases h with
  | noRoot hnone =>
    cases h' with
    | noRoot => rfl
    | plan hroot | problems hroot => cases hnone.symm.trans hroot
  | plan hroot hplans =>
    cases h' with
    | noRoot hnone => cases hnone.symm.trans hroot
    | plan hroot' hplans' =>
      cases hroot.symm.trans hroot'
      cases hplans.unique hplans'
      rfl
    | problems hroot' hplans' hne =>
      cases hroot.symm.trans hroot'
      cases hplans.unique hplans'
      exact absurd rfl hne
  | problems hroot hplans hne =>
    cases h' with
    | noRoot hnone => cases hnone.symm.trans hroot
    | plan hroot' hplans' =>
      cases hroot.symm.trans hroot'
      cases hplans.unique hplans'
      exact absurd rfl hne
    | problems hroot' hplans' =>
      cases hroot.symm.trans hroot'
      cases hplans.unique hplans'
      rfl

/-! ## Fragments within each other -/

/-- The bound on fragments within each other is never reached, since they are distinct. -/
theorem expands_expand (fuel : Nat) (active : List Name) (hactive : active.Nodup)
    (hnames : ∀ name ∈ active, name ∈ s.fragmentNames)
    (hfuel : s.document.fragments.length < fuel + active.length) (spread : FragmentSpread) :
    s.Expands object active spread (s.expand object fuel active spread) := by
  induction fuel generalizing active spread with
  | zero =>
    have := length_le_fragments hactive hnames
    omega
  | succ fuel ih =>
    rw [expand]
    split
    · next hnone => exact .undefined hnone
    · next fragment hsome =>
      split
      · next hloop => exact .loop hsome (List.contains_iff_mem.1 hloop)
      · next hloop =>
        have hnot : spread.name.node ∉ active := fun hm => hloop (List.contains_iff_mem.2 hm)
        refine .fragment hsome hnot fun next => ih _ ?_ ?_ ?_ next
        · exact List.nodup_cons.2 ⟨hnot, hactive⟩
        · exact List.forall_mem_cons.2 ⟨mem_fragmentNames hsome, hnames⟩
        · rw [List.length_cons]
          omega

theorem collects_collect (selections : List Selection) :
    s.Collects object selections (s.collect object selections) := by
  constructor
  intro spread
  apply expands_expand _ [] .nil
  · simp
  · simp

/-! ## Fields below fields -/

theorem mem_unlessExcluded {ds : List (Directive Name)} {found : Collected} {f : Field}
    (h : f ∈ (s.unlessExcluded ds found).fields) : f ∈ found.fields := by
  unfold unlessExcluded at h
  split at h
  · exact h
  · cases h
  · cases h

theorem mem_whereApplies {condition : Located Name} {found : Collected} {f : Field}
    (h : f ∈ (s.whereApplies condition object found).fields) : f ∈ found.fields := by
  unfold whereApplies at h
  split at h
  · exact h
  · cases h
  · cases h

section

variable {expand : FragmentSpread → Collected}

mutual

theorem descends_flatten
    (hexpand : ∀ spread, ∀ f ∈ (expand spread).fields, s.document.Brings spread.name.node f)
    {f : Field} {items : List Selection} : ∀ item : Selection, item ∈ items →
    f ∈ (s.flatten object expand item).fields → s.document.Descends items f
  | .field x, hitem, h => by
    rw [flatten] at h
    obtain rfl : f = x := List.mem_singleton.1 (mem_unlessExcluded h)
    exact .inl (.here hitem)
  | .spread x, hitem, h => by
    rw [flatten] at h
    exact .inr ⟨false, x.name.node, .here hitem, hexpand x f (mem_unlessExcluded h)⟩
  | .inline ⟨pos, none, directives, ⟨pos', inner⟩⟩, hitem, h => by
    rw [flatten] at h
    exact (descends_flattenAll hexpand inner (mem_unlessExcluded h)).of_inline hitem
  | .inline ⟨pos, some condition, directives, ⟨pos', inner⟩⟩, hitem, h => by
    rw [flatten] at h
    have hinner := mem_whereApplies (mem_unlessExcluded h)
    exact (descends_flattenAll hexpand inner hinner).of_inline hitem

theorem descends_flattenAll
    (hexpand : ∀ spread, ∀ f ∈ (expand spread).fields, s.document.Brings spread.name.node f)
    {f : Field} : ∀ items : List Selection,
    f ∈ (s.flattenAll object expand items).fields → s.document.Descends items f
  | [], h => by cases h
  | item :: rest, h => by
    rw [flattenAll, fields_append, List.mem_append] at h
    rcases h with hitem | hrest
    · exact descends_flatten hexpand item (List.mem_cons_self ..) hitem
    · exact (descends_flattenAll hexpand rest hrest).mono (List.subset_cons_self item rest)

end

end

theorem Expands.brings {active : List Name} {spread : FragmentSpread} {found : Collected}
    (h : s.Expands object active spread found) {f : Field} (hf : f ∈ found.fields) :
    s.document.Brings spread.name.node f := by
  induction h generalizing f with
  | undefined => cases hf
  | loop => cases hf
  | fragment hsome _ _ ih =>
    apply Document.brings_of_fragment hsome
    exact descends_flattenAll (fun next g hg => ih next hg) _ (mem_whereApplies hf)

theorem Collects.descends {selections : List Selection} {found : Collected}
    (h : s.Collects object selections found) {f : Field} (hf : f ∈ found.fields) :
    s.document.Descends selections f := by
  obtain ⟨houter⟩ := h
  exact descends_flattenAll (fun spread g hg => (houter spread).brings hg) _ hf

theorem Collects.descends_items {selections : List Selection} {found : Collected}
    (h : s.Collects object selections found) {g : Merged} (hg : g ∈ Merged.groups found.fields)
    {f : Field} (hf : f ∈ g.items) : s.document.Descends selections f := by
  rw [(Merged.groups_spec found.fields).items g hg] at hf
  exact h.descends (List.mem_of_mem_filter hf)

theorem types_ne_nil_of_opens {g : Merged} {possible : Name} (h : possible ∈ s.opens object g) :
    s.registry.types ≠ [] := by
  intro hnil
  unfold opens at h
  split at h
  · split at h
    · cases h
    · unfold Registry.possibleTypes Registry.lookup at h
      rw [hnil] at h
      cases h
  · cases h

/-- The bound on levels is never reached if it is as long as the longest descent through the fields
of the document: each level takes one step down. -/
theorem plans_nodes {pos : Position} {levels : Nat} {selections : List Selection}
    (h : ∀ chain : List Field,
      chain.IsChain (fun f g => s.document.Descends f.selections.items g) →
      (∀ f ∈ chain.head?, s.document.Descends selections f) →
      s.registry.types ≠ [] → chain.length ≤ levels) :
    s.Plans object selections (s.nodes pos (levels + 1) object selections) := by
  induction levels generalizing object selections with
  | zero =>
    refine @Plans.intro _ s _ _ _ (s.nodes pos 0) (collects_collect selections) ?_
    intro g hg possible hp
    have hfirst := (collects_collect selections).descends_items hg (List.mem_cons_self ..)
    have hlength := h [g.first] (.singleton _) (by rintro f ⟨⟩; exact hfirst)
      (types_ne_nil_of_opens hp)
    exact absurd hlength (Nat.not_succ_le_zero 0)
  | succ levels ih =>
    refine @Plans.intro _ s _ _ _ (s.nodes pos (levels + 1)) (collects_collect selections) ?_
    intro g hg possible hp
    apply ih
    intro chain hchain hstart hne
    cases chain with
    | nil => exact Nat.zero_le _
    | cons next chain =>
      obtain ⟨f, hf, hnext⟩ := Document.descends_flatMap (hstart next rfl)
      have hfield := (collects_collect selections).descends_items hg hf
      have hlength := h (f :: next :: chain) (.cons_cons hnext hchain)
        (by rintro x ⟨⟩; exact hfield) hne
      exact Nat.le_of_succ_le_succ hlength

theorem fieldsFor_length_le_levels (o : Operation) (hne : s.registry.types ≠ []) :
    (s.document.fieldsFor o.selections.items).length + 1 ≤ s.levels o := by
  have hcount : ∀ (fragments : List Fragment) (start : Nat),
      fragments.foldl (fun n f => n + fieldCounts f.selections.items) start =
        start + (fragments.flatMap fun f => Selection.fieldsAmong f.selections.items).length := by
    intro fragments
    induction fragments with
    | nil => intro start; rfl
    | cons f fragments ih =>
      intro start
      rw [List.foldl_cons, ih, List.flatMap_cons, List.length_append,
        Selection.length_fieldsAmong, Nat.add_assoc]
  have hfields : (s.document.fieldsFor o.selections.items).length =
      s.document.fragments.foldl (fun n f => n + fieldCounts f.selections.items)
        (fieldCounts o.selections.items) := by
    rw [hcount, Document.fieldsFor, List.length_append, Selection.length_fieldsAmong]
  unfold levels
  rw [← hfields]
  generalize (s.document.fieldsFor o.selections.items).length = n
  have hpow : n + 1 ≤ Nat.pow (n + 1) (n + 1) := Nat.le_self_pow (Nat.succ_ne_zero n) _
  have htypes : 0 < s.registry.types.length := List.length_pos_iff.2 hne
  have := Nat.le_mul_of_pos_left (Nat.pow (n + 1) (n + 1)) htypes
  simp only
  omega

/-! ## Loops are reported -/

theorem mem_flattenAll {expand : FragmentSpread → Collected} {item : Selection}
    {items : List Selection} (h : item ∈ items) {p : PlanError}
    (hp : p ∈ (s.flatten object expand item).problems) :
    p ∈ (s.flattenAll object expand items).problems := by
  induction items with
  | nil => cases h
  | cons first rest ih =>
    rw [flattenAll, problems_append, List.mem_append]
    rcases List.mem_cons.1 h with rfl | hrest
    · exact .inl hp
    · exact .inr (ih hrest)

theorem unlessExcluded_of_false {ds : List (Directive Name)} {found : Collected}
    (h : Directive.anyExcludes s.variableValues ds = .ok false) :
    s.unlessExcluded ds found = found := by
  unfold unlessExcluded
  rw [h]

theorem whereApplies_of_true {condition : Located Name} {found : Collected}
    (h : s.applies condition object = .ok true) :
    s.whereApplies condition object found = found := by
  unfold whereApplies
  rw [h]

theorem problem_of_loops {active : List Name} {items : List Selection} {spread : FragmentSpread}
    (h : s.Loops object active items spread) {expand : FragmentSpread → Collected}
    (hexpand : ∀ next, s.Expands object active next (expand next)) :
    .fragmentLoop spread.name.node spread.pos ∈ (s.flattenAll object expand items).problems := by
  induction h generalizing expand with
  | @here active items spread fragment hitem hkept hsome hactive =>
    apply mem_flattenAll hitem
    rw [flatten, unlessExcluded_of_false hkept, (hexpand spread).unique (.loop hsome hactive)]
    exact List.mem_singleton_self _
  | @inline active items spread f hitem hkept happlies _ ih =>
    apply mem_flattenAll hitem
    obtain ⟨pos, condition, directives, ⟨pos', inner⟩⟩ := f
    cases condition with
    | none =>
      rw [flatten, unlessExcluded_of_false hkept]
      exact ih hexpand
    | some condition =>
      rw [flatten, unlessExcluded_of_false hkept]
      simp only [whereApplies_of_true (happlies condition rfl)]
      exact ih hexpand
  | @fragment active items spread outer fragment hitem hkept hsome hnot happlies _ ih =>
    apply mem_flattenAll hitem
    rw [flatten, unlessExcluded_of_false hkept]
    have houter := hexpand outer
    generalize expand outer = found at houter ⊢
    cases houter with
    | undefined hnone => cases hnone.symm.trans hsome
    | loop _ hactive => exact absurd hactive hnot
    | fragment hsome' _ hinner =>
      cases hsome.symm.trans hsome'
      rw [whereApplies_of_true happlies]
      exact ih hinner

theorem problem_of_meets {selections : List Selection} {spread : FragmentSpread}
    (h : s.Meets object selections spread) {planned : Planned (List Plan.Node)}
    (hplans : s.Plans object selections planned) :
    .fragmentLoop spread.name.node spread.pos ∈ planned.problems := by
  induction h generalizing planned with
  | here hloops =>
    obtain ⟨⟨houter⟩, -⟩ := hplans
    exact List.mem_append_left _ (problem_of_loops hloops houter)
  | @inside object possible selections spread found g hfound hg hp _ ih =>
    obtain ⟨hfound', hbelow⟩ := hplans
    cases hfound.unique hfound'
    apply List.mem_append_right
    exact List.mem_flatMap.2 ⟨_, List.mem_map_of_mem hg,
      problems_of_opens hp (ih (hbelow g hg possible hp))⟩

theorem Builds.problem_of_meets {o : Operation} {result : Except (List PlanError) Plan}
    (h : s.Builds o result) {root : Name} (hroot : s.registry.root? o.kind = some root)
    {spread : FragmentSpread} (hmeets : s.Meets root o.selections.items spread) :
    ∃ problems, result = .error problems ∧
      .fragmentLoop spread.name.node spread.pos ∈ problems := by
  cases h with
  | noRoot hnone => cases hnone.symm.trans hroot
  | plan hroot' hplans =>
    cases hroot.symm.trans hroot'
    cases Scope.problem_of_meets hmeets hplans
  | problems hroot' hplans =>
    cases hroot.symm.trans hroot'
    exact ⟨_, rfl, Scope.problem_of_meets hmeets hplans⟩

end Scope

/-- Where no cycle of fragments has a spread within a field, the recursion comes to an end, and the
plan of an operation is what it comes to. Each spread that it meets of a fragment that is being
expanded is among what is wrong. -/
theorem Plan.build_ends {ρ : Type} {s : Scope ρ} (h : s.document.CyclesOnTop) (o : Operation) :
    (∀ result, s.Builds o result ↔ result = Plan.build s o) ∧
      ∀ root spread, s.registry.root? o.kind = some root → s.Meets root o.selections.items spread →
        ∃ problems, Plan.build s o = .error problems ∧
          .fragmentLoop spread.name.node spread.pos ∈ problems := by
  have hplans : ∀ root, s.Plans root o.selections.items
      (s.nodes o.selections.pos (s.levels o) root o.selections.items) := by
    intro root
    obtain ⟨levels, hlevels⟩ : ∃ levels, s.levels o = levels + 1 := ⟨_, rfl⟩
    rw [hlevels]
    apply Scope.plans_nodes
    intro chain hchain hstart hne
    have := Document.length_descent h hchain hstart
    have := Scope.fieldsFor_length_le_levels o hne
    omega
  have hbuilds : s.Builds o (Plan.build s o) := by
    unfold Plan.build
    split
    · next hnone => exact .noRoot hnone
    · next root hroot =>
      have := hplans root
      split
      · next fields heq => exact .plan hroot (heq ▸ this)
      · next fields problems hne heq =>
        rw [heq] at this
        refine .problems hroot this ?_
        rintro rfl
        exact hne rfl
  constructor
  · intro result
    constructor
    · intro hresult
      exact hresult.unique hbuilds
    · rintro rfl
      exact hbuilds
  · intro root spread hroot hmeets
    exact hbuilds.problem_of_meets hroot hmeets

namespace Sample

/-- The spread of a fragment on a line of its own. -/
def spreadAt (name : Name) (line : Nat) : FragmentSpread :=
  ⟨⟨line, 1⟩, ⟨⟨line, 4⟩, name⟩, []⟩

/-- A field without an alias or arguments. -/
def fieldAt (name : Name) (line : Nat) (items : List Selection) : Field :=
  ⟨⟨line, 1⟩, none, ⟨⟨line, 1⟩, name⟩, [], [], ⟨⟨line, 10⟩, items⟩⟩

def fragmentOn (name type : Name) (line : Nat) (items : List Selection) : Fragment :=
  ⟨⟨line, 1⟩, some ⟨⟨line, 10⟩, name⟩, ⟨⟨line, 20⟩, ⟨⟨line, 23⟩, type⟩⟩, [], ⟨⟨line, 30⟩, items⟩⟩

def loopOperation : Operation :=
  ⟨⟨1, 1⟩, .query, none, [], [], ⟨⟨1, 1⟩, [.spread (spreadAt "Main" 2)]⟩⟩

/-- Two fragments that spread each other, and one that spreads them within a field. -/
def loopDocument : Document :=
  let main := [.field (fieldAt "node" 5 [.spread (spreadAt "Top" 6)])]
  let top := [.spread (spreadAt "Bottom" 10), .field (fieldAt "id" 11 [])]
  let bottom := [.inline ⟨⟨14, 1⟩, none, [], ⟨⟨14, 5⟩, [.spread (spreadAt "Top" 15)]⟩⟩]
  ⟨[.operation loopOperation, .fragment (fragmentOn "Main" "Query" 4 main),
    .fragment (fragmentOn "Top" "Node" 9 top),
    .fragment (fragmentOn "Bottom" "User" 13 bottom)], none⟩

/-- The second of the two fragments is met again below the field. -/
theorem meets_top :
    (nodeScope loopDocument).Meets "Query" loopOperation.selections.items (spreadAt "Top" 15) := by
  let node : Merged := ⟨"node", fieldAt "node" 5 [.spread (spreadAt "Top" 6)], []⟩
  have hnode : node ∈ Merged.groups ((nodeScope loopDocument).collect "Query"
      loopOperation.selections.items).fields := List.mem_singleton_self _
  have huser : "User" ∈ (nodeScope loopDocument).opens "Query" node := by decide
  refine .inside (Scope.collects_collect _) hnode huser (.here ?_)
  apply Scope.Loops.fragment (List.mem_singleton_self _) rfl rfl (by decide) (by rfl)
  apply Scope.Loops.fragment (List.mem_cons_self ..) rfl rfl (by decide) (by rfl)
  apply Scope.Loops.inline (List.mem_singleton_self _) rfl (by rintro _ ⟨⟩)
  apply Scope.Loops.here (List.mem_singleton_self _) rfl rfl (by decide)

end Sample

theorem Plan.build_ends_loop : Sample.loopDocument.CyclesOnTop ∧
    (∃ result, ∀ other,
      (Sample.nodeScope Sample.loopDocument).Builds Sample.loopOperation other ↔ other = result) ∧
    ∃ problems,
      Plan.build (Sample.nodeScope Sample.loopDocument) Sample.loopOperation = .error problems ∧
        .fragmentLoop "Top" ⟨15, 1⟩ ∈ problems := by
  have hranked : Sample.loopDocument.isRanked (fun name => if name = "Main" then 1 else 0) = true :=
    by decide
  have h := Document.cyclesOnTop_of_isRanked hranked
  obtain ⟨hbuilds, hloops⟩ :=
    Plan.build_ends (s := Sample.nodeScope Sample.loopDocument) h Sample.loopOperation
  exact ⟨h, ⟨_, hbuilds⟩, hloops "Query" _ rfl Sample.meets_top⟩

end GraphQL
