import GraphQL.Proofs.Plan.Below
import GraphQL.Proofs.Plan.Unplaced

/-!
# Merging selections is a union

The nodes of two lists of selections together are the union of their nodes (`nodes_append`): the
keys of the first list in their order, then the new keys of the second; where both have a key, the
fields of the second go behind those of the first, and what is below is united in the same way for
each object type.
-/

namespace GraphQL

namespace Plan

/-- The nodes whose key none of the first ones has. -/
def newTo (ns ms : List Node) : List Node :=
  ms.filter fun m => !ns.any fun n => n.key = m.key

mutual

/-- A node with the fields of another one behind its own, united with it below. -/
def Node.absorb : Node → Node → Node
  | ⟨key, owner, type, first, others, children⟩, m =>
    ⟨key, owner, type, first, others ++ m.items, absorbBelow children m.children⟩

/-- The nodes for each object type, united with those that there are for it besides. -/
def absorbBelow : List (Name × List Node) → List (Name × List Node) → List (Name × List Node)
  | [], _ => []
  | (object, ns) :: rest, more =>
    let ms := (Assoc.get? more object).getD []
    (object, absorbEach ns ms ++ newTo ns ms) :: absorbBelow rest more

/-- Each node with the fields of that of its key, if there is one. -/
def absorbEach : List Node → List Node → List Node
  | [], _ => []
  | n :: rest, ms =>
    (match ms.find? fun m => m.key = n.key with
      | some m => n.absorb m
      | none => n) :: absorbEach rest ms

end

/-- The nodes of either list, those of one key made one. -/
def union (ns ms : List Node) : List Node :=
  absorbEach ns ms ++ newTo ns ms

mutual

/-- Whether two nodes, if they have one key, are of fields with one name, and so below them. -/
def Node.agrees : Node → Node → Bool
  | ⟨key, _, _, first, _, children⟩, m =>
    key ≠ m.key || (first.name.node = m.name && agreeBelow children m.children)

def agreeBelow : List (Name × List Node) → List (Name × List Node) → Bool
  | [], _ => true
  | (object, ns) :: rest, more =>
    agree ns ((Assoc.get? more object).getD []) && agreeBelow rest more

/-- Whether the nodes of one key are of fields with one name, at every level. -/
def agree : List Node → List Node → Bool
  | [], _ => true
  | n :: rest, ms => (ms.all fun m => n.agrees m) && agree rest ms

end

mutual

/-- A node without the fields that were merged into its first one, here and below. -/
def Node.outline : Node → Node
  | ⟨key, owner, type, first, _, children⟩ => ⟨key, owner, type, first, [], outlineBelow children⟩

def outlineBelow : List (Name × List Node) → List (Name × List Node)
  | [] => []
  | (object, ns) :: rest => (object, outline ns) :: outlineBelow rest

/-- Nodes without the fields that were merged into the first ones: keys, types, first fields, and
the same below for each object type. -/
def outline : List Node → List Node
  | [] => []
  | n :: rest => n.outline :: outline rest

end

variable {n m : Node} {ns ms : List Node}

theorem outlineBelow_map (objects : List Name) (f : Name → List Node) :
    outlineBelow (objects.map fun object => (object, f object)) =
      objects.map fun object => (object, outline (f object)) := by
  induction objects with
  | nil => rfl
  | cons object objects ih => rw [List.map_cons, List.map_cons, outlineBelow, ih]

theorem absorbBelow_map (objects : List Name) (f : Name → List Node)
    (more : List (Name × List Node)) :
    absorbBelow (objects.map fun object => (object, f object)) more =
      objects.map fun object => (object, union (f object) ((Assoc.get? more object).getD [])) := by
  induction objects with
  | nil => rfl
  | cons object objects ih =>
    rw [List.map_cons, List.map_cons, absorbBelow, ih]
    rfl

/-- An object type is looked up among entries made for a list of object types. -/
theorem get?_entries {objects : List Name} {object : Name} (h : object ∈ objects)
    (f : Name → List Node) :
    Assoc.get? (objects.map fun object => (object, f object)) object = some (f object) := by
  induction objects with
  | nil => cases h
  | cons first rest ih =>
    rw [List.map_cons, Assoc.get?]
    by_cases he : first = object
    · rw [if_pos he, he]
    · rw [if_neg he]
      exact ih ((List.mem_cons.1 h).resolve_left (Ne.symm he))

theorem name_of_agrees (h : n.agrees m = true) (hkey : n.key = m.key) : n.name = m.name := by
  obtain ⟨key, owner, type, first, others, children⟩ := n
  rw [Node.agrees] at h
  simp only at hkey
  simp only [hkey, ne_eq, not_true_eq_false, decide_false, Bool.false_or, Bool.and_eq_true,
    decide_eq_true_eq] at h
  exact h.1

theorem agree_of_agrees {objects : List Name} {object : Name} {as bs : Name → List Node}
    (h : n.agrees m = true) (hkey : n.key = m.key)
    (hn : n.children = objects.map fun object => (object, as object))
    (hm : m.children = objects.map fun object => (object, bs object)) (ho : object ∈ objects) :
    agree (as object) (bs object) = true := by
  obtain ⟨key, owner, type, first, others, children⟩ := n
  simp only at hkey hn
  subst hn
  rw [Node.agrees] at h
  simp only [hkey, ne_eq, not_true_eq_false, decide_false, Bool.false_or, Bool.and_eq_true] at h
  have hbelow := h.2
  rw [hm] at hbelow
  have hall : ∀ rest : List Name, agreeBelow (rest.map fun object => (object, as object))
      (objects.map fun object => (object, bs object)) = true →
      object ∈ rest → agree (as object) (bs object) = true := by
    intro rest
    induction rest with
    | nil =>
      intro _ hr
      cases hr
    | cons first rest ih =>
      intro hrest hr
      rw [List.map_cons, agreeBelow, Bool.and_eq_true] at hrest
      rcases List.mem_cons.1 hr with rfl | hr
      · have hfirst := hrest.1
        rwa [get?_entries ho bs] at hfirst
      · exact ih hrest.2 hr
  exact hall objects hbelow ho

end Plan

/-! ## Groups of fields -/

theorem Name.distinct_append (xs ys : List Name) : Name.distinct (xs ++ ys) =
    Name.distinct xs ++ (Name.distinct ys).filter fun y => decide (y ∉ xs) := by
  induction xs with
  | nil => simp [Name.distinct]
  | cons x xs ih =>
    rw [List.cons_append, Name.distinct, Name.distinct, ih, List.filter_append, List.filter_filter,
      List.cons_append]
    congr 3
    funext y
    by_cases hx : y = x <;> by_cases hxs : y ∈ xs <;> simp [hx, hxs]

/-- Names that occur again add none. -/
theorem Name.distinct_append_of_mem {xs ys : List Name} (h : ∀ y ∈ ys, y ∈ xs) (zs : List Name) :
    Name.distinct (xs ++ ys ++ zs) = Name.distinct (xs ++ zs) := by
  have hnone : (Name.distinct ys).filter (fun y => decide (y ∉ xs)) = [] := by
    rw [List.filter_eq_nil_iff]
    intro y hy
    simpa using h y (Name.mem_distinct.1 hy)
  rw [Name.distinct_append (xs ++ ys), Name.distinct_append xs ys, hnone, List.append_nil,
    Name.distinct_append xs zs]
  congr 1
  apply List.filter_congr
  intro z _
  rw [decide_eq_decide, List.mem_append]
  constructor
  · exact fun hz hx => hz (.inl hx)
  · rintro hz (hx | hy)
    · exact hz hx
    · exact hz (h z hy)

/-- Lists whose items have the same marks are related item by item if those with one mark are. -/
theorem forall₂_of_map_eq {α β γ : Type} {R : α → β → Prop} {f : α → γ} {k : β → γ} {xs : List α}
    {ys : List β} (hmarks : xs.map f = ys.map k)
    (h : ∀ x ∈ xs, ∀ y ∈ ys, f x = k y → R x y) : List.Forall₂ R xs ys := by
  induction xs generalizing ys with
  | nil =>
    obtain rfl := List.map_eq_nil_iff.1 hmarks.symm
    exact .nil
  | cons x xs ih =>
    cases ys with
    | nil => cases hmarks
    | cons y ys =>
      obtain ⟨hmark, hrest⟩ := List.cons.inj hmarks
      refine .cons (h x (List.mem_cons_self ..) y (List.mem_cons_self ..) hmark) ?_
      exact ih hrest fun x hx y hy => h x (List.mem_cons_of_mem _ hx) y (List.mem_cons_of_mem _ hy)

namespace Merged

open Scope

/-- A group with the fields behind its own that a group of its key has among the others. -/
def absorb (hs : List Merged) (g : Merged) : Merged :=
  match hs.find? fun h => h.key = g.key with
  | some h => { g with others := g.others ++ h.items }
  | none => g

/-- The groups of either list, those of one key made one. -/
def union (gs hs : List Merged) : List Merged :=
  gs.map (absorb hs) ++ hs.filter fun h => !gs.any fun g => g.key = h.key

/-- There is one list of groups of some fields. -/
theorem Groups.unique {fields : List Field} {gs hs : List Merged} (hg : Groups fields gs)
    (hh : Groups fields hs) : gs = hs := by
  refine eq_of_map_eq key (hg.keys.trans hh.keys.symm) fun g hgm h hhm hkey => ?_
  have hitems : g.items = h.items := by rw [hg.items g hgm, hh.items h hhm, hkey]
  obtain ⟨key, first, others⟩ := g
  obtain ⟨key', first', others'⟩ := h
  obtain ⟨rfl, rfl⟩ := List.cons.inj hitems
  obtain rfl : key = key' := hkey
  rfl

theorem Groups.mem_keys {fields : List Field} {gs : List Merged} (h : Groups fields gs) {k : Name} :
    (∃ g ∈ gs, g.key = k) ↔ k ∈ fields.map keyOf := by
  rw [← Name.mem_distinct, ← h.keys, List.mem_map]

theorem key_map_union (gs hs : List Merged) :
    (union gs hs).map key = gs.map key ++
      (hs.filter fun h => !gs.any fun g => g.key = h.key).map key := by
  rw [union, List.map_append, List.map_map]
  congr 1
  apply List.map_congr_left
  intro g hg
  simp only [Function.comp_apply, absorb]
  cases hs.find? fun h => h.key = g.key <;> rfl

/-- No field has a key that no group has. -/
theorem Groups.filter_eq_nil {fields : List Field} {gs : List Merged} (h : Groups fields gs)
    {k : Name} (hk : ∀ g ∈ gs, g.key ≠ k) : fields.filter (fun f => keyOf f = k) = [] := by
  rw [List.filter_eq_nil_iff]
  intro f hf he
  obtain ⟨g, hg, hkey⟩ := h.mem_keys.2 (List.mem_map_of_mem (f := keyOf) hf)
  exact hk g hg (hkey.trans (of_decide_eq_true he))

/-- The fields of a group that absorbed those of its key. -/
theorem Groups.items_absorb {as bs : List Field} {gs hs : List Merged} (ha : Groups as gs)
    (hb : Groups bs hs) {g : Merged} (hg : g ∈ gs) :
    (absorb hs g).items = (as ++ bs).filter fun f => keyOf f = (absorb hs g).key := by
  rw [List.filter_append]
  unfold absorb
  cases hfind : hs.find? fun h => h.key = g.key with
  | some h =>
    have hkey : h.key = g.key := by simpa using List.find?_some hfind
    have hitems := hb.items h (List.mem_of_find?_eq_some hfind)
    rw [hkey] at hitems
    simp only [Merged.items] at hitems ⊢
    rw [hitems, ← List.cons_append]
    congr 1
    exact ha.items g hg
  | none =>
    have hnone : bs.filter (fun f => keyOf f = g.key) = [] :=
      hb.filter_eq_nil fun h hh => by simpa using List.find?_eq_none.1 hfind h hh
    rw [hnone, List.append_nil]
    exact ha.items g hg

/-- The groups of fields in two lists are the union of their groups. -/
theorem groups_append (as bs : List Field) : groups (as ++ bs) = union (groups as) (groups bs) := by
  have ha := groups_spec as
  have hb := groups_spec bs
  generalize groups as = gs at ha ⊢
  generalize groups bs = hs at hb ⊢
  apply (groups_spec (as ++ bs)).unique
  constructor
  · rw [key_map_union, List.map_append, Name.distinct_append, ← ha.keys, ← hb.keys, List.filter_map]
    congr 2
    apply List.filter_congr
    intro h _
    show (!gs.any fun g => decide (g.key = h.key)) = decide (¬ h.key ∈ as.map keyOf)
    rw [Bool.eq_iff_iff, decide_eq_true_eq, ← ha.mem_keys]
    simp
  · intro g hg
    rcases List.mem_append.1 hg with hg | hg
    · obtain ⟨g, hgm, rfl⟩ := List.mem_map.1 hg
      exact ha.items_absorb hb hgm
    · obtain ⟨hgm, hnew⟩ := List.mem_filter.1 hg
      have hnone : as.filter (fun f => keyOf f = g.key) = [] :=
        ha.filter_eq_nil (by simpa using hnew)
      rw [List.filter_append, hnone, List.nil_append]
      exact hb.items g hgm

end Merged

/-! ## Nodes -/

namespace Scope

variable {ρ : Type} {s : Scope ρ} {object : Name} {pos : Position}
  {below : Name → List Selection → Planned (List Plan.Node)}

theorem flattenAll_append (expand : FragmentSpread → Collected) (xs ys : List Selection) :
    s.flattenAll object expand (xs ++ ys) =
      s.flattenAll object expand xs ++ s.flattenAll object expand ys := by
  induction xs with
  | nil => rfl
  | cons x xs ih =>
    rw [List.cons_append, flattenAll, flattenAll, ih]
    show Collected.mk _ _ = Collected.mk _ _
    simp only [fields_append, problems_append, List.append_assoc]

theorem collect_append (xs ys : List Selection) :
    s.collect object (xs ++ ys) = s.collect object xs ++ s.collect object ys :=
  flattenAll_append _ xs ys

/-- Two groups of one key as one group have their nodes united. -/
theorem node_absorb {g h : Merged} {n m : Plan.Node} (hn : s.node below object g = ⟨some n, []⟩)
    (hm : s.node below object h = ⟨some m, []⟩) (hkey : g.key = h.key) (hagree : n.agrees m = true)
    (hbelow : ∀ possible ns ms, below possible g.selections = ⟨ns, []⟩ →
      below possible h.selections = ⟨ms, []⟩ → Plan.agree ns ms = true →
      below possible (g.selections ++ h.selections) = ⟨Plan.union ns ms, []⟩) :
    s.node below object { g with others := g.others ++ h.items } = ⟨some (n.absorb m), []⟩ := by
  obtain ⟨type, htype, hsome, hnone, rfl⟩ := node_eq_iff.1 hn
  obtain ⟨type', htype', hsome', hnone', rfl⟩ := node_eq_iff.1 hm
  have hname : g.first.name.node = h.first.name.node := Plan.name_of_agrees hagree hkey
  obtain rfl : type = type' := by
    rw [hname, htype'] at htype
    exact (Option.some.inj htype).symm
  have hselections : ({ g with others := g.others ++ h.items } : Merged).selections =
      g.selections ++ h.selections := by
    simp [Merged.selections, Merged.items]
  have hunited : ∀ possible ∈ s.registry.possibleTypes type.innermost,
      below possible (g.selections ++ h.selections) =
        ⟨Plan.union (below possible g.selections).value (below possible h.selections).value,
          []⟩ := by
    intro possible hp
    apply hbelow
    · rw [← hnone possible hp]
    · rw [← hnone' possible hp]
    · exact Plan.agree_of_agrees hagree hkey rfl rfl hp
  refine node_eq_iff.2 ⟨type, htype, ?_, fun possible hp => ?_, ?_⟩
  · rw [hselections]
    constructor
    · intro hcomposite hnil
      exact hsome.1 hcomposite (List.append_eq_nil_iff.1 hnil).1
    · intro hne
      by_cases hnil : g.selections = []
      · rw [hnil, List.nil_append] at hne
        exact hsome'.2 hne
      · exact hsome.2 hnil
  · rw [hselections, hunited possible hp]
  · rw [Plan.Node.absorb, Plan.absorbBelow_map, hselections]
    congr 1
    apply List.map_congr_left
    intro possible hp
    rw [hunited possible hp,
      Plan.get?_entries hp fun possible => (below possible h.selections).value]
    rfl

/-- The nodes of groups, one by one and with nothing wrong. -/
abbrev AreNodes (s : Scope ρ) (below : Name → List Selection → Planned (List Plan.Node))
    (object : Name) (groups : List Merged) (ns : List Plan.Node) : Prop :=
  List.Forall₂ (fun g n => s.node below object g = ⟨some n, []⟩) groups ns

theorem key_of_node {g : Merged} {n : Plan.Node} (h : s.node below object g = ⟨some n, []⟩) :
    n.key = g.key := by
  obtain ⟨-, -, -, -, rfl⟩ := node_eq_iff.1 h
  rfl

/-- A key is found among groups and among their nodes, or among neither. -/
theorem AreNodes.find? {hs : List Merged} {ms : List Plan.Node} (h : s.AreNodes below object hs ms)
    (k : Name) :
    (∃ g m, (hs.find? fun h => h.key = k) = some g ∧ (ms.find? fun m => m.key = k) = some m ∧
      s.node below object g = ⟨some m, []⟩) ∨
    ((hs.find? fun h => h.key = k) = none ∧ (ms.find? fun m => m.key = k) = none) := by
  induction h with
  | nil => exact .inr ⟨rfl, rfl⟩
  | @cons g n hs ms hg _ ih =>
    have hkey := key_of_node hg
    by_cases hk : g.key = k
    · left
      refine ⟨g, n, ?_, ?_, hg⟩
      · exact List.find?_cons_of_pos (by simpa using hk)
      · exact List.find?_cons_of_pos (by simpa [hkey] using hk)
    · rw [List.find?_cons_of_neg (by simpa using hk),
        List.find?_cons_of_neg (by simpa [hkey] using hk)]
      exact ih

theorem AreNodes.any {gs : List Merged} {ns : List Plan.Node} (h : s.AreNodes below object gs ns)
    (k : Name) : (gs.any fun g => decide (g.key = k)) = ns.any fun n => decide (n.key = k) := by
  induction h with
  | nil => rfl
  | cons hg _ ih => rw [List.any_cons, List.any_cons, ih, key_of_node hg]

/-- Groups take in those of their keys as their nodes do, if the plans for united selections are
united. -/
theorem AreNodes.absorb {gs hs : List Merged} {ns ms : List Plan.Node}
    (hn : s.AreNodes below object gs ns) (hm : s.AreNodes below object hs ms)
    (hagree : Plan.agree ns ms = true)
    (hbelow : ∀ possible as bs ks ls, below possible as = ⟨ks, []⟩ → below possible bs = ⟨ls, []⟩ →
      Plan.agree ks ls = true → below possible (as ++ bs) = ⟨Plan.union ks ls, []⟩) :
    s.AreNodes below object (gs.map (Merged.absorb hs)) (Plan.absorbEach ns ms) := by
  induction hn with
  | nil => exact .nil
  | @cons g n gs ns hg _ ih =>
    rw [Plan.agree, Bool.and_eq_true, List.all_eq_true] at hagree
    rw [List.map_cons, Plan.absorbEach]
    refine .cons ?_ (ih hagree.2)
    unfold Merged.absorb
    rw [key_of_node hg]
    rcases hm.find? g.key with ⟨h, m, hh, hfound, hnode⟩ | ⟨hh, hfound⟩
    · rw [hh, hfound]
      have hkey : h.key = g.key := by simpa using List.find?_some hh
      apply node_absorb hg hnode hkey.symm (hagree.1 m (List.mem_of_find?_eq_some hfound))
      intro possible
      exact hbelow possible g.selections h.selections
    · rw [hh, hfound]
      exact hg

/-- The nodes of two lists of selections together are the union of their nodes, and nothing is wrong
with them, if nothing is wrong with either list alone and fields of one key have one name. -/
theorem nodes_append {levels : Nat} {as bs : List Selection} {ns ms : List Plan.Node}
    (ha : s.nodes pos levels object as = ⟨ns, []⟩) (hb : s.nodes pos levels object bs = ⟨ms, []⟩)
    (hagree : Plan.agree ns ms = true) :
    s.nodes pos levels object (as ++ bs) = ⟨Plan.union ns ms, []⟩ := by
  induction levels generalizing object as bs ns ms with
  | zero => cases ha
  | succ levels ih =>
    obtain ⟨hfound, hn⟩ := nodes_eq_iff.1 ha
    obtain ⟨hfound', hm⟩ := nodes_eq_iff.1 hb
    rw [nodes_eq_iff, collect_append, problems_append, fields_append, Merged.groups_append]
    refine ⟨by rw [hfound, hfound']; rfl, ?_⟩
    apply List.rel_append
    · apply AreNodes.absorb hn hm hagree
      intro possible as bs ks ls
      exact ih
    · refine List.rel_filter (fun h m hnode => ?_) hm
      simp only [AreNodes.any hn, key_of_node hnode]

/-! ## Selections that occur again -/

/-- Groups of one key and one first field have nodes of one outline, if the plans below them
have. -/
theorem node_outline {g h : Merged} {n : Plan.Node} (hn : s.node below object g = ⟨some n, []⟩)
    (hkey : h.key = g.key) (hfirst : h.first = g.first)
    (hnil : h.selections = [] ↔ g.selections = [])
    (hbelow : ∀ possible ns, below possible g.selections = ⟨ns, []⟩ →
      ∃ ms, below possible h.selections = ⟨ms, []⟩ ∧ Plan.outline ms = Plan.outline ns) :
    ∃ m, s.node below object h = ⟨some m, []⟩ ∧ m.outline = n.outline := by
  obtain ⟨type, htype, hsome, hnone, rfl⟩ := node_eq_iff.1 hn
  have hsame : ∀ possible ∈ s.registry.possibleTypes type.innermost,
      (below possible h.selections).problems = [] ∧
        Plan.outline (below possible h.selections).value =
          Plan.outline (below possible g.selections).value := by
    intro possible hp
    obtain ⟨ms, hms, houtline⟩ := hbelow possible (below possible g.selections).value
      (by rw [← hnone possible hp])
    rw [hms]
    exact ⟨rfl, houtline⟩
  refine ⟨_, node_eq_iff.2 ⟨type, by rw [hfirst, htype], ?_,
    fun possible hp => (hsame possible hp).1, rfl⟩, ?_⟩
  · rw [hsome, ne_eq, ne_eq, hnil]
  · rw [Plan.Node.outline, Plan.Node.outline, Plan.outlineBelow_map, Plan.outlineBelow_map, hkey,
      hfirst]
    congr 1
    apply List.map_congr_left
    intro possible hp
    rw [(hsame possible hp).2]

theorem AreNodes.outline {gs hs : List Merged} {ns : List Plan.Node}
    {R : Merged → Merged → Prop} (hn : s.AreNodes below object gs ns)
    (hgroups : List.Forall₂ R gs hs)
    (h : ∀ g h n, R g h → s.node below object g = ⟨some n, []⟩ →
      ∃ m, s.node below object h = ⟨some m, []⟩ ∧ m.outline = n.outline) :
    ∃ ms, s.AreNodes below object hs ms ∧ Plan.outline ms = Plan.outline ns := by
  induction hn generalizing hs with
  | nil =>
    cases hgroups
    exact ⟨[], .nil, rfl⟩
  | cons hg _ ih =>
    cases hgroups with
    | cons hfirst hrest =>
      obtain ⟨m, hm, hsame⟩ := h _ _ _ hfirst hg
      obtain ⟨ms, hms, hsames⟩ := ih hrest
      exact ⟨m :: ms, .cons hm hms, by rw [Plan.outline, Plan.outline, hsame, hsames]⟩

/-- The second group is the first one with more selections, all of which have the form of some that
stand before them. -/
structure Repeated (g h : Merged) : Prop where
  key : h.key = g.key
  first : h.first = g.first
  selections : ∃ as again cs, g.selections = as ++ cs ∧ h.selections = as ++ again ++ cs ∧
    ∀ x ∈ again, ∃ y ∈ as, x.unplaced = y.unplaced

theorem keyOf_eq_of_unplaced {f g : Field} (h : Field.unplaced f = Field.unplaced g) :
    keyOf f = keyOf g := by
  have hkey : ∀ f : Field, keyOf (Field.unplaced f) = keyOf f := by
    rintro ⟨pos, aliasName, name, args, dirs, selections⟩
    cases aliasName <;> rfl
  rw [← hkey f, ← hkey g, h]

/-- A group of fields `as` and `cs` goes over into one of more fields, each of which has the form of
one of `as`. -/
theorem repeated_of_items {as again cs : List Field} {g h : Merged} (hkey : h.key = g.key)
    (hg : g.items = as ++ cs) (hh : h.items = as ++ again ++ cs)
    (hagain : ∀ f ∈ again, ∃ y ∈ as, Field.unplaced f = Field.unplaced y) : Repeated g h := by
  refine ⟨hkey, ?_, as.flatMap fun f => f.selections.items,
    again.flatMap fun f => f.selections.items, cs.flatMap fun f => f.selections.items, ?_, ?_, ?_⟩
  · cases as with
    | nil =>
      obtain rfl : again = [] := by
        apply List.eq_nil_iff_forall_not_mem.2
        intro f hf
        obtain ⟨y, hy, -⟩ := hagain f hf
        cases hy
      exact (List.cons.inj (hh.trans hg.symm)).1
    | cons f as => rw [(List.cons.inj hg).1, (List.cons.inj hh).1]
  · rw [Merged.selections, hg, List.flatMap_append]
  · rw [Merged.selections, hh, List.flatMap_append, List.flatMap_append]
  · intro x hx
    obtain ⟨f, hf, hxf⟩ := List.mem_flatMap.1 hx
    obtain ⟨y, hy, hfy⟩ := hagain f hf
    have hforms : f.selections.items.map Selection.unplaced =
        y.selections.items.map Selection.unplaced := by
      rw [← Field.items_unplaced, ← Field.items_unplaced, hfy]
    obtain ⟨z, hz, hzx⟩ := List.mem_map.1 (hforms ▸ List.mem_map_of_mem hxf)
    exact ⟨z, List.mem_flatMap.2 ⟨y, hy, hz⟩, hzx.symm⟩

/-- Fields that occur again after some of the same form leave the groups as they are, but for what
is merged into them. -/
theorem groups_repeated {as again : List Field}
    (h : ∀ f ∈ again, ∃ g ∈ as, Field.unplaced f = Field.unplaced g) (cs : List Field) :
    List.Forall₂ Repeated (Merged.groups (as ++ cs)) (Merged.groups (as ++ again ++ cs)) := by
  obtain ⟨hkeys, hitems⟩ := Merged.groups_spec (as ++ cs)
  obtain ⟨hkeys', hitems'⟩ := Merged.groups_spec (as ++ again ++ cs)
  apply forall₂_of_map_eq (f := Merged.key) (k := Merged.key)
  · rw [hkeys, hkeys', List.map_append, List.map_append, List.map_append]
    refine (Name.distinct_append_of_mem (fun k hk => ?_) _).symm
    obtain ⟨f, hf, rfl⟩ := List.mem_map.1 hk
    obtain ⟨g, hg, hfg⟩ := h f hf
    rw [keyOf_eq_of_unplaced hfg]
    exact List.mem_map_of_mem hg
  · intro g hg g' hg' hkey
    have hgi := hitems g hg
    have hgi' := hitems' g' hg'
    rw [List.filter_append] at hgi
    rw [← hkey, List.filter_append, List.filter_append] at hgi'
    refine repeated_of_items hkey.symm hgi hgi' fun f hf => ?_
    obtain ⟨hf, hfk⟩ := List.mem_filter.1 hf
    obtain ⟨y, hy, hfy⟩ := h f hf
    exact ⟨y, List.mem_filter.2 ⟨hy, by rwa [← keyOf_eq_of_unplaced hfy]⟩, hfy⟩

/-- Selections that occur again leave the outline of the nodes as it is. -/
theorem nodes_repeated {levels : Nat} {as again cs : List Selection} {ns : List Plan.Node}
    (hrepeats : s.Repeats object as again) (h : s.nodes pos levels object (as ++ cs) = ⟨ns, []⟩) :
    ∃ ms, s.nodes pos levels object (as ++ again ++ cs) = ⟨ms, []⟩ ∧
      Plan.outline ms = Plan.outline ns := by
  induction levels generalizing object as again cs ns with
  | zero => cases h
  | succ levels ih =>
    obtain ⟨hfound, hn⟩ := nodes_eq_iff.1 h
    rw [collect_append, problems_append, List.append_eq_nil_iff] at hfound
    rw [collect_append, fields_append] at hn
    have hgroups := groups_repeated hrepeats.fields (s.collect object cs).fields
    obtain ⟨ms, hms, houtline⟩ := AreNodes.outline hn hgroups fun g h n hrepeated hg => by
      obtain ⟨hkey, hfirst, as', again', cs', hselections, hselections', hforms⟩ := hrepeated
      apply node_outline hg hkey hfirst
      · rw [hselections, hselections']
        simp only [List.append_eq_nil_iff]
        refine ⟨fun ⟨⟨has, _⟩, hcs⟩ => ⟨has, hcs⟩, fun ⟨has, hcs⟩ => ⟨⟨has, ?_⟩, hcs⟩⟩
        apply List.eq_nil_iff_forall_not_mem.2
        intro x hx
        obtain ⟨y, hy, -⟩ := hforms x hx
        rw [has] at hy
        cases hy
      · intro possible ns hns
        rw [hselections] at hns
        rw [hselections']
        refine ih (repeats_of_unplaced hforms ?_) hns
        cases levels with
        | zero => cases hns
        | succ levels =>
          have hnone := (nodes_eq_iff.1 hns).1
          rw [collect_append, problems_append, List.append_eq_nil_iff] at hnone
          exact hnone.1
    refine ⟨ms, nodes_eq_iff.2 ⟨?_, ?_⟩, houtline⟩
    · rw [collect_append, collect_append, problems_append, problems_append, hfound.1, hfound.2,
        hrepeats.problems]
      rfl
    · rwa [collect_append, collect_append, fields_append, fields_append]

/-- Two lists of selections, with each of which alone nothing is wrong on an object type, and fields
of one key of one name at every level: together they have the united nodes, and nothing is wrong
either. Selections that occur again, behind the first of their form, only add to the merged
fields. -/
theorem nodes_union {as bs : List Selection} {la lb : Nat} {ns ms : List Plan.Node}
    (ha : s.nodes pos la object as = ⟨ns, []⟩) (hb : s.nodes pos lb object bs = ⟨ms, []⟩)
    (hagree : Plan.agree ns ms = true) :
    (∀ levels, la ≤ levels → lb ≤ levels →
      s.nodes pos levels object (as ++ bs) = ⟨Plan.union ns ms, []⟩) ∧
    ∀ before again after, as = before ++ after → s.Repeats object before again →
      ∀ levels, la ≤ levels → ∃ ks,
        s.nodes pos levels object (before ++ again ++ after) = ⟨ks, []⟩ ∧
          Plan.outline ks = Plan.outline ns := by
  constructor
  · intro levels hla hlb
    exact nodes_append (nodes_of_le ha hla) (nodes_of_le hb hlb) hagree
  · rintro before again after rfl hrepeats levels hla
    exact nodes_repeated hrepeats (nodes_of_le ha hla)

end Scope

namespace Sample

/-- A fragment spread twice around a field whose key it has too, with fragments on an interface and
on each of the types that implement it. -/
def unionSource : String :=
  "{ ...Both node { id ... on User { name } } ...Both } " ++
    "fragment Both on Query { node { ...Id } n: node { id } } " ++
    "fragment Id on Node { id ... on Bot { key: id } }"

/-- Whether the hypotheses of the union hold of the sample. -/
def isUnited : Bool :=
  match Document.parse unionSource none with
  | .error _ => false
  | .ok d =>
    match d.operations.map fun o => o.selections.items with
    | [[Selection.spread x, Selection.field f, Selection.spread y]] =>
      match (nodeScope d).nodes .start 3 "Query" [.spread x, .field f],
        (nodeScope d).nodes .start 3 "Query" [.spread y] with
      | ⟨ns, []⟩, ⟨ms, []⟩ =>
        Plan.agree ns ms && y.name.node = x.name.node && x.directives.isEmpty &&
          y.directives.isEmpty
      | _, _ => false
    | _ => false

end Sample

theorem Scope.nodes_union_both : ∃ d x f y ns ms, Document.parse Sample.unionSource none = .ok d ∧
    (d.operations.map fun o => o.selections.items) = [[.spread x, .field f, .spread y]] ∧
    (Sample.nodeScope d).nodes .start 3 "Query" [.spread x, .field f] = ⟨ns, []⟩ ∧
    (Sample.nodeScope d).nodes .start 3 "Query" [.spread y] = ⟨ms, []⟩ ∧
    Plan.agree ns ms = true ∧
    (Sample.nodeScope d).nodes .start 3 "Query" [.spread x, .field f, .spread y] =
      ⟨Plan.union ns ms, []⟩ ∧
    (Sample.nodeScope d).Repeats "Query" [.spread x] [.spread y] ∧
    ∃ ks, (Sample.nodeScope d).nodes .start 3 "Query" [.spread x, .spread y, .field f] = ⟨ks, []⟩ ∧
      Plan.outline ks = Plan.outline ns := by
  have h : Sample.isUnited = true := by decide +kernel
  unfold Sample.isUnited at h
  split at h
  · cases h
  · next d hd =>
    split at h
    · next x f y hitems =>
      split at h
      · next ns ms hns hms =>
        simp only [Bool.and_eq_true, decide_eq_true_eq, List.isEmpty_iff] at h
        obtain ⟨⟨⟨hagree, hname⟩, hx⟩, hy⟩ := h
        have hfound := (nodes_eq_iff.1 hns).1
        rw [show [Selection.spread x, .field f] = [.spread x] ++ [.field f] from rfl,
          collect_append, problems_append, List.append_eq_nil_iff] at hfound
        have hrepeats : (Sample.nodeScope d).Repeats "Query" [.spread x] [.spread y] := by
          apply repeats_spread (List.mem_singleton_self _) hname _ _ hfound.1
          · rw [hx]
            rfl
          · rw [hy]
            rfl
        obtain ⟨hunion, hagain⟩ := Scope.nodes_union hns hms hagree
        refine ⟨d, x, f, y, ns, ms, hd, hitems, hns, hms, hagree, ?_, hrepeats, ?_⟩
        · exact hunion 3 (Nat.le_refl 3) (Nat.le_refl 3)
        · exact hagain [.spread x] [.spread y] [.field f] rfl hrepeats 3 (Nat.le_refl 3)
      · cases h
    · cases h

end GraphQL
