import Mathlib.Data.List.Perm.Subperm
import Mathlib.Logic.Relation
import GraphQL.Plan.Build

/-!
# Cycles of fragments

Fragments can spread each other in cycles. `Document.CyclesOnTop` says that no spread on a cycle
stands below a field. Then fields lie below fields, through whatever spreads, without a cycle: a
document with so many fields has no longer descent (`Document.length_descent`).
-/

namespace GraphQL

/-- The spread of a named fragment among selections, within inline fragments too. `inField` is for
one within a field. -/
inductive Selection.Spreads : (inField : Bool) → List Selection → Name → Prop where
  | here {spread : FragmentSpread} {items : List Selection} :
      .spread spread ∈ items → Spreads false items spread.name.node
  | inline {f : InlineFragment} {items : List Selection} {inField : Bool} {name : Name} :
      .inline f ∈ items → Spreads inField f.selections.items name → Spreads inField items name
  | field {f : Field} {items : List Selection} {inField : Bool} {name : Name} :
      .field f ∈ items → Spreads inField f.selections.items name → Spreads true items name

namespace Selection.Spreads

variable {inField : Bool} {name : Name}

theorem mono {items more : List Selection} (h : Spreads inField items name)
    (hsub : items ⊆ more) : Spreads inField more name := by
  cases h with
  | here hitem => exact .here (hsub hitem)
  | inline hitem hname => exact .inline (hsub hitem) hname
  | field hitem hname => exact .field (hsub hitem) hname

theorem of_flatMap {fields : List Field}
    (h : Spreads inField (fields.flatMap fun x => x.selections.items) name) :
    ∃ x ∈ fields, Spreads inField x.selections.items name := by
  cases h with
  | here hitem =>
    obtain ⟨x, hx, hitem⟩ := List.mem_flatMap.1 hitem
    exact ⟨x, hx, .here hitem⟩
  | inline hitem hname =>
    obtain ⟨x, hx, hitem⟩ := List.mem_flatMap.1 hitem
    exact ⟨x, hx, .inline hitem hname⟩
  | field hitem hname =>
    obtain ⟨x, hx, hitem⟩ := List.mem_flatMap.1 hitem
    exact ⟨x, hx, .field hitem hname⟩

end Selection.Spreads

namespace Document

/-- The edges of the graph of fragments: one spreads the other. -/
def Links (d : Document) (inField : Bool) (a b : Name) : Prop :=
  ∃ fragment, d.fragment? a = some fragment ∧
    Selection.Spreads inField fragment.selections.items b

/-- One fragment spreads the other, by way of any number of fragments. -/
def Leads (d : Document) : Name → Name → Prop :=
  Relation.ReflTransGen fun a b => ∃ inField, d.Links inField a b

/-- No cycle of fragments has a spread within a field. -/
def CyclesOnTop (d : Document) : Prop :=
  ∀ a b, d.Links true a b → ¬ d.Leads b a

end Document

/-! ## Ranks -/

mutual

/-- The spreads in a selection, and whether they are within a field. -/
def Selection.spreadsIn : Selection → List (Bool × Name)
  | .field ⟨_, _, _, _, _, ⟨_, items⟩⟩ => (spreadsAmong items).map fun (_, name) => (true, name)
  | .spread x => [(false, x.name.node)]
  | .inline ⟨_, _, _, ⟨_, items⟩⟩ => spreadsAmong items

def Selection.spreadsAmong : List Selection → List (Bool × Name)
  | [] => []
  | item :: rest => spreadsIn item ++ spreadsAmong rest

end

theorem Selection.Spreads.mem_spreadsAmong {inField : Bool} {items : List Selection} {name : Name}
    (h : Spreads inField items name) : (inField, name) ∈ spreadsAmong items := by
  have among : ∀ {items : List Selection} {item : Selection} {x : Bool × Name}, item ∈ items →
      x ∈ spreadsIn item → x ∈ spreadsAmong items := by
    intro items item x hitem hx
    induction items with
    | nil => cases hitem
    | cons first rest ih =>
      rw [spreadsAmong, List.mem_append]
      rcases List.mem_cons.1 hitem with rfl | hrest
      · exact .inl hx
      · exact .inr (ih hrest)
  induction h with
  | here hitem =>
    apply among hitem
    rw [spreadsIn]
    exact List.mem_singleton_self _
  | @inline f _ _ _ hitem _ ih =>
    apply among hitem
    obtain ⟨pos, condition, directives, ⟨pos', inner⟩⟩ := f
    rw [spreadsIn]
    exact ih
  | @field f _ _ _ hitem _ ih =>
    apply among hitem
    obtain ⟨pos, aliasName, name, arguments, directives, ⟨pos', inner⟩⟩ := f
    rw [spreadsIn]
    exact List.mem_map.2 ⟨_, ih, rfl⟩

namespace Document

/-- Whether ranks of fragments never rise from one to those it spreads, and fall where it spreads
them within a field. -/
def isRanked (d : Document) (rank : Name → Nat) : Bool :=
  d.fragments.all fun fragment =>
    match fragment.name with
    | none => true
    | some name => (Selection.spreadsAmong fragment.selections.items).all fun (inField, next) =>
      if inField then rank next < rank name.node else rank next ≤ rank name.node

variable {d : Document} {rank : Name → Nat}

theorem Links.rank_le (h : d.isRanked rank = true) {inField : Bool} {a b : Name}
    (hlink : d.Links inField a b) :
    rank b ≤ rank a ∧ (inField = true → rank b < rank a) := by
  obtain ⟨fragment, hfragment, hspreads⟩ := hlink
  have hranked := List.all_eq_true.1 h fragment (List.mem_of_find?_eq_some hfragment)
  have hname := List.find?_some hfragment
  cases hn : fragment.name with
  | none => simp [hn] at hname
  | some name =>
    simp only [hn, decide_eq_true_eq, List.all_eq_true] at hname hranked
    have := hranked _ hspreads.mem_spreadsAmong
    rw [hname] at this
    cases inField with
    | false => exact ⟨of_decide_eq_true this, by simp⟩
    | true =>
      have hlt := of_decide_eq_true this
      exact ⟨Nat.le_of_lt hlt, fun _ => hlt⟩

theorem Leads.rank_le (h : d.isRanked rank = true) {a b : Name} (hleads : d.Leads a b) :
    rank b ≤ rank a := by
  induction hleads with
  | refl => exact Nat.le_refl _
  | tail _ hlast ih =>
    obtain ⟨inField, hlast⟩ := hlast
    exact Nat.le_trans (hlast.rank_le h).1 ih

/-- On a cycle all ranks are the same, and within a field they fall. -/
theorem cyclesOnTop_of_isRanked (h : d.isRanked rank = true) : d.CyclesOnTop := by
  intro a b hlink hleads
  have hlt := (hlink.rank_le h).2 rfl
  have hle := hleads.rank_le h
  omega

end Document

/-! ## Fields within selections -/

/-- A field among selections, within inline fragments and other fields too. -/
inductive Field.Within (f : Field) : List Selection → Prop where
  | here {items : List Selection} : .field f ∈ items → Within f items
  | inline {x : InlineFragment} {items : List Selection} :
      .inline x ∈ items → Within f x.selections.items → Within f items
  | field {x : Field} {items : List Selection} :
      .field x ∈ items → Within f x.selections.items → Within f items

mutual

/-- The fields in a selection, at any depth. -/
def Selection.fieldsIn : Selection → List Field
  | .field ⟨pos, aliasName, name, arguments, directives, ⟨pos', items⟩⟩ =>
    ⟨pos, aliasName, name, arguments, directives, ⟨pos', items⟩⟩ :: fieldsAmong items
  | .spread _ => []
  | .inline ⟨_, _, _, ⟨_, items⟩⟩ => fieldsAmong items

def Selection.fieldsAmong : List Selection → List Field
  | [] => []
  | item :: rest => fieldsIn item ++ fieldsAmong rest

end

namespace Selection

theorem fieldsIn_field (f : Field) :
    fieldsIn (.field f) = f :: fieldsAmong f.selections.items := by
  obtain ⟨pos, aliasName, name, arguments, directives, ⟨pos', items⟩⟩ := f
  rw [fieldsIn]

theorem fieldsIn_inline (f : InlineFragment) :
    fieldsIn (.inline f) = fieldsAmong f.selections.items := by
  obtain ⟨pos, condition, directives, ⟨pos', items⟩⟩ := f
  rw [fieldsIn]

mutual

theorem length_fieldsIn : ∀ item : Selection, (fieldsIn item).length = Scope.fieldCount item
  | .field ⟨_, _, _, _, _, ⟨_, items⟩⟩ => by
    rw [fieldsIn, Scope.fieldCount, List.length_cons, length_fieldsAmong items, Nat.add_comm]
  | .spread _ => by rw [fieldsIn, Scope.fieldCount, List.length_nil]
  | .inline ⟨_, _, _, ⟨_, items⟩⟩ => by
    rw [fieldsIn, Scope.fieldCount, length_fieldsAmong items]

theorem length_fieldsAmong : ∀ items : List Selection,
    (fieldsAmong items).length = Scope.fieldCounts items
  | [] => by rw [fieldsAmong, Scope.fieldCounts, List.length_nil]
  | item :: rest => by
    rw [fieldsAmong, Scope.fieldCounts, List.length_append, length_fieldsIn item,
      length_fieldsAmong rest]

end

theorem fieldsIn_sublist {item : Selection} {items : List Selection} (h : item ∈ items) :
    (fieldsIn item).Sublist (fieldsAmong items) := by
  induction items with
  | nil => cases h
  | cons first rest ih =>
    rw [fieldsAmong]
    rcases List.mem_cons.1 h with rfl | hrest
    · exact List.sublist_append_left _ _
    · exact (ih hrest).trans (List.sublist_append_right _ _)

end Selection

namespace Field.Within

open Selection

variable {f g : Field} {items : List Selection}

theorem mem_fieldsAmong (h : f.Within items) : f ∈ fieldsAmong items := by
  induction h with
  | here hitem =>
    apply (fieldsIn_sublist hitem).subset
    rw [fieldsIn_field]
    exact List.mem_cons_self ..
  | inline hitem _ ih =>
    apply (fieldsIn_sublist hitem).subset
    rwa [fieldsIn_inline]
  | field hitem _ ih =>
    apply (fieldsIn_sublist hitem).subset
    rw [fieldsIn_field]
    exact List.mem_cons_of_mem _ ih

theorem mono {more : List Selection} (h : f.Within items) (hsub : items ⊆ more) :
    f.Within more := by
  cases h with
  | here hitem => exact .here (hsub hitem)
  | inline hitem hwithin => exact .inline (hsub hitem) hwithin
  | field hitem hwithin => exact .field (hsub hitem) hwithin

theorem of_flatMap {fields : List Field}
    (h : f.Within (fields.flatMap fun x => x.selections.items)) :
    ∃ x ∈ fields, f.Within x.selections.items := by
  cases h with
  | here hitem =>
    obtain ⟨x, hx, hitem⟩ := List.mem_flatMap.1 hitem
    exact ⟨x, hx, .here hitem⟩
  | inline hitem hwithin =>
    obtain ⟨x, hx, hitem⟩ := List.mem_flatMap.1 hitem
    exact ⟨x, hx, .inline hitem hwithin⟩
  | field hitem hwithin =>
    obtain ⟨x, hx, hitem⟩ := List.mem_flatMap.1 hitem
    exact ⟨x, hx, .field hitem hwithin⟩

/-- There are fewer fields below a field than where it stands. -/
theorem length_lt (h : f.Within items) :
    (fieldsAmong f.selections.items).length < (fieldsAmong items).length := by
  induction h with
  | here hitem =>
    have := (fieldsIn_sublist hitem).length_le
    rw [fieldsIn_field, List.length_cons] at this
    omega
  | inline hitem _ ih =>
    have := (fieldsIn_sublist hitem).length_le
    rw [fieldsIn_inline] at this
    omega
  | field hitem _ ih =>
    have := (fieldsIn_sublist hitem).length_le
    rw [fieldsIn_field, List.length_cons] at this
    omega

theorem trans (h : f.Within items) (hg : g.Within f.selections.items) : g.Within items := by
  induction h with
  | here hitem => exact .field hitem hg
  | inline hitem _ ih => exact .inline hitem ih
  | field hitem _ ih => exact .field hitem ih

/-- What is spread below a field is spread within a field. -/
theorem spreads (h : f.Within items) {inField : Bool} {name : Name}
    (hname : Spreads inField f.selections.items name) : Spreads true items name := by
  induction h with
  | here hitem => exact .field hitem hname
  | inline hitem _ ih => exact .inline hitem ih
  | field hitem _ ih => exact .field hitem ih

end Field.Within

/-! ## Descents -/

namespace Document

/-- A field stands in a fragment, or in one that this fragment leads to. -/
def Brings (d : Document) (name : Name) (f : Field) : Prop :=
  ∃ last fragment, d.Leads name last ∧ d.fragment? last = some fragment ∧
    f.Within fragment.selections.items

/-- A field stands among selections, or in fragments that they spread. -/
def Descends (d : Document) (items : List Selection) (f : Field) : Prop :=
  f.Within items ∨ ∃ inField name, Selection.Spreads inField items name ∧ d.Brings name f

/-- The fields of selections and of all fragments. -/
def fieldsFor (d : Document) (items : List Selection) : List Field :=
  Selection.fieldsAmong items ++
    d.fragments.flatMap fun fragment => Selection.fieldsAmong fragment.selections.items

variable {d : Document} {items : List Selection} {f g : Field}

theorem brings_of_fragment {name : Name} {fragment : Fragment}
    (h : d.fragment? name = some fragment) (hf : d.Descends fragment.selections.items f) :
    d.Brings name f := by
  rcases hf with hwithin | ⟨inField, next, hnext, last, fragment', hleads, hlast, hwithin⟩
  · exact ⟨name, fragment, .refl, h, hwithin⟩
  · refine ⟨last, fragment', .head ⟨inField, fragment, h, hnext⟩ hleads, hlast, hwithin⟩

/-- What is among some selections is among more of them. -/
theorem Descends.mono {more : List Selection} (h : d.Descends items f) (hsub : items ⊆ more) :
    d.Descends more f := by
  rcases h with hwithin | ⟨inField, name, hname, hbrings⟩
  · exact .inl (hwithin.mono hsub)
  · exact .inr ⟨inField, name, hname.mono hsub, hbrings⟩

theorem Descends.of_inline {x : InlineFragment} (h : d.Descends x.selections.items f)
    (hitem : .inline x ∈ items) : d.Descends items f := by
  rcases h with hwithin | ⟨inField, name, hname, hbrings⟩
  · exact .inl (.inline hitem hwithin)
  · exact .inr ⟨inField, name, .inline hitem hname, hbrings⟩

/-- What is below one of some fields. -/
theorem descends_flatMap {fields : List Field}
    (h : d.Descends (fields.flatMap fun x => x.selections.items) f) :
    ∃ x ∈ fields, d.Descends x.selections.items f := by
  rcases h with hwithin | ⟨inField, name, hname, hbrings⟩
  · obtain ⟨x, hx, hwithin⟩ := hwithin.of_flatMap
    exact ⟨x, hx, .inl hwithin⟩
  · obtain ⟨x, hx, hname⟩ := hname.of_flatMap
    exact ⟨x, hx, .inr ⟨inField, name, hname, hbrings⟩⟩

theorem Descends.trans (hf : d.Descends items f) (hg : d.Descends f.selections.items g) :
    d.Descends items g := by
  rcases hf with hf | ⟨inField, name, hname, last, fragment, hleads, hlast, hf⟩
  · rcases hg with hg | ⟨inField, name, hname, hbrings⟩
    · exact .inl (hf.trans hg)
    · exact .inr ⟨true, name, hf.spreads hname, hbrings⟩
  · refine .inr ⟨inField, name, hname, ?_⟩
    rcases hg with hg | ⟨inField', next, hnext, last', fragment', hleads', hlast', hg⟩
    · exact ⟨last, fragment, hleads, hlast, hf.trans hg⟩
    · have hlink : d.Links true last next := ⟨fragment, hlast, hf.spreads hnext⟩
      exact ⟨last', fragment', hleads.trans (.head ⟨true, hlink⟩ hleads'), hlast', hg⟩

/-- No field stands below itself: the spreads on the way would be a cycle of fragments, and the
first one is within the field. -/
theorem not_descends_self (h : d.CyclesOnTop) : ¬ d.Descends f.selections.items f := by
  rintro (hwithin | ⟨inField, name, hname, last, fragment, hleads, hlast, hwithin⟩)
  · exact Nat.lt_irrefl _ hwithin.length_lt
  · exact h last name ⟨fragment, hlast, hwithin.spreads hname⟩ hleads

theorem Descends.mem_fieldsFor (h : d.Descends items f) : f ∈ d.fieldsFor items := by
  rcases h with hwithin | ⟨inField, name, hname, last, fragment, -, hlast, hwithin⟩
  · exact List.mem_append_left _ hwithin.mem_fieldsAmong
  · apply List.mem_append_right
    exact List.mem_flatMap.2 ⟨fragment, List.mem_of_find?_eq_some hlast, hwithin.mem_fieldsAmong⟩

/-- One field below another, starting among selections: no field occurs twice, so there are no more
than there are in the document. -/
theorem length_descent (h : d.CyclesOnTop) {chain : List Field}
    (hchain : chain.IsChain fun f g => d.Descends f.selections.items g)
    (hstart : ∀ f ∈ chain.head?, d.Descends items f) :
    chain.length ≤ (d.fieldsFor items).length := by
  have htrans : IsTrans Field fun f g => d.Descends f.selections.items g :=
    ⟨fun _ _ _ hf hg => hf.trans hg⟩
  have hpairs := List.isChain_iff_pairwise.1 hchain
  have hnodup : chain.Nodup := by
    apply hpairs.imp
    rintro f _ hself rfl
    exact not_descends_self h hself
  apply List.Subperm.length_le
  apply List.Nodup.subperm hnodup
  intro f hf
  apply Descends.mem_fieldsFor
  cases chain with
  | nil => cases hf
  | cons first rest =>
    have hfirst := hstart first rfl
    rcases List.mem_cons.1 hf with rfl | hrest
    · exact hfirst
    · exact hfirst.trans ((List.pairwise_cons.1 hpairs).1 f hrest)

end Document

end GraphQL
