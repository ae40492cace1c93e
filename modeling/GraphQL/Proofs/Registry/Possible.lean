import GraphQL.Proofs.Registry.Checked
import Mathlib.Data.List.Nodup

/-!
# Possible types

A registry comes about by adding types to that of the built-in scalars. It then has under each name
the type that was added last, and the names in the order in which they were first added (`Holds`).
So the listing of the possible types and the test for one of them agree, although the first goes
through all types and the second only looks one up. The name that a type carries itself is the name
it is found under (`Keyed.Own`), so that either may be given for it.
-/

namespace GraphQL

variable {ρ : Type}

/-- A type with the name that it carries. -/
structure TypeEntry (ρ : Type) where
  name : Name
  spec : TypeSpec ρ

namespace TypeEntry

/-- The built-in scalars. -/
def builtins : List (TypeEntry ρ) :=
  Scalar.all.map fun s => ⟨s.name, .scalar (some s)⟩

/-- The type that was added last under a name. -/
def latest? (entries : List (TypeEntry ρ)) (name : Name) : Option (TypeSpec ρ) :=
  (entries.reverse.find? fun e => e.name = name).map fun e => e.spec.distinct

/-- The names, each where it was first added. -/
def names (entries : List (TypeEntry ρ)) : List Name :=
  Name.distinct (entries.map name)

theorem latest?_concat (entries : List (TypeEntry ρ)) (e : TypeEntry ρ) (name : Name) :
    latest? (entries ++ [e]) name =
      if e.name = name then some e.spec.distinct else latest? entries name := by
  rw [latest?, List.reverse_append, List.reverse_singleton, List.singleton_append, List.find?_cons]
  by_cases he : e.name = name <;> simp [he, latest?]

theorem nodup_of_latest? {entries : List (TypeEntry ρ)} {name : Name} {members : List Name}
    {rule : TypeRule} (h : latest? entries name = some (.union members rule)) : members.Nodup := by
  obtain ⟨e, -, he⟩ := Option.map_eq_some_iff.1 h
  cases hspec : e.spec with
  | union members' rule' =>
    rw [hspec] at he
    cases he
    exact Name.nodup_distinct members'
  | _ =>
    rw [hspec] at he
    cases he

end TypeEntry

namespace Registry

/-- Adds one type after the other. -/
def insertAll (r : Registry ρ) (entries : List (TypeEntry ρ)) : Registry ρ :=
  entries.foldl (fun r e => r.insert e.name e.spec) r

/-- The registry has the types that were added, and no others. -/
structure Holds (r : Registry ρ) (entries : List (TypeEntry ρ)) : Prop where
  keys : r.types.keys = TypeEntry.names entries
  lookup : ∀ name, r.lookup name = TypeEntry.latest? entries name

variable {r : Registry ρ} {entries : List (TypeEntry ρ)} {name object : Name}

theorem Holds.insert (h : r.Holds entries) (e : TypeEntry ρ) :
    (r.insert e.name e.spec).Holds (entries ++ [e]) where
  keys := by
    rw [TypeEntry.names, List.map_append, List.map_singleton, Name.distinct_concat]
    show (Assoc.insert r.types e.name e.spec.distinct).keys = _
    rw [Assoc.keys_insert, h.keys]
    simp only [TypeEntry.names, Name.mem_distinct]
  lookup name := by
    rw [TypeEntry.latest?_concat, ← h.lookup]
    exact Assoc.get?_insert ..

theorem Holds.insertAll (h : r.Holds entries) (more : List (TypeEntry ρ)) :
    (r.insertAll more).Holds (entries ++ more) := by
  induction more generalizing r entries with
  | nil =>
    rw [List.append_nil]
    exact h
  | cons e more ih =>
    rw [List.append_cons]
    exact ih (h.insert e)

/-- A registry without types. -/
def bare : Registry ρ :=
  ⟨[], "Query", none, none⟩

theorem initial_eq : (initial : Registry ρ) = bare.insertAll TypeEntry.builtins := rfl

theorem holds_bare : (bare : Registry ρ).Holds [] where
  keys := rfl
  lookup _ := rfl

theorem holds_initial : (initial : Registry ρ).Holds TypeEntry.builtins :=
  initial_eq ▸ holds_bare.insertAll TypeEntry.builtins

/-! ## Listing and test -/

theorem isKind_eq (r : Registry ρ) (test : TypeSpec ρ → Bool) (name : Name) :
    r.isKind test name = (r.lookup name).any test := by
  unfold isKind
  cases r.lookup name <;> rfl

/-- Types that pass a test, as they are listed, are the names that are looked up and pass it. -/
theorem filter_types (h : r.types.keys.Nodup) (test : TypeSpec ρ → Bool) :
    (r.types.filter fun entry => test entry.2).map Prod.fst = r.types.keys.filter (r.isKind test) := by
  rw [Assoc.keys, List.filter_map]
  refine congrArg (List.map Prod.fst) (List.filter_congr fun entry he => ?_)
  have hlookup : r.lookup entry.1 = some entry.2 := Assoc.get?_of_mem h he
  rw [Function.comp_apply, isKind_eq, hlookup]
  rfl

theorem isPossible_of_mem (h : r.types.keys.Nodup) (hm : object ∈ r.possibleTypes name) :
    r.isPossible name object = true := by
  unfold possibleTypes at hm
  unfold isPossible
  cases hs : r.lookup name with
  | none =>
    rw [hs] at hm
    cases hm
  | some spec =>
    rw [hs] at hm
    cases spec with
    | object interfaces fields => exact decide_eq_true (List.mem_singleton.1 hm).symm
    | interface fields rule =>
      rw [filter_types h (TypeSpec.implements name)] at hm
      exact (List.mem_filter.1 hm).2
    | union members rule => exact List.contains_iff_mem.2 hm
    | _ => cases hm

theorem Holds.nodup_keys (h : r.Holds entries) : r.types.keys.Nodup :=
  h.keys ▸ Name.nodup_distinct _

/-- The implementors of an interface, in the order in which their names were first added. -/
theorem Holds.implementors (h : r.Holds entries) {fields : Assoc (FieldSpec ρ)} {rule : TypeRule}
    (hs : TypeEntry.latest? entries name = some (.interface fields rule)) :
    r.possibleTypes name = (TypeEntry.names entries).filter fun object =>
      (TypeEntry.latest? entries object).any (TypeSpec.implements name) := by
  rw [possibleTypes, h.lookup, hs]
  show (r.types.filter fun entry => TypeSpec.implements name entry.2).map Prod.fst = _
  rw [filter_types h.nodup_keys, h.keys]
  exact List.filter_congr fun object _ => by rw [isKind_eq, h.lookup]

theorem Holds.nodup_possibleTypes (h : r.Holds entries) : (r.possibleTypes name).Nodup := by
  cases hs : TypeEntry.latest? entries name with
  | none =>
    rw [possibleTypes, h.lookup, hs]
    exact List.nodup_nil
  | some spec =>
    cases spec with
    | object interfaces fields =>
      rw [possibleTypes, h.lookup, hs]
      exact List.nodup_singleton name
    | interface fields rule =>
      rw [h.implementors hs]
      exact (Name.nodup_distinct _).filter _
    | union members rule =>
      rw [possibleTypes, h.lookup, hs]
      exact TypeEntry.nodup_of_latest? hs
    | _ =>
      rw [possibleTypes, h.lookup, hs]
      exact List.nodup_nil

end Registry

/-! ## Names that types carry -/

/-- Types by name, each with the name that it carries itself. -/
abbrev Keyed (ρ : Type) :=
  Assoc (TypeEntry ρ)

namespace Keyed

/-- Each type is found under the name that it carries. -/
def Own (m : Keyed ρ) : Prop :=
  ∀ p ∈ m, p.2.name = p.1

def add (m : Keyed ρ) (e : TypeEntry ρ) : Keyed ρ :=
  m.insert e.name ⟨e.name, e.spec.distinct⟩

def addAll (m : Keyed ρ) (entries : List (TypeEntry ρ)) : Keyed ρ :=
  entries.foldl add m

/-- The types apart from the names that they carry. -/
def specs (m : Keyed ρ) : Assoc (TypeSpec ρ) :=
  m.map fun p => (p.1, p.2.spec)

/-- The possible types of a type, by the names that they carry. -/
def possibleTypes (m : Keyed ρ) (name : Name) : List Name :=
  match m.get? name with
  | some ⟨own, .object _ _⟩ => [own]
  | some ⟨_, .interface _ _⟩ => (m.values.filter fun e => e.spec.implements name).map TypeEntry.name
  | some ⟨_, .union members _⟩ => members
  | _ => []

def isPossible (m : Keyed ρ) (name object : Name) : Bool :=
  match m.get? name with
  | some ⟨_, .object _ _⟩ => name = object
  | some ⟨_, .interface _ _⟩ => (m.get? object).any fun e => e.spec.implements name
  | some ⟨_, .union members _⟩ => members.contains object
  | _ => false

/-- The object type of a value, by the name that it carries. -/
def concreteType (m : Keyed ρ) (name : Name) (value : Json) : Option Name :=
  match m.get? name with
  | some ⟨own, .object _ _⟩ => some own
  | some ⟨_, .interface _ rule⟩ => (Registry.applyRule rule value).filter (m.isPossible name)
  | some ⟨_, .union _ rule⟩ => (Registry.applyRule rule value).filter (m.isPossible name)
  | _ => none

theorem Own.addAll {m : Keyed ρ} (h : m.Own) (entries : List (TypeEntry ρ)) :
    (m.addAll entries).Own := by
  induction entries generalizing m with
  | nil => exact h
  | cons e entries ih =>
    refine ih fun p hp => ?_
    rcases Assoc.mem_of_mem_insert hp with rfl | hp
    · rfl
    · exact h p hp

theorem specs_addAll {m : Keyed ρ} {r : Registry ρ} (h : m.specs = r.types)
    (entries : List (TypeEntry ρ)) : (m.addAll entries).specs = (r.insertAll entries).types := by
  induction entries generalizing m r with
  | nil => exact h
  | cons e entries ih =>
    refine ih ?_
    show (Assoc.insert m e.name _).map (fun p => (p.1, p.2.spec)) = Assoc.insert r.types e.name _
    rw [← h]
    exact Assoc.map_insert ..

variable {m : Keyed ρ} {r : Registry ρ} {name : Name}

theorem lookup_specs (h : m.specs = r.types) (name : Name) :
    r.lookup name = (m.get? name).map TypeEntry.spec := by
  rw [Registry.lookup, ← h]
  exact Assoc.get?_map ..

theorem isPossible_specs (h : m.specs = r.types) (name object : Name) :
    m.isPossible name object = r.isPossible name object := by
  unfold isPossible Registry.isPossible
  rw [lookup_specs h name]
  cases m.get? name with
  | none => rfl
  | some e =>
    obtain ⟨own, spec⟩ := e
    cases spec with
    | interface fields rule =>
      show _ = r.isKind (TypeSpec.implements name) object
      rw [Registry.isKind_eq, lookup_specs h object]
      cases m.get? object <;> rfl
    | _ => rfl

theorem possibleTypes_specs (hown : m.Own) (h : m.specs = r.types) (name : Name) :
    m.possibleTypes name = r.possibleTypes name := by
  unfold possibleTypes Registry.possibleTypes
  rw [lookup_specs h name]
  cases hs : m.get? name with
  | none => rfl
  | some e =>
    have he : e.name = name := hown _ (Assoc.mem_of_get? hs)
    obtain ⟨own, spec⟩ := e
    cases spec with
    | object interfaces fields => exact congrArg (fun n => [n]) he
    | interface fields rule =>
      show ((m.map Prod.snd).filter _).map TypeEntry.name = (r.types.filter _).map Prod.fst
      rw [← h, specs, List.filter_map, List.filter_map, List.map_map, List.map_map]
      refine List.map_congr_left fun p hp => ?_
      exact hown p (List.mem_filter.1 hp).1
    | _ => rfl

theorem concreteType_specs (hown : m.Own) (h : m.specs = r.types) (name : Name) (value : Json) :
    m.concreteType name value = r.concreteType name value := by
  have hpossible : m.isPossible name = r.isPossible name := funext (isPossible_specs h name)
  unfold concreteType Registry.concreteType
  rw [lookup_specs h name, hpossible]
  cases hs : m.get? name with
  | none => rfl
  | some e =>
    have he : e.name = name := hown _ (Assoc.mem_of_get? hs)
    obtain ⟨own, spec⟩ := e
    cases spec with
    | object interfaces fields => exact congrArg some he
    | _ => rfl

end Keyed

namespace Registry

open TypeEntry

/-- However types are added and replaced, the two ways to the possible types agree: the listing has
no duplicates and has the implementors of an interface in the order in which their names were first
added, and the object type found for a value is always listed. The same holds of the names that
types carry. -/
theorem possibleTypes_insertAll (entries : List (TypeEntry ρ)) (name : Name) :
    (∀ object, object ∈ (initial.insertAll entries).possibleTypes name ↔
      (initial.insertAll entries).isPossible name object = true) ∧
    ((initial.insertAll entries).possibleTypes name).Nodup ∧
    (∀ fields rule, latest? (builtins ++ entries) name = some (.interface fields rule) →
      (initial.insertAll entries).possibleTypes name = (names (builtins ++ entries)).filter
        fun object => (latest? (builtins ++ entries) object).any (TypeSpec.implements name)) ∧
    (∀ value, ∀ object ∈ (initial.insertAll entries).concreteType name value,
      object ∈ (initial.insertAll entries).possibleTypes name) ∧
    (Keyed.addAll [] (builtins ++ entries)).possibleTypes name =
      (initial.insertAll entries).possibleTypes name ∧
    (∀ object, (Keyed.addAll [] (builtins ++ entries)).isPossible name object =
      (initial.insertAll entries).isPossible name object) ∧
    ∀ value, (Keyed.addAll [] (builtins ++ entries)).concreteType name value =
      (initial.insertAll entries).concreteType name value := by
  have h : (initial.insertAll entries).Holds (builtins ++ entries) := holds_initial.insertAll entries
  have hown : (Keyed.addAll [] (builtins ++ entries)).Own :=
    Keyed.Own.addAll (fun _ hp => by cases hp) _
  have hspecs : (Keyed.addAll [] (builtins ++ entries)).specs = (initial.insertAll entries).types := by
    rw [Keyed.specs_addAll (r := bare) rfl, insertAll, List.foldl_append, initial_eq]
    rfl
  refine ⟨fun object => ⟨isPossible_of_mem h.nodup_keys, mem_possibleTypes⟩, h.nodup_possibleTypes,
    fun _ _ hs => h.implementors hs, fun _ _ hc => possible_of_concreteType hc,
    Keyed.possibleTypes_specs hown hspecs name, Keyed.isPossible_specs hspecs name,
    Keyed.concreteType_specs hown hspecs name⟩

namespace Sample

/-- Types that are replaced by types of other kinds: one of them comes to be an interface, and of
those that implement it one is replaced for good and one comes back. -/
def replaced : List (TypeEntry Empty) :=
  [⟨"User", .object ["Node"] []⟩, ⟨"Bot", .object ["Node"] []⟩, ⟨"Node", .union ["Bot"] none⟩,
    ⟨"Post", .object ["Node"] []⟩, ⟨"Node", .interface [] none⟩, ⟨"User", .scalar none⟩,
    ⟨"Bot", .enum []⟩, ⟨"User", .object ["Node"] []⟩]

end Sample

theorem possibleTypes_insertAll_replaced :
    (initial.insertAll Sample.replaced).possibleTypes "Node" = ["User", "Post"] ∧
      (initial.insertAll Sample.replaced).isPossible "Node" "User" = true ∧
        (initial.insertAll Sample.replaced).isPossible "Node" "Bot" = false := by
  obtain ⟨hmem, -, himplementors, -⟩ := possibleTypes_insertAll Sample.replaced "Node"
  have hlist := (himplementors [] none rfl).trans
    (show _ = ["User", "Post"] by decide)
  refine ⟨hlist, (hmem "User").1 (by rw [hlist]; decide), Bool.eq_false_iff.2 fun hbot => ?_⟩
  have hlisted := (hmem "Bot").2 hbot
  rw [hlist] at hlisted
  exact absurd hlisted (by decide)

end Registry

end GraphQL
