import GraphQL.Document.Equality
import GraphQL.Document.Printer
import GraphQL.Proofs.Document.Reads
import GraphQL.Proofs.Document.Writable

/-!
# What is read of a part

A part that was printed is read as one that says the same and is printed alike: it is echoed. Parts
that have lists or options of others are echoed if these are.
-/

namespace GraphQL

variable {ν α β : Type} {same : α → α → Bool} {print : α → β}

/-- The second part was read where the first was printed. -/
def Echoes (same : α → α → Bool) (print : α → β) (a b : α) : Prop :=
  same b a = true ∧ print b = print a

theorem Echoes.list {as bs : List α} (h : List.Forall₂ (Echoes same print) as bs) :
    Echoes (sameList same) (List.map print) as bs := by
  induction h with
  | nil => exact ⟨rfl, rfl⟩
  | cons h _ ih =>
    obtain ⟨hsame, hprint⟩ := h
    obtain ⟨hsames, hprints⟩ := ih
    exact ⟨by rw [sameList, hsame, hsames]; rfl, by rw [List.map_cons, hprint, hprints, List.map_cons]⟩

theorem Echoes.flatMap {print : α → List β} {as bs : List α}
    (h : Echoes (sameList same) (List.map print) as bs) : bs.flatMap print = as.flatMap print := by
  rw [List.flatMap_def, List.flatMap_def, h.2]

theorem isEmpty_of_sameList {as bs : List α} (h : sameList same as bs = true) :
    as.isEmpty = bs.isEmpty := by
  cases as <;> cases bs <;> first | rfl | cases h

/-! ## Values agree with themselves -/

theorem Number.same_self (n : Number) : n.same n = true := by
  cases n <;> simp [same, Binary64.same]

theorem Value.sameItems_self [DecidableEq ν] {items : List (Value ν)}
    (h : ∀ item ∈ items, item.same item = true) : sameItems items items = true := by
  induction items with
  | nil => rfl
  | cons item items ih =>
    rw [sameItems, h item (List.mem_cons_self ..), ih fun x hx => h x (List.mem_cons_of_mem _ hx)]
    rfl

theorem Value.sameFields_of_subset [DecidableEq ν] {fields all : List (Name × Value ν)}
    (hall : (Assoc.keys all).Nodup) (hsub : fields ⊆ all)
    (h : ∀ f ∈ fields, f.2.same f.2 = true) : sameFields fields all = true := by
  induction fields with
  | nil => rfl
  | cons f fields ih =>
    have hget := Assoc.get?_of_mem hall (hsub (List.mem_cons_self ..))
    have hrest := ih (fun x hx => hsub (List.mem_cons_of_mem _ hx))
      fun x hx => h x (List.mem_cons_of_mem _ hx)
    rw [sameFields, hget, hrest, Bool.and_true]
    exact h f (List.mem_cons_self ..)

theorem Value.same_self [DecidableEq ν] {ok : ν → Prop} {levels : Nat} {v : Value ν}
    (h : v.Writable ok levels) : v.same v = true := by
  induction h with
  | var => simp [same]
  | null => rfl
  | int | double =>
    rw [same]
    exact Number.same_self _
  | string => simp [same]
  | bool => simp [same]
  | enum => simp [same]
  | list _ ih => exact sameItems_self ih
  | object hnodup _ _ ih =>
    rw [same, sameFields_of_subset hnodup (List.Subset.refl _) ih]
    simp

end GraphQL
