import GraphQL.Text.Class

/-!
# Names

Fields, types, arguments, variables and enum values have names. A name is any text; the valid
ones are those a document can hold: a letter or underscore, then letters, underscores and digits.
-/

namespace GraphQL

abbrev Name :=
  String

namespace Name

/-- Whether the text has the form of a name in a document. -/
def isValid (name : Name) : Bool :=
  match name.toList with
  | [] => false
  | c :: cs => Text.isNameStart c && cs.all Text.isNameContinue

/-- The order of names by code points, which is the order of their UTF-8 bytes. -/
def order (a b : Name) : Ordering :=
  if a < b then .lt else if a = b then .eq else .gt

/-- The names of a list without repetitions, each at its first place. -/
def distinct : List Name → List Name
  | [] => []
  | name :: rest => name :: (distinct rest).filter fun other => other ≠ name

theorem mem_distinct {name : Name} {names : List Name} : name ∈ distinct names ↔ name ∈ names := by
  induction names with
  | nil => simp [distinct]
  | cons first rest ih => by_cases h : name = first <;> simp [distinct, ih, h]

theorem nodup_distinct (names : List Name) : (distinct names).Nodup := by
  induction names with
  | nil => simp [distinct]
  | cons first rest ih =>
    rw [distinct, List.nodup_cons]
    exact ⟨by simp, ih.filter _⟩

theorem distinct_concat (names : List Name) (name : Name) : distinct (names ++ [name]) =
    if name ∈ names then distinct names else distinct names ++ [name] := by
  induction names with
  | nil => simp [distinct]
  | cons first rest ih =>
    rw [List.cons_append, distinct, distinct, ih]
    by_cases hfirst : name = first
    · subst hfirst
      by_cases hrest : name ∈ rest <;> simp [hrest]
    · by_cases hrest : name ∈ rest <;> simp [hrest, hfirst]

end Name

end GraphQL
