import GraphQL.Value.Printer

/-!
# Variables

The values a request gives to its variables, sorted by name. The order is part of the type, so
two collections of the same variables are equal whatever the order in which they were given.
-/

namespace GraphQL

/-- Values by name, in the order of the names. -/
structure Variables where
  entries : List (Name × Const)
  sorted : entries.Pairwise fun a b => a.1 < b.1

namespace Variables

def empty : Variables :=
  ⟨[], .nil⟩

def get? (vars : Variables) (name : Name) : Option Const :=
  Assoc.get? vars.entries name

def contains (vars : Variables) (name : Name) : Bool :=
  (vars.get? name).isSome

def names (vars : Variables) : List Name :=
  vars.entries.map Prod.fst

/-- Puts a value under a name into a sorted list, in place of the old one if there is one. -/
def insertSorted (name : Name) (value : Const) : List (Name × Const) → List (Name × Const)
  | [] => [(name, value)]
  | (k, v) :: rest =>
    if name < k then (name, value) :: (k, v) :: rest
    else if k = name then (name, value) :: rest
    else (k, v) :: insertSorted name value rest

theorem fst_mem_insertSorted {name : Name} {value : Const} {entries : List (Name × Const)}
    {p : Name × Const} (h : p ∈ insertSorted name value entries) :
    p.1 = name ∨ p ∈ entries := by
  induction entries with
  | nil => simp_all [insertSorted]
  | cons q rest ih =>
    obtain ⟨k, v⟩ := q
    rw [insertSorted] at h
    split at h
    · rcases List.mem_cons.1 h with h | h
      · exact .inl (by rw [h])
      · exact .inr h
    · split at h
      · rcases List.mem_cons.1 h with h | h
        · exact .inl (by rw [h])
        · exact .inr (List.mem_cons_of_mem _ h)
      · rcases List.mem_cons.1 h with h | h
        · exact .inr (h ▸ List.mem_cons_self)
        · exact (ih h).imp_right (List.mem_cons_of_mem _)

theorem pairwise_insertSorted {name : Name} {value : Const} {entries : List (Name × Const)}
    (h : entries.Pairwise fun a b => a.1 < b.1) :
    (insertSorted name value entries).Pairwise fun a b => a.1 < b.1 := by
  induction entries with
  | nil => simp [insertSorted]
  | cons q rest ih =>
    obtain ⟨k, v⟩ := q
    obtain ⟨hk, hrest⟩ := List.pairwise_cons.1 h
    rw [insertSorted]
    split
    · rename_i hlt
      refine List.pairwise_cons.2 ⟨?_, h⟩
      intro p hp
      rcases List.mem_cons.1 hp with hp | hp
      · exact hp ▸ hlt
      · exact String.lt_trans hlt (hk p hp)
    · rename_i hlt
      split
      · rename_i heq
        refine List.pairwise_cons.2 ⟨?_, hrest⟩
        intro p hp
        exact heq ▸ hk p hp
      · rename_i hne
        refine List.pairwise_cons.2 ⟨?_, ih hrest⟩
        intro p hp
        rcases fst_mem_insertSorted hp with hp | hp
        · have hle : k ≤ name := String.not_lt.1 hlt
          rw [hp]
          exact Std.lt_of_le_of_ne hle hne
        · exact hk p hp

/-- Gives a variable a value, in place of the old one if it has one. -/
def insert (vars : Variables) (name : Name) (value : Const) : Variables :=
  ⟨insertSorted name value vars.entries, pairwise_insertSorted vars.sorted⟩

/-- Takes a variable out. -/
def erase (vars : Variables) (name : Name) : Variables :=
  ⟨vars.entries.filter fun p => p.1 ≠ name, vars.sorted.filter _⟩

/-- The variables of a list of pairs; of several values for one name the last stays. -/
def ofList (pairs : List (Name × Const)) : Variables :=
  pairs.foldl (fun vars p => vars.insert p.1 p.2) empty

/-- The fields of an object as variables; no other value has any. -/
def ofConst : Const → Variables
  | .object fields => ofList fields
  | _ => empty

def ofJson (j : Json) : Variables :=
  ofConst (Const.ofJson j)

def toConst (vars : Variables) : Const :=
  .object vars.entries

def toJson (vars : Variables) : Json :=
  Const.toJson vars.toConst

/-- The text of the variables, that of the object they form. -/
def text (vars : Variables) : String :=
  Const.text vars.toConst

end Variables

/-- A variable that a value needs is absent. -/
structure UnknownVariable where
  name : Name

def UnknownVariable.message (e : UnknownVariable) : String :=
  s!"Variable ${e.name} is not defined"

/-- Replaces each variable of a literal by its value; fails at the first one that has none. -/
def Value.substitute (vars : Variables) (v : Literal) : Except UnknownVariable Const :=
  v.instantiate fun name =>
    match vars.get? name with
    | some value => .ok value
    | none => .error ⟨name⟩

end GraphQL
