/-!
# Ordered maps

An ordered map is a list of pairs of distinct keys. Inserting a key that is already there gives
it a new value at its old place, a new key goes to the end; so the order of the keys is the order
in which they were first inserted.
-/

namespace GraphQL

/-- A map from texts that remembers the order of insertion. -/
abbrev Assoc (α : Type) :=
  List (String × α)

namespace Assoc

variable {α β : Type}

def keys (m : Assoc α) : List String :=
  m.map Prod.fst

def values (m : Assoc α) : List α :=
  m.map Prod.snd

/-- The value of the first pair with the key. -/
def get? : Assoc α → String → Option α
  | [], _ => none
  | (k, v) :: rest, key => if k = key then some v else get? rest key

def contains (m : Assoc α) (key : String) : Bool :=
  (m.get? key).isSome

/-- Gives the key a value, at its old place if it has one. -/
def insert : Assoc α → String → α → Assoc α
  | [], key, value => [(key, value)]
  | (k, v) :: rest, key, value =>
    if k = key then (key, value) :: rest else (k, v) :: insert rest key value

/-- Inserts the pairs one after the other. -/
def insertAll (m : Assoc α) (pairs : List (String × α)) : Assoc α :=
  pairs.foldl (fun m p => m.insert p.1 p.2) m

/-- The map of a list of pairs: a repeated key keeps its first place and takes its last value. -/
def ofList (pairs : List (String × α)) : Assoc α :=
  insertAll [] pairs

@[simp] theorem get?_nil (key : String) : get? ([] : Assoc α) key = none := rfl

theorem get?_cons (k : String) (v : α) (rest : Assoc α) (key : String) :
    get? ((k, v) :: rest) key = if k = key then some v else get? rest key := rfl

theorem insert_nil (key : String) (value : α) : insert [] key value = [(key, value)] := rfl

theorem insert_cons (k : String) (v : α) (rest : Assoc α) (key : String) (value : α) :
    insert ((k, v) :: rest) key value =
      if k = key then (key, value) :: rest else (k, v) :: insert rest key value := rfl

theorem mem_of_get? {m : Assoc α} {key : String} {value : α} (h : m.get? key = some value) :
    (key, value) ∈ m := by
  induction m with
  | nil => cases h
  | cons p rest ih =>
    obtain ⟨k, v⟩ := p
    rw [get?_cons] at h
    split at h
    · next hk =>
      cases h
      exact hk ▸ List.mem_cons_self ..
    · exact List.mem_cons_of_mem _ (ih h)

theorem exists_get? {m : Assoc α} {key : String} {value : α} (h : (key, value) ∈ m) :
    ∃ found, m.get? key = some found := by
  induction m with
  | nil => cases h
  | cons p rest ih =>
    obtain ⟨k, v⟩ := p
    rw [get?_cons]
    split
    · exact ⟨v, rfl⟩
    · next hk =>
      rcases List.mem_cons.1 h with he | hm
      · cases he
        exact absurd rfl hk
      · exact ih hm

theorem get?_map (f : α → β) (m : Assoc α) (key : String) :
    get? (m.map fun p => (p.1, f p.2)) key = (m.get? key).map f := by
  induction m with
  | nil => rfl
  | cons p rest ih =>
    obtain ⟨k, v⟩ := p
    rw [List.map_cons, get?_cons, get?_cons, ih]
    split <;> rfl

theorem get?_insert (m : Assoc α) (key other : String) (value : α) :
    (m.insert key value).get? other = if key = other then some value else m.get? other := by
  induction m with
  | nil => by_cases h : key = other <;> simp [insert_nil, get?_cons, h]
  | cons p rest ih =>
    obtain ⟨k, v⟩ := p
    by_cases hk : k = key
    · subst hk
      by_cases h : k = other <;> simp [insert_cons, get?_cons, h]
    · by_cases h : k = other
      · subst h
        simp [insert_cons, get?_cons, hk, Ne.symm hk]
      · simp [insert_cons, get?_cons, hk, h, ih]

theorem map_insert (f : α → β) (m : Assoc α) (key : String) (value : α) :
    ((m.insert key value).map fun p => (p.1, f p.2)) =
      insert (m.map fun p => (p.1, f p.2)) key (f value) := by
  induction m with
  | nil => rfl
  | cons p rest ih =>
    rw [insert_cons, List.map_cons, insert_cons]
    split
    · rfl
    · rw [List.map_cons, ih]

theorem keys_insert (m : Assoc α) (key : String) (value : α) :
    (m.insert key value).keys = if key ∈ m.keys then m.keys else m.keys ++ [key] := by
  induction m with
  | nil => simp [insert_nil, keys]
  | cons p rest ih =>
    obtain ⟨k, v⟩ := p
    by_cases hk : k = key
    · subst hk
      simp [insert_cons, keys]
    · simp only [keys] at ih
      by_cases hm : key ∈ rest.map Prod.fst
      · simp [insert_cons, keys, hk, hm, ih]
      · simp [insert_cons, keys, hk, hm, ih, Ne.symm hk]

theorem insert_of_not_mem {m : Assoc α} {key : String} (h : key ∉ m.keys) (value : α) :
    m.insert key value = m ++ [(key, value)] := by
  induction m with
  | nil => rfl
  | cons p rest ih =>
    obtain ⟨k, v⟩ := p
    simp only [keys, List.map_cons, List.mem_cons, not_or] at h
    rw [insert_cons, if_neg (Ne.symm h.1), ih h.2, List.cons_append]

/-- The value of a key that only one pair has. -/
theorem get?_of_mem {m : Assoc α} (h : m.keys.Nodup) {key : String} {value : α}
    (hm : (key, value) ∈ m) : m.get? key = some value := by
  induction m with
  | nil => cases hm
  | cons p rest ih =>
    obtain ⟨k, v⟩ := p
    simp only [keys, List.map_cons, List.nodup_cons] at h
    rw [get?_cons]
    rcases List.mem_cons.1 hm with he | hm
    · cases he
      rw [if_pos rfl]
    · rw [if_neg, ih h.2 hm]
      rintro rfl
      exact h.1 (List.mem_map_of_mem hm)

theorem nodup_keys_insert {m : Assoc α} (h : m.keys.Nodup) (key : String) (value : α) :
    (m.insert key value).keys.Nodup := by
  rw [keys_insert]
  split
  · exact h
  · rename_i hk
    rw [List.nodup_append]
    refine ⟨h, by simp, ?_⟩
    intro a ha b hb
    rw [List.mem_singleton] at hb
    subst hb
    intro hab
    exact hk (hab ▸ ha)

theorem nodup_keys_insertAll {m : Assoc α} (h : m.keys.Nodup) (pairs : List (String × α)) :
    (m.insertAll pairs).keys.Nodup := by
  induction pairs generalizing m with
  | nil => exact h
  | cons p rest ih => exact ih (nodup_keys_insert h p.1 p.2)

theorem nodup_keys_ofList (pairs : List (String × α)) : (ofList pairs).keys.Nodup :=
  nodup_keys_insertAll (by simp [keys]) pairs

theorem mem_of_mem_insert {m : Assoc α} {key : String} {value : α} {p : String × α}
    (h : p ∈ m.insert key value) : p = (key, value) ∨ p ∈ m := by
  induction m with
  | nil => exact .inl (List.mem_singleton.1 h)
  | cons q rest ih =>
    obtain ⟨k, v⟩ := q
    rw [insert_cons] at h
    split at h
    · rcases List.mem_cons.1 h with rfl | hm
      · exact .inl rfl
      · exact .inr (List.mem_cons_of_mem _ hm)
    · rcases List.mem_cons.1 h with rfl | hm
      · exact .inr (List.mem_cons_self ..)
      · exact (ih hm).imp_right (List.mem_cons_of_mem _)

theorem mem_of_mem_insertAll {m pairs : Assoc α} {p : String × α} (h : p ∈ m.insertAll pairs) :
    p ∈ m ∨ p ∈ pairs := by
  induction pairs generalizing m with
  | nil => exact .inl h
  | cons q rest ih =>
    rcases ih h with hm | hr
    · rcases mem_of_mem_insert hm with rfl | hm
      · exact .inr (List.mem_cons_self ..)
      · exact .inl hm
    · exact .inr (List.mem_cons_of_mem _ hr)

theorem mem_of_mem_ofList {pairs : Assoc α} {p : String × α} (h : p ∈ ofList pairs) : p ∈ pairs :=
  (mem_of_mem_insertAll h).resolve_left nofun

theorem insertAll_of_nodup {m pairs : Assoc α} (h : (keys (m ++ pairs)).Nodup) :
    m.insertAll pairs = m ++ pairs := by
  induction pairs generalizing m with
  | nil => exact (List.append_nil m).symm
  | cons p rest ih =>
    have hp : p.1 ∉ m.keys := by
      rw [keys, List.map_append, List.nodup_append] at h
      exact fun hm => h.2.2 p.1 hm p.1 (List.mem_cons_self ..) rfl
    have happend : m ++ p :: rest = m ++ [p] ++ rest := by simp
    rw [happend] at h ⊢
    rw [← ih h, ← insert_of_not_mem hp p.2]
    rfl

/-- Pairs that repeat no key are their own map. -/
theorem ofList_of_nodup {pairs : Assoc α} (h : pairs.keys.Nodup) : ofList pairs = pairs :=
  insertAll_of_nodup (m := []) h

end Assoc

end GraphQL
