import GraphQL.Variables
import Mathlib.Data.List.Forall2

/-!
# Substitution

The variables of a value are replaced one after the other, in the order in which they occur in the
text. `Calls` says how a function with a state of its own is called with several names up to the
first failure; replacing the variables of a value calls it so with `Value.occurrences`
(`Value.instantiate_gives`), and gives the value with the answers in their places
(`Value.Replaces`). Functions without a state are a special case (`Value.instantiate_hom`).
-/

namespace GraphQL

/-- A computation with a state in `σ`, which it may change before it fails. -/
abbrev Fallible (ε σ : Type) :=
  ExceptT ε (StateM σ)

namespace Fallible

variable {ε σ α β : Type}

/-- What a computation comes to from a state, and the state then. -/
def on (m : Fallible ε σ α) (s : σ) : Except ε α × σ :=
  m.run.run s

theorem on_pure (a : α) (s : σ) : (pure a : Fallible ε σ α).on s = (.ok a, s) :=
  rfl

theorem on_bind_ok {m : Fallible ε σ α} {a : α} {s s' : σ} (h : m.on s = (.ok a, s'))
    (k : α → Fallible ε σ β) : (m >>= k).on s = (k a).on s' := by
  show (match m.on s with | (r, s') => ExceptT.bindCont k r s') = _
  rw [h]
  rfl

theorem on_bind_error {m : Fallible ε σ α} {e : ε} {s s' : σ} (h : m.on s = (.error e, s'))
    (k : α → Fallible ε σ β) : (m >>= k).on s = (.error e, s') := by
  show (match m.on s with | (r, s') => ExceptT.bindCont k r s') = _
  rw [h]
  rfl

/-- A result that hangs on no state. -/
def ofExcept (r : Except ε α) : Fallible ε σ α :=
  ExceptT.mk (pure r)

theorem on_ofExcept (r : Except ε α) (s : σ) : (ofExcept r : Fallible ε σ α).on s = (r, s) :=
  rfl

end Fallible

/-- A function is called with one name after the other, up to the first failure: from a state it
gives answers or the failure, and another state, and the names are those it was called with. -/
inductive Calls {ν ε σ : Type} (f : ν → Fallible ε σ Const) :
    List ν → σ → Except ε (List Const) → σ → List ν → Prop where
  | none (s : σ) : Calls f [] s (.ok []) s []
  | failed {x : ν} {e : ε} {s s' : σ} (rest : List ν) : (f x).on s = (.error e, s') →
      Calls f (x :: rest) s (.error e) s' [x]
  | next {x : ν} {c : Const} {rest called : List ν} {s s' s'' : σ}
      {answers : Except ε (List Const)} : (f x).on s = (.ok c, s') →
      Calls f rest s' answers s'' called →
      Calls f (x :: rest) s (answers.map (c :: ·)) s'' (x :: called)

namespace Calls

variable {ν ε σ : Type} {f : ν → Fallible ε σ Const} {xs ys called : List ν} {s s' : σ}
  {answers : Except ε (List Const)}

theorem exists_calls (f : ν → Fallible ε σ Const) (xs : List ν) (s : σ) :
    ∃ answers s' called, Calls f xs s answers s' called := by
  induction xs generalizing s with
  | nil => exact ⟨_, _, _, .none s⟩
  | cons x rest ih =>
    obtain ⟨r, s', h⟩ : ∃ r s', (f x).on s = (r, s') := ⟨_, _, rfl⟩
    cases r with
    | error e => exact ⟨_, _, _, .failed rest h⟩
    | ok c =>
      obtain ⟨answers, s'', called, hrest⟩ := ih s'
      exact ⟨_, _, _, .next h hrest⟩

/-- Calls with two lists of names fail in the first, or go on with the second. -/
theorem append_cases (h : Calls f (xs ++ ys) s answers s' called) :
    (∃ e, answers = .error e ∧ Calls f xs s (.error e) s' called) ∨
    ∃ before s₁ called₁ after called₂, Calls f xs s (.ok before) s₁ called₁ ∧
      Calls f ys s₁ after s' called₂ ∧ answers = after.map (before ++ ·) := by
  induction xs generalizing s answers called with
  | nil =>
    refine .inr ⟨[], s, [], answers, called, .none s, h, ?_⟩
    cases answers <;> rfl
  | cons x rest ih =>
    cases h with
    | failed _ hx => exact .inl ⟨_, rfl, .failed rest hx⟩
    | @next _ c _ called _ s₁ _ answers hx hrest =>
      rcases ih hrest with ⟨e, rfl, he⟩ | ⟨before, s₂, called₁, after, called₂, hbefore, hafter, rfl⟩
      · exact .inl ⟨e, rfl, .next hx he⟩
      · refine .inr ⟨c :: before, s₂, _, after, called₂, .next hx hbefore, hafter, ?_⟩
        cases after <;> rfl

/-- Calls of a function without a state give an answer for each name, or the failure of the first one
that has none. -/
theorem stateless {g : ν → Except ε Const}
    (h : Calls (fun x => (Fallible.ofExcept (g x) : Fallible ε σ Const)) xs s answers s' called) :
    match answers with
    | .ok answers => List.Forall₂ (fun x c => g x = .ok c) xs answers
    | .error e => ∃ before x after, xs = before ++ x :: after ∧
        (∀ y ∈ before, ∃ c, g y = .ok c) ∧ g x = .error e := by
  induction h with
  | none => exact .nil
  | failed rest hx => exact ⟨[], _, rest, rfl, List.forall_mem_nil _, congrArg Prod.fst hx⟩
  | @next x c rest called s s' s'' answers hx _ ih =>
    have hc : g x = .ok c := congrArg Prod.fst hx
    cases answers with
    | ok answers => exact .cons hc ih
    | error e =>
      obtain ⟨before, y, after, rfl, hbefore, hy⟩ := ih
      exact ⟨x :: before, y, after, rfl, List.forall_mem_cons.2 ⟨⟨c, hc⟩, hbefore⟩, hy⟩

/-- The function with a record of the names that it is called with. -/
def recorded (f : ν → Fallible ε σ Const) (x : ν) : Fallible ε (σ × List ν) Const :=
  ExceptT.mk fun (s, record) => (((f x).on s).1, ((f x).on s).2, record ++ [x])

theorem on_recorded {x : ν} {r : Except ε Const} (h : (f x).on s = (r, s')) (record : List ν) :
    (recorded f x).on (s, record) = (r, s', record ++ [x]) := by
  show (((f x).on s).1, ((f x).on s).2, record ++ [x]) = _
  rw [h]

/-- A record makes no difference, and has the names in the end. -/
theorem record (h : Calls f xs s answers s' called) (record : List ν) :
    Calls (recorded f) xs (s, record) answers (s', record ++ called) called := by
  induction h generalizing record with
  | none s => rw [List.append_nil]; exact .none _
  | failed rest hx => exact .failed rest (on_recorded hx record)
  | @next x _ _ called _ _ _ _ hx _ ih =>
    have hrest := ih (record ++ [x])
    rw [List.append_assoc] at hrest
    exact .next (on_recorded hx record) hrest

end Calls

namespace Value

variable {ν ε σ : Type}

/-! ## Occurrences -/

mutual

/-- The variables of a value in the order of the text, each as often as it occurs. -/
def occurrences : Value ν → List ν
  | .variable x => [x]
  | .list items => itemOccurrences items
  | .object fields => fieldOccurrences fields
  | _ => []

def itemOccurrences : List (Value ν) → List ν
  | [] => []
  | item :: rest => item.occurrences ++ itemOccurrences rest

def fieldOccurrences : List (Name × Value ν) → List ν
  | [] => []
  | (_, value) :: rest => value.occurrences ++ fieldOccurrences rest

end

mutual

/-- The constant is the value with each variable replaced by the constant for it: one for each
occurrence, in the order of the text. -/
inductive Replaces {ν : Type} : Value ν → List Const → Const → Prop where
  | variable (x : ν) (c : Const) : Replaces (.variable x) [c] c
  | null : Replaces .null [] .null
  | number (n : Number) : Replaces (.number n) [] (.number n)
  | string (s : String) : Replaces (.string s) [] (.string s)
  | bool (b : Bool) : Replaces (.bool b) [] (.bool b)
  | enum (name : Name) : Replaces (.enum name) [] (.enum name)
  | list {items : List (Value ν)} {answers items' : List Const} :
      ReplacesItems items answers items' → Replaces (.list items) answers (.list items')
  | object {fields : List (Name × Value ν)} {answers : List Const} {fields' : List (Name × Const)} :
      ReplacesFields fields answers fields' → Replaces (.object fields) answers (.object fields')

inductive ReplacesItems {ν : Type} : List (Value ν) → List Const → List Const → Prop where
  | nil : ReplacesItems [] [] []
  | cons {item : Value ν} {rest : List (Value ν)} {before after rest' : List Const} {item' : Const} :
      Replaces item before item' → ReplacesItems rest after rest' →
      ReplacesItems (item :: rest) (before ++ after) (item' :: rest')

inductive ReplacesFields {ν : Type} :
    List (Name × Value ν) → List Const → List (Name × Const) → Prop where
  | nil : ReplacesFields [] [] []
  | cons {value : Value ν} {rest : List (Name × Value ν)} {before after : List Const}
      {rest' : List (Name × Const)} {value' : Const} (key : Name) :
      Replaces value before value' → ReplacesFields rest after rest' →
      ReplacesFields ((key, value) :: rest) (before ++ after) ((key, value') :: rest')

end

/-! ## Calls in order -/

/-- What a computation comes to when the calls it makes give these answers: something that goes with
them, or their failure. -/
def Gives {α : Type} (m : Fallible ε σ α) (s : σ) (answers : Except ε (List Const)) (s' : σ)
    (good : List Const → α → Prop) : Prop :=
  match answers with
  | .ok answers => ∃ a, good answers a ∧ m.on s = (.ok a, s')
  | .error e => m.on s = (.error e, s')

section

variable {α β : Type} {m : Fallible ε σ α} {k : α → Fallible ε σ β} {s s' s₁ : σ} {a : α}
  {before : List Const} {answers : Except ε (List Const)} {good good' : List Const → β → Prop}

theorem gives_error {e : ε} (h : m.on s = (.error e, s')) : Gives (m >>= k) s (.error e) s' good :=
  Fallible.on_bind_error h k

/-- What comes next has its own answers, behind those before. -/
theorem Gives.after (h : m.on s = (.ok a, s₁)) (hk : Gives (k a) s₁ answers s' good)
    (himp : ∀ after b, good after b → good' (before ++ after) b) :
    Gives (m >>= k) s (answers.map (before ++ ·)) s' good' := by
  cases answers with
  | error e => exact (Fallible.on_bind_ok h k).trans hk
  | ok after =>
    obtain ⟨b, hb, hrun⟩ := hk
    exact ⟨b, himp after b hb, (Fallible.on_bind_ok h k).trans hrun⟩

theorem Gives.map {f : α → β} {good : List Const → α → Prop} (h : Gives m s answers s' good)
    (himp : ∀ answers a, good answers a → good' answers (f a)) :
    Gives (m >>= fun a => pure (f a)) s answers s' good' := by
  cases answers with
  | error e => exact Fallible.on_bind_error h _
  | ok answers =>
    obtain ⟨a, ha, hrun⟩ := h
    exact ⟨f a, himp answers a ha, (Fallible.on_bind_ok hrun _).trans (Fallible.on_pure ..)⟩

end

section

variable {f : ν → Fallible ε σ Const} {s s' : σ} {answers : Except ε (List Const)} {called : List ν}

theorem gives_plain {v : Value ν} {c : Const} (h : Calls f [] s answers s' called)
    (hv : Replaces v [] c) : Gives (pure c : Fallible ε σ Const) s answers s' (Replaces v) := by
  cases h
  exact ⟨c, hv, rfl⟩

mutual

/-- Replacing the variables of a value calls the function with one after the other. -/
theorem instantiate_gives : (v : Value ν) → ∀ {s s' : σ} {answers : Except ε (List Const)}
    {called : List ν}, Calls f v.occurrences s answers s' called →
      Gives (v.instantiate f) s answers s' (Replaces v)
  | .variable x => fun h => by
    cases h with
    | failed _ hx => exact hx
    | next hx hrest =>
      cases hrest
      exact ⟨_, .variable x _, hx⟩
  | .null => fun h => gives_plain h .null
  | .number n => fun h => gives_plain h (.number n)
  | .string s => fun h => gives_plain h (.string s)
  | .bool b => fun h => gives_plain h (.bool b)
  | .enum name => fun h => gives_plain h (.enum name)
  | .list items => fun h => (instantiateItems_give items h).map fun _ _ => .list
  | .object fields => fun h => (instantiateFields_give fields h).map fun _ _ => .object

theorem instantiateItems_give : (items : List (Value ν)) → ∀ {s s' : σ}
    {answers : Except ε (List Const)} {called : List ν},
    Calls f (itemOccurrences items) s answers s' called →
      Gives (instantiateItems f items) s answers s' (ReplacesItems items)
  | [] => fun h => by
    cases h
    exact ⟨[], .nil, rfl⟩
  | item :: rest => fun h => by
    rcases h.append_cases with ⟨e, rfl, hitem⟩ | ⟨before, s₁, _, after, _, hitem, hrest, rfl⟩
    · exact gives_error (instantiate_gives item hitem)
    · obtain ⟨c, hc, hrun⟩ := instantiate_gives item hitem
      exact .after hrun ((instantiateItems_give rest hrest).map fun _ _ h => .cons hc h)
        fun _ _ h => h

theorem instantiateFields_give : (fields : List (Name × Value ν)) → ∀ {s s' : σ}
    {answers : Except ε (List Const)} {called : List ν},
    Calls f (fieldOccurrences fields) s answers s' called →
      Gives (instantiateFields f fields) s answers s' (ReplacesFields fields)
  | [] => fun h => by
    cases h
    exact ⟨[], .nil, rfl⟩
  | (key, value) :: rest => fun h => by
    rcases h.append_cases with ⟨e, rfl, hvalue⟩ | ⟨before, s₁, _, after, _, hvalue, hrest, rfl⟩
    · exact gives_error (instantiate_gives value hvalue)
    · obtain ⟨c, hc, hrun⟩ := instantiate_gives value hvalue
      exact .after hrun ((instantiateFields_give rest hrest).map fun _ _ h => .cons key hc h)
        fun _ _ h => h

end

end

/-! ## Functions without a state -/

section

variable {m n : Type → Type} [Monad m] [Monad n] {φ : ∀ {α : Type}, m α → n α}

mutual

/-- What maps one kind of computation to another, step by step, maps replacing variables in the one
to replacing them in the other. -/
theorem instantiate_hom (hpure : ∀ {α : Type} (a : α), φ (pure a) = pure a)
    (hbind : ∀ {α β : Type} (x : m α) (k : α → m β), φ (x >>= k) = φ x >>= fun a => φ (k a))
    (f : ν → m Const) : (v : Value ν) → φ (v.instantiate f) = v.instantiate fun x => φ (f x)
  | .variable _ => rfl
  | .null | .number _ | .string _ | .bool _ | .enum _ => hpure _
  | .list items => by
    rw [instantiate, instantiate, hbind, instantiateItems_hom hpure hbind f items]
    simp only [hpure]
  | .object fields => by
    rw [instantiate, instantiate, hbind, instantiateFields_hom hpure hbind f fields]
    simp only [hpure]

theorem instantiateItems_hom (hpure : ∀ {α : Type} (a : α), φ (pure a) = pure a)
    (hbind : ∀ {α β : Type} (x : m α) (k : α → m β), φ (x >>= k) = φ x >>= fun a => φ (k a))
    (f : ν → m Const) : (items : List (Value ν)) →
      φ (instantiateItems f items) = instantiateItems (fun x => φ (f x)) items
  | [] => hpure _
  | item :: rest => by
    rw [instantiateItems, instantiateItems, hbind, instantiate_hom hpure hbind f item]
    simp only [hbind, hpure, instantiateItems_hom hpure hbind f rest]

theorem instantiateFields_hom (hpure : ∀ {α : Type} (a : α), φ (pure a) = pure a)
    (hbind : ∀ {α β : Type} (x : m α) (k : α → m β), φ (x >>= k) = φ x >>= fun a => φ (k a))
    (f : ν → m Const) : (fields : List (Name × Value ν)) →
      φ (instantiateFields f fields) = instantiateFields (fun x => φ (f x)) fields
  | [] => hpure _
  | (key, value) :: rest => by
    rw [instantiateFields, instantiateFields, hbind, instantiate_hom hpure hbind f value]
    simp only [hbind, hpure, instantiateFields_hom hpure hbind f rest]

end

end

theorem instantiate_ofExcept (g : ν → Except ε Const) (v : Value ν) (s : σ) :
    (v.instantiate fun x => (Fallible.ofExcept (g x) : Fallible ε σ Const)).on s =
      (v.instantiate g, s) := by
  have h := instantiate_hom (m := Except ε) (n := Fallible ε σ) (φ := fun {_} => Fallible.ofExcept)
    (fun _ => rfl) (fun x k => by cases x <;> rfl) g v
  rw [← h, Fallible.on_ofExcept]

/-- Replacing variables by a function without a state fails where the first one fails that does. -/
theorem instantiate_cases (g : ν → Except ε Const) (v : Value ν) :
    (∃ answers c, List.Forall₂ (fun x a => g x = .ok a) v.occurrences answers ∧
      Replaces v answers c ∧ v.instantiate g = .ok c) ∨
    ∃ before x after e, v.occurrences = before ++ x :: after ∧ (∀ y ∈ before, ∃ c, g y = .ok c) ∧
      g x = .error e ∧ v.instantiate g = .error e := by
  obtain ⟨answers, s', called, hcalls⟩ := Calls.exists_calls
    (fun x => (Fallible.ofExcept (g x) : Fallible ε Unit Const)) v.occurrences ()
  have hgives := instantiate_gives v hcalls
  have hanswers := hcalls.stateless
  cases answers with
  | ok answers =>
    obtain ⟨c, hc, hrun⟩ := hgives
    rw [instantiate_ofExcept] at hrun
    exact .inl ⟨answers, c, hanswers, hc, congrArg Prod.fst hrun⟩
  | error e =>
    obtain ⟨before, x, after, hv, hbefore, hx⟩ := hanswers
    have hrun := (instantiate_ofExcept (σ := Unit) g v ()).symm.trans hgives
    exact .inr ⟨before, x, after, e, hv, hbefore, hx, congrArg Prod.fst hrun⟩

/-! ## Values without variables -/

mutual

theorem hasVariables_eq : (v : Value ν) → v.hasVariables = !v.occurrences.isEmpty
  | .variable _ => rfl
  | .null | .number _ | .string _ | .bool _ | .enum _ => rfl
  | .list items => anyItem_eq items
  | .object fields => anyField_eq fields

theorem anyItem_eq : (items : List (Value ν)) → anyItem items = !(itemOccurrences items).isEmpty
  | [] => rfl
  | item :: rest => by
    rw [anyItem, hasVariables_eq item, anyItem_eq rest, itemOccurrences]
    cases item.occurrences <;> rfl

theorem anyField_eq : (fields : List (Name × Value ν)) →
    anyField fields = !(fieldOccurrences fields).isEmpty
  | [] => rfl
  | (_, value) :: rest => by
    rw [anyField, hasVariables_eq value, anyField_eq rest, fieldOccurrences]
    cases value.occurrences <;> rfl

end

mutual

/-- Where nothing is replaced the constant is the value. -/
theorem ofConst_of_replaces : (v : Value ν) → ∀ {c : Const}, Replaces v [] c → ofConst c = v
  | .variable _ => fun h => by cases h
  | .null | .number _ | .string _ | .bool _ | .enum _ => fun h => by
    cases h
    rfl
  | .list items => fun h => by
    cases h with
    | list h => rw [ofConst, ofConstItems_of_replaces items h]
  | .object fields => fun h => by
    cases h with
    | object h => rw [ofConst, ofConstFields_of_replaces fields h]

theorem ofConstItems_of_replaces : (items : List (Value ν)) → ∀ {items' : List Const},
    ReplacesItems items [] items' → ofConstItems items' = items
  | [] => fun h => by
    cases h
    rfl
  | item :: rest => fun h => by
    generalize he : [] = answers at h
    cases h with
    | cons hitem hrest =>
      obtain ⟨rfl, rfl⟩ := List.append_eq_nil_iff.1 he.symm
      rw [ofConstItems, ofConst_of_replaces item hitem, ofConstItems_of_replaces rest hrest]

theorem ofConstFields_of_replaces : (fields : List (Name × Value ν)) →
    ∀ {fields' : List (Name × Const)}, ReplacesFields fields [] fields' →
      ofConstFields fields' = fields
  | [] => fun h => by
    cases h
    rfl
  | (key, value) :: rest => fun h => by
    generalize he : [] = answers at h
    cases h with
    | cons _ hvalue hrest =>
      obtain ⟨rfl, rfl⟩ := List.append_eq_nil_iff.1 he.symm
      rw [ofConstFields, ofConst_of_replaces value hvalue, ofConstFields_of_replaces rest hrest]

end

section

variable {m : Type → Type} [Monad m] [LawfulMonad m]

mutual

/-- A constant is what it was after its variables are replaced, as it has none. -/
theorem instantiate_ofConst (f : ν → m Const) : (c : Const) → (ofConst c).instantiate f = pure c
  | .null | .number _ | .string _ | .bool _ | .enum _ => rfl
  | .list items => by
    rw [ofConst, instantiate, instantiateItems_ofConst f items, pure_bind]
  | .object fields => by
    rw [ofConst, instantiate, instantiateFields_ofConst f fields, pure_bind]

theorem instantiateItems_ofConst (f : ν → m Const) : (items : List Const) →
    instantiateItems f (ofConstItems items) = pure items
  | [] => rfl
  | item :: rest => by
    simp only [ofConstItems, instantiateItems, instantiate_ofConst f item,
      instantiateItems_ofConst f rest, pure_bind]

theorem instantiateFields_ofConst (f : ν → m Const) : (fields : List (Name × Const)) →
    instantiateFields f (ofConstFields fields) = pure fields
  | [] => rfl
  | (key, value) :: rest => by
    simp only [ofConstFields, instantiateFields, instantiate_ofConst f value,
      instantiateFields_ofConst f rest, pure_bind]

end

end

theorem toConst?_eq (v : Value ν) :
    v.toConst? = (v.instantiate fun _ => (.error () : Except Unit Const)).toOption :=
  (instantiate_hom (m := Except Unit) (n := Option) (φ := fun {_} => Except.toOption) (fun _ => rfl)
    (fun x k => by cases x <;> rfl) (fun _ => .error ()) v).symm

theorem toConst?_cases (v : Value ν) :
    v.hasVariables = false ∧ (∃ c, v.toConst? = some c ∧ ofConst c = v) ∨
      v.hasVariables = true ∧ v.toConst? = none := by
  rw [hasVariables_eq, toConst?_eq]
  rcases instantiate_cases (fun _ => (.error () : Except Unit Const)) v with
    ⟨answers, c, hanswers, hc, hrun⟩ | ⟨before, x, after, e, hv, -, -, hrun⟩
  · generalize v.occurrences = xs at hanswers
    cases hanswers with
    | nil => exact .inl ⟨rfl, c, by rw [hrun]; rfl, ofConst_of_replaces v hc⟩
    | cons h _ => cases h
  · rw [hv, hrun]
    exact .inr ⟨by simp, rfl⟩

/-! ## Literals -/

/-- Replacing the variables of a value by a function calls it with the variables in order, each once,
up to the first for which it fails, and gives the value with its answers, or the failure. -/
structure InOrder (f : ν → Fallible ε σ Const) (v : Value ν) (s : σ)
    (answers : Except ε (List Const)) (s' : σ) (called : List ν) : Prop where
  calls : Calls f v.occurrences s answers s' called
  gives : Gives (v.instantiate f) s answers s' (Replaces v)
  record : ((v.instantiate (Calls.recorded f)).on (s, [])).2 = (s', called)

theorem exists_inOrder (f : ν → Fallible ε σ Const) (v : Value ν) (s : σ) :
    ∃ answers s' called, InOrder f v s answers s' called := by
  obtain ⟨answers, s', called, h⟩ := Calls.exists_calls f v.occurrences s
  refine ⟨answers, s', called, h, instantiate_gives v h, ?_⟩
  have hrecord := instantiate_gives v (h.record [])
  cases answers with
  | ok answers =>
    obtain ⟨c, -, hrun⟩ := hrecord
    rw [hrun]
    rfl
  | error e => exact congrArg Prod.snd hrecord

/-- The value of a variable, or the failure that it has none. -/
def lookUp (vars : Variables) (x : Name) : Except UnknownVariable Const :=
  match vars.get? x with
  | some value => .ok value
  | none => .error ⟨x⟩

theorem substitute_eq (vars : Variables) (v : Literal) :
    v.substitute vars = v.instantiate (lookUp vars) :=
  rfl

theorem lookUp_eq_ok {vars : Variables} {x : Name} {c : Const} (h : lookUp vars x = .ok c) :
    vars.get? x = some c := by
  unfold lookUp at h
  split at h <;> cases h
  assumption

theorem lookUp_eq_error {vars : Variables} {x : Name} {e : UnknownVariable}
    (h : lookUp vars x = .error e) : vars.get? x = none ∧ e = ⟨x⟩ := by
  unfold lookUp at h
  split at h <;> cases h
  exact ⟨by assumption, rfl⟩

theorem find?_absent_eq_none {vars : Variables} {xs : List Name} {answers : List Const}
    (h : List.Forall₂ (fun x a => vars.get? x = some a) xs answers) :
    xs.find? (fun x => !vars.contains x) = none := by
  induction h with
  | nil => rfl
  | cons hx _ ih => rw [List.find?_cons_of_neg (by simp [Variables.contains, hx]), ih]

/-- Substitution succeeds if all variables are present, else it fails with the first that is not. -/
theorem substitute_cases (vars : Variables) (v : Literal) :
    (∃ answers c, List.Forall₂ (fun x a => vars.get? x = some a) v.occurrences answers ∧
      Replaces v answers c ∧ v.substitute vars = .ok c ∧
      v.occurrences.find? (fun x => !vars.contains x) = none) ∨
    ∃ x, v.substitute vars = .error ⟨x⟩ ∧
      v.occurrences.find? (fun x => !vars.contains x) = some x := by
  rw [substitute_eq]
  rcases instantiate_cases (lookUp vars) v with
    ⟨answers, c, hanswers, hc, hrun⟩ | ⟨before, x, after, e, hv, hbefore, hx, hrun⟩
  · have hpresent : List.Forall₂ (fun x a => vars.get? x = some a) v.occurrences answers :=
      hanswers.imp fun _ _ => lookUp_eq_ok
    exact .inl ⟨answers, c, hpresent, hc, hrun, find?_absent_eq_none hpresent⟩
  · obtain ⟨habsent, rfl⟩ := lookUp_eq_error hx
    refine .inr ⟨x, hrun, ?_⟩
    rw [hv, List.find?_eq_some_iff_append]
    refine ⟨by simp [Variables.contains, habsent], before, after, rfl, fun y hy => ?_⟩
    obtain ⟨c, hc⟩ := hbefore y hy
    simp [Variables.contains, lookUp_eq_ok hc]

theorem substitute_ok_iff {vars : Variables} {v : Literal} :
    (∃ c, v.substitute vars = .ok c) ↔ ∀ x ∈ v.occurrences, vars.contains x = true := by
  rcases substitute_cases vars v with ⟨answers, c, -, -, hrun, hnone⟩ | ⟨x, hrun, hx⟩
  · have hall := List.find?_eq_none.1 hnone
    exact ⟨fun _ x hx => by simpa using hall x hx, fun _ => ⟨c, hrun⟩⟩
  · have hmem := List.mem_of_find?_eq_some hx
    have habsent := List.find?_some hx
    constructor
    · rintro ⟨c, hc⟩
      cases hrun.symm.trans hc
    · intro hall
      simp [hall x hmem] at habsent

theorem substitute_error_iff {vars : Variables} {v : Literal} {x : Name} :
    v.substitute vars = .error ⟨x⟩ ↔
      v.occurrences.find? (fun x => !vars.contains x) = some x := by
  rcases substitute_cases vars v with ⟨answers, c, -, -, hrun, hnone⟩ | ⟨y, hrun, hy⟩
  · simp [hrun, hnone]
  · simp [hrun, hy]

theorem replaces_of_substitute {vars : Variables} {v : Literal} {c : Const}
    (h : v.substitute vars = .ok c) :
    ∃ answers, List.Forall₂ (fun x a => vars.get? x = some a) v.occurrences answers ∧
      Replaces v answers c := by
  rcases substitute_cases vars v with ⟨answers, c', hanswers, hc, hrun, -⟩ | ⟨x, hrun, -⟩
  · cases hrun.symm.trans h
    exact ⟨answers, hanswers, hc⟩
  · cases hrun.symm.trans h

/-- Replacing the variables of a value by a function with a state calls it with one after the other
and stops at the first failure. So substitution fails with the first variable that is absent, a value
is a constant if and only if it has no variables, and a constant stays what it is. -/
theorem instantiate_in_order (v : Literal) :
    (∀ {ε σ : Type} (f : Name → Fallible ε σ Const) (s : σ),
      ∃ answers s' called, InOrder f v s answers s' called) ∧
    (∀ vars : Variables,
      ((∃ c, v.substitute vars = .ok c) ↔ ∀ x ∈ v.occurrences, vars.contains x = true) ∧
      (∀ c, v.substitute vars = .ok c →
        ∃ answers, List.Forall₂ (fun x a => vars.get? x = some a) v.occurrences answers ∧
          Replaces v answers c) ∧
      ∀ x, v.substitute vars = .error ⟨x⟩ ↔
        v.occurrences.find? (fun x => !vars.contains x) = some x) ∧
    ((v.hasVariables = false ↔ ∃ c, v.toConst? = some c) ∧
      ∀ c, v.toConst? = some c → ofConst c = v) ∧
    ∀ c : Const, (ofConst c : Literal).toConst? = some c := by
  refine ⟨fun f s => exists_inOrder f v s, fun vars => ?_, ?_, instantiate_ofConst fun _ => none⟩
  · exact ⟨substitute_ok_iff, fun c => replaces_of_substitute, fun x => substitute_error_iff⟩
  · rcases toConst?_cases v with ⟨hno, c, hc, hback⟩ | ⟨hyes, hnone⟩
    · refine ⟨⟨fun _ => ⟨c, hc⟩, fun _ => hno⟩, fun c' hc' => ?_⟩
      cases hc.symm.trans hc'
      exact hback
    · simp [hyes, hnone]

end Value

end GraphQL
