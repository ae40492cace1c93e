import GraphQL.Coercion
import GraphQL.Registry.Check
import GraphQL.Proofs.Number.Integral

/-!
# What coerced values are

`Registry.Conforms` says which constants are values of a type, and asks of the fields of an input
object what their declaration says. Coercion gives such a value wherever it was given one. A field that
was not given takes its declared default as it stands, which the check of a registry does not look at:
`Registry.ConformsGiven` follows the given constant to tell these fields apart. So all of the result
conforms when the declared defaults do, and need not when they do not.
-/

namespace GraphQL

/-- Where a computation that ends in a result gets it from. -/
theorem exists_of_bind_pure {ε α β : Type} {x : Except ε α} {f : α → β} {b : β}
    (h : (do let a ← x; pure (f a)) = Except.ok b) : ∃ a, x = .ok a ∧ f a = b := by
  cases x with
  | error e => cases h
  | ok a => exact ⟨a, rfl, Except.ok.inj h⟩

/-! ## Values of types -/

/-- Which constants are values of a built-in scalar. -/
def Scalar.Admits : Scalar → Const → Prop
  | int, .number n => ∃ i : Int, n.toRat = i ∧ -0x80000000 ≤ i ∧ i < 0x80000000
  | float, .number _ => True
  | string, .string _ | id, .string _ => True
  | boolean, .bool _ => True
  | _, _ => False

theorem Scalar.admits_of_parse? {s : Scalar} {given value : Const} (h : s.parse? given = some value) :
    s.Admits value := by
  unfold parse? at h
  split at h
  · obtain ⟨i, hi, rfl⟩ := Option.map_eq_some_iff.1 h
    exact ⟨i, Number.toInt32?_eq_some_iff.1 hi⟩
  · cases h
    trivial
  · cases h
    trivial
  · cases h
    trivial
  · cases h
    trivial
  · split at h
    · cases h
      trivial
    · cases h
  · cases h

/-- Which constants are values of a scalar or an enum. Any constant but null is a value of a scalar that
is not built in. -/
def TypeSpec.Admits {ρ : Type} : TypeSpec ρ → Const → Prop
  | scalar (some s), value => s.Admits value
  | scalar none, value => value.isNull = false
  | enum values, .enum name => name ∈ values
  | _, _ => False

namespace Registry

variable {ρ : Type}

mutual

/-- The constant is a value of the type. -/
inductive Conforms (r : Registry ρ) : TypeRef → Const → Prop
  | null {type} (h : type.nullable = true) : Conforms r type .null
  | list {item nullable values} (h : ∀ value ∈ values, Conforms r item value) :
    Conforms r (.list item nullable) (.list values)
  | leaf {name nullable value spec} (hs : r.lookup name = some spec) (h : spec.Admits value) :
    Conforms r (.named name nullable) value
  | object {name nullable declared fields} (hs : r.lookup name = some (.input declared))
    (h : FieldsConform r declared fields) : Conforms r (.named name nullable) (.object fields)

/-- The fields are among the declared ones and in their order, each with a value of its type, and none
is left out that cannot be null. -/
inductive FieldsConform (r : Registry ρ) : Assoc InputSpec → List (Name × Const) → Prop
  | nil : FieldsConform r [] []
  | present {name input declared value fields} (hvalue : Conforms r input.type value)
    (h : FieldsConform r declared fields) :
    FieldsConform r ((name, input) :: declared) ((name, value) :: fields)
  | absent {name input declared fields} (hnull : input.type.nullable = true)
    (h : FieldsConform r declared fields) : FieldsConform r ((name, input) :: declared) fields

end

/-- The keys are declared ones, in the order of their declaration. -/
theorem FieldsConform.sublist {r : Registry ρ} : ∀ {declared fields}, r.FieldsConform declared fields →
    (Assoc.keys fields).Sublist (Assoc.keys declared)
  | _, _, .nil => .slnil
  | _, _, .present _ h => h.sublist.cons_cons _
  | _, _, .absent _ h => h.sublist.cons _

theorem FieldsConform.exists_declared {r : Registry ρ} {name value} : ∀ {declared fields},
    r.FieldsConform declared fields → (name, value) ∈ fields →
      ∃ input, (name, input) ∈ declared ∧ r.Conforms input.type value
  | _, _, .nil, hm => by cases hm
  | _, _, .present hvalue h, hm => by
    rcases List.mem_cons.1 hm with he | hm
    · cases he
      exact ⟨_, List.mem_cons_self .., hvalue⟩
    · obtain ⟨input, hinput, hvalue⟩ := h.exists_declared hm
      exact ⟨input, List.mem_cons_of_mem _ hinput, hvalue⟩
  | _, _, .absent _ h, hm => by
    obtain ⟨input, hinput, hvalue⟩ := h.exists_declared hm
    exact ⟨input, List.mem_cons_of_mem _ hinput, hvalue⟩

mutual

/-- The constant is what a given one may become as a value of the type. It conforms to the type but for
the fields that are not given and have a default: they hold it as it was declared. -/
inductive ConformsGiven (r : Registry ρ) : Const → TypeRef → Const → Prop
  | null {type} (h : type.nullable = true) : ConformsGiven r .null type .null
  | list {given item nullable values} (hlength : given.length = values.length)
    (h : ∀ p ∈ given.zip values, ConformsGiven r p.1 item p.2) :
    ConformsGiven r (.list given) (.list item nullable) (.list values)
  | single {given item nullable value} (hnull : given.isNull = false) (hlist : ∀ items, given ≠ .list items)
    (h : ConformsGiven r given item value) : ConformsGiven r given (.list item nullable) (.list [value])
  | leaf {given name nullable value spec} (hs : r.lookup name = some spec) (h : spec.Admits value) :
    ConformsGiven r given (.named name nullable) value
  | object {given name nullable declared fields} (hs : r.lookup name = some (.input declared))
    (h : FieldsGiven r given declared fields) :
    ConformsGiven r (.object given) (.named name nullable) (.object fields)

/-- The fields are what the given ones may become as the fields of an input object. -/
inductive FieldsGiven (r : Registry ρ) : Assoc Const → Assoc InputSpec → List (Name × Const) → Prop
  | nil {given} : FieldsGiven r given [] []
  | given {given name input declared origin value fields} (hgiven : Assoc.get? given name = some origin)
    (hvalue : ConformsGiven r origin input.type value) (h : FieldsGiven r given declared fields) :
    FieldsGiven r given ((name, input) :: declared) ((name, value) :: fields)
  | default {given name input declared value fields} (hgiven : Assoc.get? given name = none)
    (hdefault : input.default = some value) (h : FieldsGiven r given declared fields) :
    FieldsGiven r given ((name, input) :: declared) ((name, value) :: fields)
  | absent {given name input declared fields} (hgiven : Assoc.get? given name = none)
    (hdefault : input.default = none) (hnull : input.type.nullable = true)
    (h : FieldsGiven r given declared fields) : FieldsGiven r given ((name, input) :: declared) fields

end

/-- The defaults of the fields are values of their types. -/
def FieldDefaultsConform (r : Registry ρ) (declared : Assoc InputSpec) : Prop :=
  ∀ entry ∈ declared, ∀ value, entry.2.default = some value → r.Conforms entry.2.type value

/-- The declared defaults of all input objects are values of the types of their fields. -/
def DefaultsConform (r : Registry ρ) : Prop :=
  ∀ name declared, r.lookup name = some (.input declared) → r.FieldDefaultsConform declared

/-! ## Coercion -/

variable {r : Registry ρ} {name : Name} {type : TypeRef} {given value : Const}
  {declared : Assoc InputSpec} {fields : List (Name × Const)}

mutual

theorem ConformsGiven.conforms (hd : r.DefaultsConform) :
    ∀ {given type value}, r.ConformsGiven given type value → r.Conforms type value
  | _, _, _, .null h => .null h
  | _, _, _, .list hlength h => .list fun value hm => by
    rw [← List.map_snd_zip hlength.ge] at hm
    obtain ⟨p, hp, rfl⟩ := List.mem_map.1 hm
    exact (h p hp).conforms hd
  | _, _, _, .single _ _ h => .list fun value hm => List.mem_singleton.1 hm ▸ h.conforms hd
  | _, _, _, .leaf hs h => .leaf hs h
  | _, _, _, .object hs h => .object hs (h.conform hd (hd _ _ hs))

theorem FieldsGiven.conform (hd : r.DefaultsConform) :
    ∀ {given declared fields}, r.FieldsGiven given declared fields →
      r.FieldDefaultsConform declared → r.FieldsConform declared fields
  | _, _, _, .nil, _ => .nil
  | _, _, _, .given _ hvalue h, hfields =>
    .present (hvalue.conforms hd) (h.conform hd (List.forall_mem_cons.1 hfields).2)
  | _, _, _, .default _ hdefault h, hfields =>
    .present ((List.forall_mem_cons.1 hfields).1 _ hdefault) (h.conform hd (List.forall_mem_cons.1 hfields).2)
  | _, _, _, .absent _ _ hnull h, hfields =>
    .absent hnull (h.conform hd (List.forall_mem_cons.1 hfields).2)

end

/-- A single value is wrapped once for each list. -/
theorem ConformsGiven.wrap (hnull : given.isNull = false) (hlist : ∀ items, given ≠ .list items)
    (h : ∀ nullable, r.ConformsGiven given (.named type.innermost nullable) value) :
    r.ConformsGiven given type (type.wrap value) := by
  induction type with
  | named name nullable => exact h nullable
  | list item nullable ih => exact .single hnull hlist (ih h)

theorem fieldCoercions_eq (given : Assoc Const) :
    r.fieldCoercions given = given.map fun p => (p.1, r.coerce p.2) := by
  induction given with
  | nil => rfl
  | cons p rest ih => rw [fieldCoercions, ih, List.map_cons]

theorem get?_fieldCoercions (given : Assoc Const) (name : Name) :
    (r.fieldCoercions given).get? name = (given.get? name).map r.coerce := by
  rw [fieldCoercions_eq, Assoc.get?_map]

/-- Fields are coerced in the order of their declaration when each of the given ones is. -/
theorem fieldsGiven_of_coerceDeclared {given : Assoc Const}
    (hgiven : ∀ {name origin}, given.get? name = some origin →
      ∀ {type value}, r.coerce origin type = .ok value → r.ConformsGiven origin type value)
    (h : coerceDeclared (r.fieldCoercions given) declared = .ok fields) :
    r.FieldsGiven given declared fields := by
  induction declared generalizing fields with
  | nil =>
    cases h
    exact .nil
  | cons entry rest ih =>
    obtain ⟨name, input⟩ := entry
    rw [coerceDeclared, get?_fieldCoercions] at h
    cases hg : given.get? name with
    | some origin =>
      rw [hg] at h
      simp only [Option.map_some] at h
      cases hvalue : r.coerce origin input.type with
      | error cause =>
        rw [hvalue] at h
        cases h
      | ok value =>
        rw [hvalue] at h
        obtain ⟨fields, hrest, rfl⟩ := exists_of_bind_pure h
        exact .given hg (hgiven hg hvalue) (ih hrest)
    | none =>
      rw [hg] at h
      simp only [Option.map_none] at h
      cases hd : input.default with
      | some value =>
        rw [hd] at h
        obtain ⟨fields, hrest, rfl⟩ := exists_of_bind_pure h
        exact .default hg hd (ih hrest)
      | none =>
        rw [hd] at h
        by_cases hnull : input.type.nullable = true
        · rw [if_pos hnull] at h
          exact .absent hg hd hnull (ih h)
        · rw [if_neg hnull] at h
          cases h

/-- What is coerced to the type of a name, given that the coercion of declared fields is right. -/
theorem conformsGiven_of_coerceNamed {coercions : Assoc Coercion} (hnull : given.isNull = false)
    (hobject : ∀ {origins}, given = .object origins → ∀ {declared fields},
      coerceDeclared coercions declared = .ok fields → r.FieldsGiven origins declared fields)
    (h : r.coerceNamed name given coercions = .ok value) (nullable : Bool) :
    r.ConformsGiven given (.named name nullable) value := by
  unfold coerceNamed at h
  split at h
  · next s hs =>
    split at h
    · next parsed hparse =>
      cases h
      exact .leaf hs (Scalar.admits_of_parse? hparse)
    · cases h
  · next hs =>
    cases h
    exact .leaf hs hnull
  · next values hs =>
    split at h
    · next chosen hchosen =>
      cases h
      exact .leaf hs (List.contains_iff_mem.1 (Option.filter_eq_some_iff.1 hchosen).2)
    · cases h
  · next declared hs =>
    split at h
    · next origins =>
      unfold coerceFields at h
      split at h
      · cases h
      · obtain ⟨fields, hfields, rfl⟩ := exists_of_bind_pure h
        exact .object hs (hobject rfl hfields)
    · cases h
  · cases h

/-- Constants other than null and lists are coerced to the innermost type. -/
theorem conformsGiven_of_wrap {coercions : Assoc Coercion} (hnull : given.isNull = false)
    (hlist : ∀ items, given ≠ .list items)
    (hobject : ∀ {origins}, given = .object origins → ∀ {declared fields},
      coerceDeclared coercions declared = .ok fields → r.FieldsGiven origins declared fields)
    (h : (do
      let value ← r.coerceNamed type.innermost given coercions
      pure (type.wrap value)) = Except.ok value) : r.ConformsGiven given type value := by
  obtain ⟨inner, hinner, rfl⟩ := exists_of_bind_pure h
  exact .wrap hnull hlist (conformsGiven_of_coerceNamed hnull hobject hinner)

mutual

theorem conformsGiven_of_coerce : ∀ (given : Const) {type : TypeRef} {value : Const},
    r.coerce given type = .ok value → r.ConformsGiven given type value
  | .null, type, value, h => by
    rw [coerce] at h
    by_cases hnull : type.nullable = true
    · rw [if_pos hnull] at h
      cases h
      exact .null hnull
    · rw [if_neg hnull] at h
      cases h
  | .list given, .list item nullable, value, h => by
    rw [coerce] at h
    obtain ⟨values, hvalues, rfl⟩ := exists_of_bind_pure h
    obtain ⟨hlength, hitems⟩ := conformsGiven_of_coerceItems given hvalues
    exact .list hlength hitems
  | .list given, .named name nullable, value, h => by
    obtain ⟨inner, hinner, rfl⟩ := exists_of_bind_pure h
    exact conformsGiven_of_coerceNamed rfl (by simp) hinner nullable
  | .object given, type, value, h =>
    conformsGiven_of_wrap rfl (by simp) (fun ho => by
      cases ho
      exact fieldsGiven_of_coerceDeclared (conformsGiven_of_get? given)) h
  | .number n, type, value, h => conformsGiven_of_wrap rfl (by simp) (by simp) h
  | .string s, type, value, h => conformsGiven_of_wrap rfl (by simp) (by simp) h
  | .bool b, type, value, h => conformsGiven_of_wrap rfl (by simp) (by simp) h
  | .enum name, type, value, h => conformsGiven_of_wrap rfl (by simp) (by simp) h

theorem conformsGiven_of_coerceItems : ∀ (given : List Const) {item : TypeRef} {i : Nat}
    {values : List Const}, r.coerceItems item i given = .ok values →
      given.length = values.length ∧ ∀ p ∈ given.zip values, r.ConformsGiven p.1 item p.2
  | [], item, i, values, h => by
    cases h
    exact ⟨rfl, by simp⟩
  | origin :: rest, item, i, values, h => by
    rw [coerceItems] at h
    cases hvalue : r.coerce origin item with
    | error cause =>
      rw [hvalue] at h
      cases h
    | ok value =>
      rw [hvalue] at h
      obtain ⟨values, hvalues, rfl⟩ := exists_of_bind_pure h
      obtain ⟨hlength, hitems⟩ := conformsGiven_of_coerceItems rest hvalues
      refine ⟨congrArg Nat.succ hlength, fun p hp => ?_⟩
      rcases List.mem_cons.1 hp with rfl | hp
      · exact conformsGiven_of_coerce origin hvalue
      · exact hitems p hp

theorem conformsGiven_of_get? : ∀ (given : List (Name × Const)) {name : Name} {origin : Const},
    Assoc.get? given name = some origin → ∀ {type : TypeRef} {value : Const},
      r.coerce origin type = .ok value → r.ConformsGiven origin type value
  | [], name, origin, hg, type, value, h => by cases hg
  | (key, first) :: rest, name, origin, hg, type, value, h => by
    rw [Assoc.get?] at hg
    split at hg
    · cases hg
      exact conformsGiven_of_coerce first h
    · exact conformsGiven_of_get? rest hg h

end

/-- Coercion gives a value of the type, but that fields which are not given have their declared defaults
as they stand. It gives nothing but values of the type where the declared defaults are values of theirs. -/
theorem coerce_conforms (h : r.coerce given type = .ok value) :
    r.ConformsGiven given type value ∧ (r.DefaultsConform → r.Conforms type value) :=
  have hgiven := conformsGiven_of_coerce given h
  ⟨hgiven, fun hd => hgiven.conforms hd⟩

/-- Fields of which `ids`, a list of integers, has a default. -/
def filterFields (ids : Const) : Assoc InputSpec :=
  [("ids", ⟨none, .list (.named "Int" true) true, some ids⟩),
    ("near", ⟨none, .named "Filter" true, none⟩)]

/-- A registry with one input object. -/
def filtering (ids : Const) : Registry Empty :=
  (initial.insert "Filter" (.input (filterFields ids))).insert "Query" (.object [] [])

theorem eq_filterFields {ids : Const} (h : (filtering ids).lookup name = some (.input declared)) :
    declared = filterFields ids := by
  have hentry : name = "Filter" ∧ declared = filterFields ids := by
    simpa [filtering, initial, insert, Scalar.all, Assoc.insert, TypeSpec.distinct, Scalar.name] using
      Assoc.mem_of_get? h
  exact hentry.2

theorem filtering_defaultsConform : (filtering (.list [.number (.int 5)])).DefaultsConform := by
  intro name declared hs entry hm value hd
  rw [eq_filterFields hs] at hm
  rcases List.mem_cons.1 hm with rfl | hm
  · cases hd
    refine .list fun item hitem => ?_
    rw [List.mem_singleton.1 hitem]
    exact .leaf rfl ⟨5, rfl, by decide⟩
  · rw [List.mem_singleton.1 hm] at hd
    cases hd

/-- A value that stands for a list of one is coerced where it is given, and the default is a list. -/
theorem coerce_conforms_sample :
    (filtering (.list [.number (.int 5)])).coerce
        (.object [("near", .object [("ids", .number (.int 3))])]) (.named "Filter" false) =
      .ok (.object [("ids", .list [.number (.int 5)]),
        ("near", .object [("ids", .list [.number (.int 3)])])]) ∧
    (filtering (.list [.number (.int 5)])).Conforms (.named "Filter" false)
      (.object [("ids", .list [.number (.int 5)]),
        ("near", .object [("ids", .list [.number (.int 3)])])]) := by
  have h : (filtering (.list [.number (.int 5)])).coerce
      (.object [("near", .object [("ids", .number (.int 3))])]) (.named "Filter" false) = .ok _ := rfl
  exact ⟨h, (coerce_conforms h).2 filtering_defaultsConform⟩

/-- A default that is no list is what the field holds, with nothing wrong in the registry. -/
theorem coerce_default_not_conforms :
    (filtering (.number (.int 5))).check = none ∧
    (filtering (.number (.int 5))).isKind TypeSpec.isInput "Filter" = true ∧
    (filtering (.number (.int 5))).coerce (.object []) (.named "Filter" true) =
      .ok (.object [("ids", .number (.int 5))]) ∧
    ¬ (filtering (.number (.int 5))).Conforms (.named "Filter" true)
      (.object [("ids", .number (.int 5))]) := by
  refine ⟨rfl, rfl, rfl, fun h => ?_⟩
  cases h with
  | leaf hs h =>
    cases hs
    exact h
  | object hs h =>
    obtain ⟨input, hm, hvalue⟩ := h.exists_declared (List.mem_singleton_self _)
    rw [eq_filterFields hs] at hm
    rcases List.mem_cons.1 hm with he | hm
    · cases he
      cases hvalue
    · have hnear := List.mem_singleton.1 hm
      simp at hnear

end Registry

end GraphQL
