import GraphQL.Execution.Preparation
import GraphQL.Proofs.Coercion.Conforms

/-!
# Coercing a value twice

A value is settled at a type when coercing it gives it back. What coercion gives is settled, provided
that the declared defaults of input fields are (`Registry.settled_of_coerce`). A variable is coerced when
a query is prepared, and once more where it is the argument of a field: the second time does nothing, so
that the field gets what the first time gave, and a variable that was left out is no argument at all.
-/

namespace GraphQL

/-! ## Look-up -/

theorem Assoc.get?_eq_none_iff {α : Type} {m : Assoc α} {key : String} :
    m.get? key = none ↔ key ∉ m.keys := by
  induction m with
  | nil => simp [keys]
  | cons p rest ih =>
    obtain ⟨k, v⟩ := p
    rw [get?, keys, List.map_cons, List.mem_cons, not_or]
    split
    · next h => simp [h]
    · next h =>
      rw [ih, keys]
      exact ⟨fun hm => ⟨Ne.symm h, hm⟩, And.right⟩

namespace Variables

theorem get?_insert (vars : Variables) (name other : Name) (value : Const) :
    (vars.insert name value).get? other = if name = other then some value else vars.get? other := by
  have hsorted : ∀ entries : List (Name × Const), Assoc.get? (insertSorted name value entries) other =
      if name = other then some value else Assoc.get? entries other := by
    intro entries
    induction entries with
    | nil => rfl
    | cons p rest ih =>
      obtain ⟨k, v⟩ := p
      rw [insertSorted]
      split
      · rfl
      · split
        · next hk =>
          subst hk
          rw [Assoc.get?, Assoc.get?]
          split <;> rfl
        · next hk =>
          rw [Assoc.get?, Assoc.get?, ih]
          split
          · next hother => rw [if_neg (fun h => hk (hother.trans h.symm))]
          · rfl
  exact hsorted vars.entries

/-- A variable that is given one value, whenever it is given any, has that value. -/
theorem get?_ofList {pairs : List (Name × Const)} {name : Name} {value : Option Const}
    (hpairs : ∀ c, (name, c) ∈ pairs → value = some c)
    (hvalue : ∀ c, value = some c → (name, c) ∈ pairs) : (ofList pairs).get? name = value := by
  have hfold : ∀ (pairs : List (Name × Const)) (vars : Variables),
      (∀ c, (name, c) ∈ pairs → value = some c) →
      vars.get? name = value ∨ (∀ c, value = some c → (name, c) ∈ pairs) ∧ vars.get? name = none →
      (pairs.foldl (fun vars p => vars.insert p.1 p.2) vars).get? name = value := by
    intro pairs
    induction pairs with
    | nil =>
      rintro vars - (h | ⟨h, hnone⟩)
      · exact h
      · cases value with
        | none => exact hnone
        | some c => cases h c rfl
    | cons p rest ih =>
      obtain ⟨k, v⟩ := p
      intro vars hp h
      refine ih _ (fun c hc => hp c (List.mem_cons_of_mem _ hc)) ?_
      rw [get?_insert]
      by_cases hk : k = name
      · subst hk
        rw [if_pos rfl]
        exact .inl (hp v (List.mem_cons_self ..)).symm
      · rw [if_neg hk]
        refine h.imp_right fun h => ⟨fun c hc => ?_, h.2⟩
        rcases List.mem_cons.1 (h.1 c hc) with he | hm
        · cases he
          exact absurd rfl hk
        · exact hm
  exact hfold pairs empty hpairs (.inr ⟨hvalue, rfl⟩)

end Variables

namespace Registry

variable {ρ : Type}

/-! ## Settled values -/

/-- Coercing the value to the type gives it back. -/
def Settled (r : Registry ρ) (type : TypeRef) (value : Const) : Prop :=
  r.coerce value type = .ok value

/-- Input objects declare no field twice, and the defaults of their fields are settled. -/
structure DefaultsSettled (r : Registry ρ) : Prop where
  distinct : ∀ {name declared}, r.lookup name = some (.input declared) → (Assoc.keys declared).Nodup
  default : ∀ {name declared}, r.lookup name = some (.input declared) →
    ∀ entry ∈ declared, ∀ value, entry.2.default = some value → r.Settled entry.2.type value

end Registry

theorem Scalar.parse?_of_admits {s : Scalar} {value : Const} (h : s.Admits value) :
    s.parse? value = some value := by
  cases s <;> cases value <;> first | exact h.elim | rfl | skip
  next n =>
    obtain ⟨i, hi⟩ := h
    rw [parse?, Number.toInt32?_eq_some_iff.2 hi]
    rfl

namespace Registry

variable {ρ : Type} {r : Registry ρ} {name : Name} {type item : TypeRef} {given value : Const}
  {nullable : Bool} {declared : Assoc InputSpec} {fields : List (Name × Const)}

/-- A value other than null is coerced by the rules of the name. -/
theorem coerce_named (hnull : value.isNull = false)
    (h : ∀ coercions, r.coerceNamed name value coercions = .ok given) :
    r.coerce value (.named name nullable) = .ok given := by
  have hcoerce : ∃ coercions, r.coerce value (.named name nullable) = (do
      let value ← r.coerceNamed name value coercions
      pure ((TypeRef.named name nullable).wrap value)) := by
    cases value with
    | null => cases hnull
    | object fields => exact ⟨r.fieldCoercions fields, rfl⟩
    | _ => exact ⟨[], rfl⟩
  obtain ⟨coercions, hcoerce⟩ := hcoerce
  rw [hcoerce, h coercions]
  rfl

theorem settled_leaf {spec : TypeSpec ρ} (hs : r.lookup name = some spec) (h : spec.Admits value) :
    r.Settled (.named name nullable) value := by
  cases spec with
  | scalar builtin =>
    cases builtin with
    | none =>
      refine coerce_named h fun coercions => ?_
      rw [coerceNamed, hs]
    | some s =>
      have hnull : value.isNull = false := by
        cases value with
        | null => cases s <;> cases h
        | _ => rfl
      refine coerce_named hnull fun coercions => ?_
      simp only [coerceNamed, hs, Scalar.parse?_of_admits h]
  | enum values =>
    cases value with
    | enum chosen =>
      refine coerce_named rfl fun coercions => ?_
      have hchosen : (enumValue? (.enum chosen)).filter values.contains = some chosen :=
        Option.filter_eq_some_iff.2 ⟨rfl, List.contains_iff_mem.2 h⟩
      simp only [coerceNamed, hs, hchosen]
    | _ => exact h.elim
  | _ => exact h.elim

theorem settled_list {values : List Const} (h : ∀ value ∈ values, r.Settled item value) :
    r.Settled (.list item nullable) (.list values) := by
  have hitems : ∀ i, r.coerceItems item i values = .ok values := by
    induction values with
    | nil => exact fun _ => rfl
    | cons value rest ih =>
      obtain ⟨hvalue, hrest⟩ := List.forall_mem_cons.1 h
      intro i
      rw [coerceItems, hvalue, ih hrest]
      rfl
  rw [Settled, coerce, hitems]
  rfl

theorem FieldsGiven.sublist : ∀ {given : Assoc Const} {declared fields},
    r.FieldsGiven given declared fields → (Assoc.keys fields).Sublist (Assoc.keys declared)
  | _, _, _, .nil => .slnil
  | _, _, _, .given _ _ h => h.sublist.cons_cons _
  | _, _, _, .default _ _ h => h.sublist.cons_cons _
  | _, _, _, .absent _ _ _ h => h.sublist.cons _

theorem settled_object (hs : r.lookup name = some (.input declared))
    (hsub : (Assoc.keys fields).Sublist (Assoc.keys declared))
    (h : coerceDeclared (r.fieldCoercions fields) declared = .ok fields) :
    r.Settled (.named name nullable) (.object fields) := by
  have hkeys : (r.fieldCoercions fields).keys = Assoc.keys fields := by
    rw [fieldCoercions_eq, Assoc.keys, List.map_map]
    rfl
  have hdeclared : (r.fieldCoercions fields).keys.find? (fun key => !declared.contains key) = none := by
    rw [hkeys, List.find?_eq_none]
    intro key hkey
    have hsome : declared.get? key ≠ none := fun hn => Assoc.get?_eq_none_iff.1 hn (hsub.subset hkey)
    simpa [Assoc.contains, Option.isSome_iff_ne_none] using hsome
  show (do
    let value ← r.coerceNamed name (.object fields) (r.fieldCoercions fields)
    pure ((TypeRef.named name nullable).wrap value)) = _
  simp only [coerceNamed, hs, coerceFields, hdeclared, h]
  rfl

/-- The first of the fields does not bear on those that are declared after it. -/
theorem get?_of_cons {whole : Assoc Const} {input : InputSpec}
    (hn : (Assoc.keys ((name, input) :: declared)).Nodup)
    (h : ∀ key ∈ Assoc.keys ((name, input) :: declared),
      whole.get? key = Assoc.get? ((name, value) :: fields) key) :
    ∀ key ∈ Assoc.keys declared, whole.get? key = Assoc.get? fields key := by
  intro key hkey
  have hne : name ≠ key := fun he => (List.nodup_cons.1 hn).1 (he ▸ hkey)
  rw [h key (List.mem_cons_of_mem _ hkey), Assoc.get?, if_neg hne]

/-- A field of the result is found again, and settled. -/
theorem coerceDeclared_present {whole : Assoc Const} {input : InputSpec}
    (hget : whole.get? name = some value) (hvalue : r.Settled input.type value)
    (h : coerceDeclared (r.fieldCoercions whole) declared = .ok fields) :
    coerceDeclared (r.fieldCoercions whole) ((name, input) :: declared) =
      .ok ((name, value) :: fields) := by
  have hvalue : r.coerce value input.type = .ok value := hvalue
  simp only [coerceDeclared, get?_fieldCoercions, hget, Option.map_some, hvalue, h]
  rfl

mutual

theorem ConformsGiven.settled (hr : r.DefaultsSettled) :
    ∀ {given type value}, r.ConformsGiven given type value → r.Settled type value
  | _, _, _, .null h => by rw [Settled, coerce, if_pos h]
  | _, _, _, .list hlength h => settled_list fun value hm => by
    rw [← List.map_snd_zip hlength.ge] at hm
    obtain ⟨p, hp, rfl⟩ := List.mem_map.1 hm
    exact (h p hp).settled hr
  | _, _, _, .single _ _ h => settled_list fun value hm => List.mem_singleton.1 hm ▸ h.settled hr
  | _, _, _, .leaf hs h => settled_leaf hs h
  | _, _, _, .object hs h =>
    settled_object hs h.sublist (h.settled hr (hr.distinct hs) (hr.default hs) fun _ _ => rfl)

/-- The fields of a result are coerced to themselves, wherever they stand in it. -/
theorem FieldsGiven.settled (hr : r.DefaultsSettled) : ∀ {given : Assoc Const} {declared fields},
    r.FieldsGiven given declared fields → (Assoc.keys declared).Nodup →
      (∀ entry ∈ declared, ∀ value, entry.2.default = some value → r.Settled entry.2.type value) →
      ∀ {whole : Assoc Const}, (∀ key ∈ Assoc.keys declared, whole.get? key = Assoc.get? fields key) →
        coerceDeclared (r.fieldCoercions whole) declared = .ok fields
  | _, _, _, .nil, _, _, _, _ => rfl
  | _, _, _, .given _ hvalue h, hn, hd, _, hwhole =>
    coerceDeclared_present ((hwhole _ (List.mem_cons_self ..)).trans (if_pos rfl)) (hvalue.settled hr)
      (h.settled hr (List.nodup_cons.1 hn).2 (List.forall_mem_cons.1 hd).2 (get?_of_cons hn hwhole))
  | _, _, _, .default _ hdefault h, hn, hd, _, hwhole =>
    coerceDeclared_present ((hwhole _ (List.mem_cons_self ..)).trans (if_pos rfl))
      ((List.forall_mem_cons.1 hd).1 _ hdefault)
      (h.settled hr (List.nodup_cons.1 hn).2 (List.forall_mem_cons.1 hd).2 (get?_of_cons hn hwhole))
  | _, _, _, .absent _ hdefault hnull h, hn, hd, _, hwhole => by
    have hnone := hwhole _ (List.mem_cons_self ..)
    rw [Assoc.get?_eq_none_iff.2 fun hm => (List.nodup_cons.1 hn).1 (h.sublist.subset hm)] at hnone
    have hrest := h.settled hr (List.nodup_cons.1 hn).2 (List.forall_mem_cons.1 hd).2
      fun key hkey => hwhole key (List.mem_cons_of_mem _ hkey)
    simp only [coerceDeclared, get?_fieldCoercions, hnone, Option.map_none, hdefault, if_pos hnull, hrest]

end

/-- What coercion gives is settled. -/
theorem settled_of_coerce (hr : r.DefaultsSettled) (h : r.coerce given type = .ok value) :
    r.Settled type value :=
  (conformsGiven_of_coerce given h).settled hr

/-! ## Variables -/

section

variable {definitions : List VariableDefinition} {d : VariableDefinition} {provided vars : Variables}

/-- Once all variables are coerced, each has what it came to, or none when it was left out. -/
theorem coerceVariable_of_coerceVariables (h : r.coerceVariables definitions provided = .ok vars)
    (hd : d ∈ definitions) (hone : ∀ d' ∈ definitions, d'.name.node = d.name.node → d' = d) :
    r.coerceVariable provided d = .ok (vars.get? d.name.node) := by
  unfold coerceVariables at h
  simp only at h
  split at h
  · next hempty =>
    cases h
    cases hresult : r.coerceVariable provided d with
    | error e =>
      rw [List.isEmpty_iff, List.filterMap_eq_nil_iff] at hempty
      have hnone := hempty (d, .error e) (List.mem_map.2 ⟨d, hd, by rw [hresult]⟩)
      cases hnone
    | ok value =>
      refine congrArg Except.ok (Variables.get?_ofList ?_ ?_).symm
      · intro c hc
        obtain ⟨⟨d', result⟩, hm, he⟩ := List.mem_filterMap.1 hc
        obtain ⟨d'', hd', hp⟩ := List.mem_map.1 hm
        obtain ⟨rfl, rfl⟩ := Prod.mk.inj hp
        split at he
        · next hpair =>
          obtain ⟨rfl, hresult'⟩ := Prod.mk.inj hpair
          obtain ⟨hname, rfl⟩ := Prod.mk.inj (Option.some.inj he)
          rw [hone _ hd' hname, hresult] at hresult'
          exact Except.ok.inj hresult'
        · cases he
      · rintro c rfl
        exact List.mem_filterMap.2 ⟨(d, .ok (some c)), List.mem_map.2 ⟨d, hd, by rw [hresult]⟩, rfl⟩
  · cases h

/-- What is wrong with a variable is among the errors. -/
theorem mem_errors_of_coerceVariable {e : VariableError} (hd : d ∈ definitions)
    (h : r.coerceVariable provided d = .error e) :
    ∃ errors, r.coerceVariables definitions provided = .error errors ∧ e.toError d.pos ∈ errors := by
  have hm : (d, Except.error e) ∈ definitions.map fun d => (d, r.coerceVariable provided d) :=
    List.mem_map.2 ⟨d, hd, by rw [h]⟩
  unfold coerceVariables
  simp only
  split
  · next hempty =>
    rw [List.isEmpty_iff, List.filterMap_eq_nil_iff] at hempty
    cases hempty _ hm
  · exact ⟨_, rfl, List.mem_filterMap.2 ⟨_, hm, rfl⟩⟩

theorem coerceVariable_of_given (hinput : r.isKind TypeSpec.isInput d.type.node.innermost = true)
    (h : provided.get? d.name.node = some given) : r.coerceVariable provided d =
      match r.coerce given d.type.node with
      | .ok value => .ok (some value)
      | .error cause => .error (.invalid d.name.node d.type.node cause) := by
  unfold coerceVariable
  simp only [if_pos hinput, h]
  cases d.default <;> rfl

theorem coerceVariable_of_absent (hinput : r.isKind TypeSpec.isInput d.type.node.innermost = true)
    (h : provided.get? d.name.node = none) (hdefault : d.default = none)
    (hnull : d.type.node.nullable = true) : r.coerceVariable provided d = .ok none := by
  unfold coerceVariable
  simp only [if_pos hinput, h, hdefault, if_pos hnull]

end

/-! ## Arguments -/

end Registry

/-- The arguments that an error is about. -/
def ArgumentError.names : ArgumentError → List Name
  | unknown _ name _ => [name]
  | invalid _ name _ _ _ => [name]
  | missing _ names _ => names

/-- The field without an argument. -/
def Field.without (f : Field) (name : Name) : Field :=
  { f with arguments := f.arguments.filter fun a => a.name.node ≠ name }

namespace Registry

section

variable {ρ : Type} {r : Registry ρ} {declared : Assoc InputSpec} {value : Const}
  {vars : Variables} {item item' : Field} {field x : Name} {spec : InputSpec}
  {written : Located Literal} {values : List (Name × Const)} {missing : List Name}

/-- The declared arguments come to values, in their order, but for some that are missing. -/
inductive ArgumentsGiven (r : Registry ρ) (vars : Variables) (item : Field) :
    Assoc InputSpec → List (Name × Const) → List Name → Prop
  | nil : ArgumentsGiven r vars item [] [] []
  | given {name spec declared written value values missing}
    (hgiven : givenArgument? vars item name = some written)
    (hvalue : r.coerce (written.node.fill vars) spec.type = .ok value)
    (h : ArgumentsGiven r vars item declared values missing) :
    ArgumentsGiven r vars item ((name, spec) :: declared) ((name, value) :: values) missing
  | default {name spec declared value values missing} (hgiven : givenArgument? vars item name = none)
    (hdefault : spec.default = some value) (h : ArgumentsGiven r vars item declared values missing) :
    ArgumentsGiven r vars item ((name, spec) :: declared) ((name, value) :: values) missing
  | absent {name spec declared values missing} (hgiven : givenArgument? vars item name = none)
    (hdefault : spec.default = none) (h : ArgumentsGiven r vars item declared values missing) :
    ArgumentsGiven r vars item ((name, spec) :: declared) values missing
  | missing {name spec declared values missing} (hgiven : givenArgument? vars item name = none)
    (hdefault : spec.default = none) (h : ArgumentsGiven r vars item declared values missing) :
    ArgumentsGiven r vars item ((name, spec) :: declared) values (name :: missing)

theorem argumentsGiven_of_coerce
    (h : r.coerceDeclaredArguments vars field item declared = .ok (values, missing)) :
    r.ArgumentsGiven vars item declared values missing := by
  induction declared generalizing values missing with
  | nil =>
    cases h
    exact .nil
  | cons entry rest ih =>
    obtain ⟨name, spec⟩ := entry
    rw [coerceDeclaredArguments] at h
    split at h
    · next hgiven =>
      split at h
      · next hvalue =>
        obtain ⟨⟨values, missing⟩, hrest, he⟩ := exists_of_bind_pure h
        cases he
        exact .given hgiven hvalue (ih hrest)
      · cases h
    · next hgiven =>
      cases hrest : r.coerceDeclaredArguments vars field item rest with
      | error e =>
        rw [hrest] at h
        cases h
      | ok result =>
        obtain ⟨values', missing'⟩ := result
        rw [hrest] at h
        cases hdefault : spec.default with
        | some value =>
          rw [hdefault] at h
          cases h
          exact .default hgiven hdefault (ih hrest)
        | none =>
          rw [hdefault] at h
          cases h
          split
          · exact .absent hgiven hdefault (ih hrest)
          · exact .missing hgiven hdefault (ih hrest)

/-- An argument that cannot be coerced is the only reason to stop before all are seen. -/
theorem exists_of_coerceDeclaredArguments_error {e : ArgumentError}
    (h : r.coerceDeclaredArguments vars field item declared = .error e) :
    ∃ name spec written cause, (name, spec) ∈ declared ∧ givenArgument? vars item name = some written ∧
      r.coerce (written.node.fill vars) spec.type = .error cause ∧
      e = .invalid field name written spec.type cause := by
  induction declared with
  | nil => cases h
  | cons entry rest ih =>
    obtain ⟨name, spec⟩ := entry
    have hrest : r.coerceDeclaredArguments vars field item rest = .error e →
        ∃ name' spec' written cause, (name', spec') ∈ (name, spec) :: rest ∧
          givenArgument? vars item name' = some written ∧
          r.coerce (written.node.fill vars) spec'.type = .error cause ∧
          e = .invalid field name' written spec'.type cause := fun h => by
      obtain ⟨name', spec', written, cause, hm, h⟩ := ih h
      exact ⟨name', spec', written, cause, List.mem_cons_of_mem _ hm, h⟩
    rw [coerceDeclaredArguments] at h
    split at h
    · next written hgiven =>
      split at h
      · cases hr : r.coerceDeclaredArguments vars field item rest with
        | error e' =>
          rw [hr] at h
          cases h
          exact hrest hr
        | ok result =>
          rw [hr] at h
          cases h
      · next cause hcause =>
        cases h
        exact ⟨name, spec, written, cause, List.mem_cons_self .., hgiven, hcause, rfl⟩
    · cases hr : r.coerceDeclaredArguments vars field item rest with
      | error e' =>
        rw [hr] at h
        cases h
        exact hrest hr
      | ok result =>
        rw [hr] at h
        cases hdefault : spec.default <;> rw [hdefault] at h <;> cases h

namespace ArgumentsGiven

theorem sublist (h : r.ArgumentsGiven vars item declared values missing) :
    (Assoc.keys values).Sublist (Assoc.keys declared) := by
  induction h with
  | nil => exact .slnil
  | given _ _ _ ih | default _ _ _ ih => exact ih.cons_cons _
  | absent _ _ _ ih | missing _ _ _ ih => exact ih.cons _

/-- Nothing that is given is missing. -/
theorem not_mem_missing (h : r.ArgumentsGiven vars item declared values missing)
    (hx : givenArgument? vars item x = some written) : x ∉ missing := by
  induction h with
  | nil => exact List.not_mem_nil
  | given _ _ _ ih | default _ _ _ ih | absent _ _ _ ih => exact ih
  | missing hgiven _ _ ih =>
    rw [List.mem_cons, not_or]
    refine ⟨?_, ih⟩
    rintro rfl
    rw [hx] at hgiven
    cases hgiven

/-- An argument has the value that was given for it. -/
theorem get?_of_given (h : r.ArgumentsGiven vars item declared values missing)
    (hd : declared.get? x = some spec) (hx : givenArgument? vars item x = some written)
    (hvalue : r.coerce (written.node.fill vars) spec.type = .ok value) :
    Assoc.get? values x = some value := by
  induction h with
  | nil => cases hd
  | given hgiven hvalue' _ ih =>
    rw [Assoc.get?] at hd ⊢
    split
    · next he =>
      subst he
      rw [if_pos rfl] at hd
      cases hd
      rw [hx] at hgiven
      cases hgiven
      rw [hvalue] at hvalue'
      cases hvalue'
      rfl
    · next hne =>
      rw [if_neg hne] at hd
      exact ih hd
  | default hgiven _ _ ih =>
    rw [Assoc.get?] at hd ⊢
    split
    · next he =>
      subst he
      rw [hx] at hgiven
      cases hgiven
    · next hne =>
      rw [if_neg hne] at hd
      exact ih hd
  | absent hgiven _ _ ih | missing hgiven _ _ ih =>
    rw [Assoc.get?] at hd
    split at hd
    · next he =>
      subst he
      rw [hx] at hgiven
      cases hgiven
    · exact ih hd

/-- An argument that is not given has its default, if it has one. -/
theorem get?_of_absent (h : r.ArgumentsGiven vars item declared values missing)
    (hn : (Assoc.keys declared).Nodup) (hd : declared.get? x = some spec)
    (hx : givenArgument? vars item x = none) : Assoc.get? values x = spec.default := by
  induction h with
  | nil => cases hd
  | given hgiven _ _ ih =>
    rw [Assoc.get?] at hd ⊢
    split
    · next he =>
      subst he
      rw [hx] at hgiven
      cases hgiven
    · next hne =>
      rw [if_neg hne] at hd
      exact ih (List.nodup_cons.1 hn).2 hd
  | default _ hdefault _ ih =>
    rw [Assoc.get?] at hd ⊢
    split
    · next he =>
      rw [if_pos he] at hd
      cases hd
      exact hdefault.symm
    · next hne =>
      rw [if_neg hne] at hd
      exact ih (List.nodup_cons.1 hn).2 hd
  | absent _ hdefault h ih | missing _ hdefault h ih =>
    rw [Assoc.get?] at hd
    split at hd
    · next he =>
      subst he
      cases hd
      rw [hdefault]
      exact Assoc.get?_eq_none_iff.2 fun hm => (List.nodup_cons.1 hn).1 (h.sublist.subset hm)
    · exact ih (List.nodup_cons.1 hn).2 hd

end ArgumentsGiven

/-- Only what is given for its arguments matters of a field. -/
theorem coerceDeclaredArguments_congr (declared : Assoc InputSpec)
    (h : ∀ name, givenArgument? vars item name = givenArgument? vars item' name) :
    r.coerceDeclaredArguments vars field item declared =
      r.coerceDeclaredArguments vars field item' declared := by
  induction declared with
  | nil => rfl
  | cons entry rest ih =>
    obtain ⟨name, spec⟩ := entry
    rw [coerceDeclaredArguments, coerceDeclaredArguments, h, ih]

/-- An argument that counts as nothing may as well be left out. -/
theorem coerceArguments_without (hd : declared.get? x = some spec)
    (hx : givenArgument? vars item x = none) : r.coerceArguments vars field declared item =
      r.coerceArguments vars field declared (item.without x) := by
  have hgiven : ∀ name, givenArgument? vars item name = givenArgument? vars (item.without x) name := by
    intro name
    have hfind : Field.argument? (item.without x) name =
        if name = x then none else Field.argument? item name := by
      unfold Field.argument? Field.without Argument.find?
      rw [List.find?_filter]
      split
      · next he =>
        subst he
        rw [List.find?_eq_none.2 (by simp)]
        rfl
      · next hne =>
        congr 2
        funext a
        by_cases ha : a.name.node = name <;> simp [ha, hne]
    rw [givenArgument?, givenArgument?, hfind]
    split
    · next he =>
      subst he
      exact hx
    · rfl
  have hunknown : (item.without x).arguments.find? (fun a => !declared.contains a.name.node) =
      item.arguments.find? fun a => !declared.contains a.name.node := by
    unfold Field.without
    rw [List.find?_filter]
    congr 1
    funext a
    by_cases ha : a.name.node = x
    · rw [ha]
      simp [Assoc.contains, hd]
    · simp [ha]
  unfold coerceArguments
  rw [hunknown, coerceDeclaredArguments_congr declared hgiven]
  rfl

/-- What is wrong with the arguments is never one that can be coerced. -/
theorem not_mem_names_of_given {e : ArgumentError} (hn : (Assoc.keys declared).Nodup)
    (hd : declared.get? x = some spec) (hx : givenArgument? vars item x = some written)
    (hvalue : r.coerce (written.node.fill vars) spec.type = .ok value)
    (h : r.coerceArguments vars field declared item = .error e) : x ∉ e.names := by
  unfold coerceArguments at h
  split at h
  · next a hu =>
    cases h
    have hfound := List.find?_some hu
    rw [ArgumentError.names, List.mem_singleton]
    rintro rfl
    simp [Assoc.contains, hd] at hfound
  · split at h
    · next hc =>
      cases h
      obtain ⟨name, spec', written', cause, hm, hgiven, hcause, rfl⟩ :=
        exists_of_coerceDeclaredArguments_error hc
      rw [ArgumentError.names, List.mem_singleton]
      rintro rfl
      rw [Assoc.get?_of_mem hn hm] at hd
      cases hd
      rw [hx] at hgiven
      cases hgiven
      rw [hvalue] at hcause
      cases hcause
    · cases h
    · cases h
      exact (argumentsGiven_of_coerce ‹_›).not_mem_missing hx

theorem argumentsGiven_of_coerceArguments {arguments : Assoc Const}
    (h : r.coerceArguments vars field declared item = .ok arguments) :
    r.ArgumentsGiven vars item declared arguments [] := by
  unfold coerceArguments at h
  split at h
  · cases h
  · split at h
    · cases h
    · next hc =>
      cases h
      exact argumentsGiven_of_coerce hc
    · cases h

end

/-! ## Arguments that are variables -/

/-- An argument of a field is the variable of an operation that has its type and no default; no
other variable has its name, and no other argument that of the argument. -/
structure ArgumentIsVariable (o : Operation) (d : VariableDefinition) (declared : Assoc InputSpec)
    (item : Field) (x : Name) (spec : InputSpec) : Prop where
  defined : d ∈ o.variableDefinitions
  only : ∀ d' ∈ o.variableDefinitions, d'.name.node = d.name.node → d' = d
  noDefault : d.default = none
  distinct : (Assoc.keys declared).Nodup
  declared : declared.get? x = some spec
  type : spec.type = d.type.node
  written : ∃ pos, item.argument? x = some ⟨pos, .variable d.name.node⟩

section

variable {ρ : Type} {r : Registry ρ} {o : Operation} {d : VariableDefinition} {item : Field}
  {declared : Assoc InputSpec} {x : Name} {spec : InputSpec} {value : Const}
  {vars : Variables}

theorem ArgumentIsVariable.given (h : ArgumentIsVariable o d declared item x spec)
    (hvars : vars.get? d.name.node = some value) :
    ∃ written, givenArgument? vars item x = some written ∧ written.node.fill vars = value := by
  obtain ⟨pos, hwritten⟩ := h.written
  refine ⟨⟨pos, .variable d.name.node⟩, ?_, ?_⟩
  · rw [givenArgument?, hwritten, Option.filter_some]
    simp only [Variables.contains, hvars, Option.isSome_some, if_pos]
  · show (vars.get? d.name.node).getD .null = value
    rw [hvars]
    rfl

theorem ArgumentIsVariable.absent (h : ArgumentIsVariable o d declared item x spec)
    (hvars : vars.get? d.name.node = none) : givenArgument? vars item x = none := by
  obtain ⟨pos, hwritten⟩ := h.written
  rw [givenArgument?, hwritten, Option.filter_some]
  simp [Variables.contains, hvars]

/-- Going through a variable changes nothing. What a type makes of a value it makes of itself, and
null of null where it may be. An argument that is a variable of its type comes to what the type
makes of the value that the request gives: when there is no such thing the query is refused, and
else the argument has it and is not what may be wrong with the arguments. When the request gives no
value, and may do so, the argument may as well not be written. -/
theorem coerce_settles (hr : r.DefaultsSettled) :
    (∀ type given value, r.coerce given type = .ok value → r.coerce value type = .ok value) ∧
    (∀ type : TypeRef, type.nullable = true → r.coerce .null type = .ok .null) ∧
    ∀ o d declared item x spec, ArgumentIsVariable o d declared item x spec →
      r.isKind TypeSpec.isInput d.type.node.innermost = true → ∀ provided,
      (∀ given cause, provided.get? d.name.node = some given →
        r.coerce given d.type.node = .error cause → ∃ errors,
          (VariableError.invalid d.name.node d.type.node cause).toError d.pos ∈ errors ∧
          ∀ config doc, Request.prepareOperation r config doc o provided = .error errors) ∧
      (∀ given value, provided.get? d.name.node = some given →
        r.coerce given d.type.node = .ok value →
          r.coerceVariable provided d = .ok (some value) ∧
          ∀ vars field, r.coerceVariables o.variableDefinitions provided = .ok vars →
            (∀ arguments, r.coerceArguments vars field declared item = .ok arguments →
              arguments.get? x = some value) ∧
            ∀ e, r.coerceArguments vars field declared item = .error e → x ∉ e.names) ∧
      (provided.get? d.name.node = none → d.type.node.nullable = true →
        r.coerceVariable provided d = .ok none ∧
        ∀ vars field, r.coerceVariables o.variableDefinitions provided = .ok vars →
          r.coerceArguments vars field declared item =
            r.coerceArguments vars field declared (item.without x) ∧
          ∀ arguments, r.coerceArguments vars field declared item = .ok arguments →
            arguments.get? x = spec.default) := by
  refine ⟨fun _ _ _ => settled_of_coerce hr, fun _ hnull => by rw [coerce, if_pos hnull], ?_⟩
  intro o d declared item x spec hx hinput provided
  have hvars : ∀ {result vars}, r.coerceVariable provided d = .ok result →
      r.coerceVariables o.variableDefinitions provided = .ok vars →
        vars.get? d.name.node = result := fun hresult h => by
    have := coerceVariable_of_coerceVariables h hx.defined hx.only
    rw [hresult] at this
    exact (Except.ok.inj this).symm
  refine ⟨?_, ?_, ?_⟩
  · intro given cause hgiven hcause
    have hvariable := coerceVariable_of_given hinput hgiven
    rw [hcause] at hvariable
    obtain ⟨errors, herrors, hmem⟩ := mem_errors_of_coerceVariable hx.defined hvariable
    refine ⟨errors, hmem, fun config doc => ?_⟩
    rw [Request.prepareOperation, herrors]
    rfl
  · intro given value hgiven hvalue
    have hvariable := coerceVariable_of_given hinput hgiven
    rw [hvalue] at hvariable
    refine ⟨hvariable, fun vars field h => ?_⟩
    obtain ⟨written, hwritten, hfill⟩ := hx.given (hvars hvariable h)
    have hagain : r.coerce (written.node.fill vars) spec.type = .ok value := by
      rw [hfill, hx.type]
      exact settled_of_coerce hr hvalue
    exact ⟨fun arguments ha =>
        (argumentsGiven_of_coerceArguments ha).get?_of_given hx.declared hwritten hagain,
      fun e => not_mem_names_of_given hx.distinct hx.declared hwritten hagain⟩
  · intro hnone hnull
    have hvariable := coerceVariable_of_absent hinput hnone hx.noDefault hnull
    refine ⟨hvariable, fun vars field h => ?_⟩
    have habsent := hx.absent (hvars hvariable h)
    exact ⟨coerceArguments_without hx.declared habsent, fun arguments ha =>
      (argumentsGiven_of_coerceArguments ha).get?_of_absent hx.distinct hx.declared habsent⟩

end

/-- `$near`, of the type `Filter`. -/
def nearVariable : VariableDefinition :=
  ⟨⟨1, 7⟩, ⟨⟨1, 7⟩, "near"⟩, ⟨⟨1, 14⟩, .named "Filter" true⟩, none, []⟩

/-- `found(near: $near)` -/
def foundField : Field :=
  ⟨⟨1, 24⟩, none, ⟨⟨1, 24⟩, "found"⟩, [⟨⟨⟨1, 30⟩, "near"⟩, ⟨⟨1, 36⟩, .variable "near"⟩⟩], [], ⟨⟨1, 43⟩, []⟩⟩

/-- `query($near: Filter) \x7bfound(near: $near)\x7d` -/
def foundOperation : Operation :=
  ⟨⟨1, 1⟩, .query, none, [nearVariable], [], ⟨⟨1, 22⟩, [.field foundField]⟩⟩

theorem filtering_defaultsSettled : (filtering (.list [.number (.int 5)])).DefaultsSettled where
  distinct hs := by
    rw [eq_filterFields hs]
    exact (show (["ids", "near"] : List String).Nodup by decide)
  default hs := by
    rw [eq_filterFields hs]
    intro entry hm value hd
    rcases List.mem_cons.1 hm with rfl | hm
    · cases hd
      rfl
    · rw [List.mem_singleton.1 hm] at hd
      cases hd

def nearInput : InputSpec :=
  ⟨none, .named "Filter" true, none⟩

theorem argumentIsVariable_near : ArgumentIsVariable foundOperation nearVariable
    [("near", nearInput)] foundField "near" nearInput where
  defined := List.mem_singleton_self _
  only _ hd _ := List.mem_singleton.1 hd
  noDefault := rfl
  distinct := List.nodup_singleton _
  declared := rfl
  type := rfl
  written := ⟨⟨1, 36⟩, rfl⟩

/-- An integer given in place of a list is made a list where the variable is coerced, and the argument
has that list; what is no list of integers is refused. -/
theorem coerce_settles_near :
    let r := filtering (.list [.number (.int 5)])
    let provided := Variables.empty.insert "near" (.object [("ids", .number (.int 3))])
    (∃ vars, r.coerceVariables [nearVariable] provided = .ok vars ∧
      ∀ arguments, r.coerceArguments vars "found" [("near", nearInput)] foundField = .ok arguments →
        arguments.get? "near" = some (.object [("ids", .list [.number (.int 3)])])) ∧
    ∃ errors, ∀ config doc, Request.prepareOperation r config doc foundOperation
      (Variables.empty.insert "near" (.string "all")) = .error errors := by
  obtain ⟨_, _, h⟩ := coerce_settles filtering_defaultsSettled
  have hnear := h _ _ _ _ _ _ argumentIsVariable_near rfl
  obtain ⟨_, hgiven⟩ := (hnear (Variables.empty.insert "near" (.object [("ids", .number (.int 3))]))).2.1
    _ (.object [("ids", .list [.number (.int 3)])]) rfl rfl
  refine ⟨⟨_, rfl, (hgiven _ "found" rfl).1⟩, ?_⟩
  obtain ⟨errors, _, herrors⟩ := (hnear (Variables.empty.insert "near" (.string "all"))).1 _ _ rfl rfl
  exact ⟨errors, herrors⟩

end Registry

end GraphQL
