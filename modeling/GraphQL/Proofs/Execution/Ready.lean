import GraphQL.Execution.Preparation

/-!
# Which requests can begin

A request is `Ready` when its document can be read, an operation of it is chosen, the variables of
that are coerced, and the plan is built and keeps to the limits. It is `Idle` when there is nothing
to choose from and nothing was asked for by name. Preparing a request finds out which of the two it
is (`Request.prepare_eq_some`, `Request.prepare_eq_none`); of any other it says what is wrong
(`Request.prepare_cases`).
-/

namespace GraphQL

variable {ρ : Type}

/-! ## Conditions -/

/-- The operation that a request asks for: the first one of the name, or the only one when there is
no name. -/
def Document.Chooses (d : Document) : Option Name → Operation → Prop
  | some name, o => ∃ before after, d.operations = before ++ o :: after ∧
      o.name.map Located.node = some name ∧
      ∀ other ∈ before, other.name.map Located.node ≠ some name
  | none, o => d.operations = [o]

/-- The plan keeps to the limits that there are. -/
structure Config.Allows (config : Config) (plan : Plan) : Prop where
  complexity : ∀ limit, config.maxComplexity = some limit → plan.complexity ≤ limit
  depth : ∀ limit, config.maxDepth = some limit → plan.depth ≤ limit

namespace Request

/-- The document of a request. A query that is blank is none. -/
structure Reads (r : Request) (d : Document) : Prop where
  text : ∃ c ∈ r.query.toList, Text.isBlank c = false
  parsed : Document.parse r.query r.filename = .ok d

/-- A request for no operation in particular, of a document that has none. -/
structure Idle (r : Request) : Prop where
  document : ∃ d, r.Reads d ∧ d.operations = []
  unnamed : r.operationName = none

/-- A request that can begin, and what it runs by. -/
inductive Ready (registry : Registry ρ) (config : Config) (r : Request) (query : Prepared) : Prop where
  | intro {d : Document} {o : Operation} : r.Reads d → d.Chooses r.operationName o →
    registry.coerceVariables o.variableDefinitions r.variableValues = .ok query.variableValues →
    Plan.build ⟨registry, d, query.variableValues, config.introspectTypename⟩ o = .ok query.plan →
    config.Allows query.plan → Ready registry config r query

end Request

/-! ## One stage after the other -/

theorem Config.exceeded_eq_none {limit : Option Nat} {found : Nat} :
    exceeded limit found = none ↔ ∀ l, limit = some l → found ≤ l := by
  cases limit with
  | none => simp [exceeded]
  | some l => simp [exceeded, Option.filter]

theorem Config.refusal?_eq_none {config : Config} {plan : Plan} :
    config.refusal? plan = none ↔ config.Allows plan := by
  unfold refusal?
  constructor
  · intro h
    cases hc : exceeded config.maxComplexity plan.complexity with
    | some limit =>
      rw [hc] at h
      cases h
    | none =>
      rw [hc] at h
      exact ⟨exceeded_eq_none.1 hc, exceeded_eq_none.1 (Option.map_eq_none_iff.1 h)⟩
  · intro h
    rw [exceeded_eq_none.2 h.complexity, exceeded_eq_none.2 h.depth]
    rfl

theorem Document.select_eq_some {d : Document} {name : Option Name} {o : Operation} :
    d.select name = .ok (some o) ↔ d.Chooses name o := by
  unfold select Chooses
  cases name with
  | some name =>
    simp only
    cases hf : d.operations.find? fun o => o.name.map Located.node = some name with
    | none =>
      constructor
      · rintro ⟨⟩
      · rintro ⟨before, after, he, hname, -⟩
        have := List.find?_eq_none.1 hf o (by simp [he])
        simp [hname] at this
    | some found =>
      obtain ⟨hname, before, after, he, hbefore⟩ := List.find?_eq_some_iff_append.1 hf
      constructor
      · rintro ⟨⟩
        exact ⟨before, after, he, by simpa using hname, by simpa using hbefore⟩
      · rintro ⟨before', after', he', hname', hbefore'⟩
        have hfound : d.operations.find? (fun o => o.name.map Located.node = some name) = some o :=
          List.find?_eq_some_iff_append.2
            ⟨by simpa using hname', before', after', he', by simpa using hbefore'⟩
        rw [hf] at hfound
        cases hfound
        rfl
  | none =>
    simp only
    split
    · next h => simp [h]
    · next h => simp [h]
    · next hnil hone =>
      constructor
      · rintro ⟨⟩
      · exact fun h => absurd h (hone o)

theorem Document.select_eq_none {d : Document} {name : Option Name} :
    d.select name = .ok none ↔ name = none ∧ d.operations = [] := by
  unfold select
  cases name with
  | some name =>
    simp only
    split <;> simp
  | none =>
    simp only
    split
    · next h => simp [h]
    · next h => simp [h]
    · next hnil _ => simpa using hnil

theorem Refusal.toErrors_ne_nil (refusal : Refusal) : refusal.toErrors ≠ [] := by
  simp [toErrors]

theorem Registry.ne_nil_of_coerceVariables {registry : Registry ρ}
    {definitions : List VariableDefinition} {provided : Variables} {errors : List Error}
    (h : registry.coerceVariables definitions provided = .error errors) : errors ≠ [] := by
  unfold coerceVariables at h
  simp only at h
  split at h
  · cases h
  · next hempty =>
    cases h
    simpa using hempty

theorem Plan.ne_nil_of_build {s : Scope ρ} {o : Operation} {problems : List PlanError}
    (h : build s o = .error problems) : problems ≠ [] := by
  unfold build at h
  split at h
  · cases h
    simp
  · next root _ =>
    split at h
    · cases h
    · next fields problems hne _ =>
      cases h
      rintro rfl
      exact hne rfl

namespace Request

variable {registry : Registry ρ} {config : Config} {r : Request}

theorem document_eq_ok {d : Document} : r.document = .ok d ↔ r.Reads d := by
  have hblank : r.query.toList.all Text.isBlank = false ↔
      ∃ c ∈ r.query.toList, Text.isBlank c = false := by
    simp [List.all_eq_false]
  unfold document
  constructor
  · intro h
    split at h
    · cases h
    · next ht =>
      split at h
      · next hd =>
        cases h
        exact ⟨hblank.1 (by simpa using ht), hd⟩
      · cases h
  · intro h
    rw [if_neg (by simpa using hblank.2 h.text), h.parsed]

theorem ne_nil_of_document {errors : List Error} (h : r.document = .error errors) : errors ≠ [] := by
  unfold document at h
  split at h
  · cases h
    exact Refusal.toErrors_ne_nil _
  · split at h
    · cases h
    · cases h
      simp

theorem prepareOperation_eq_ok {d : Document} {o : Operation} {provided : Variables}
    {query : Prepared} : prepareOperation registry config d o provided = .ok query ↔
      registry.coerceVariables o.variableDefinitions provided = .ok query.variableValues ∧
      Plan.build ⟨registry, d, query.variableValues, config.introspectTypename⟩ o = .ok query.plan ∧
      config.Allows query.plan := by
  unfold prepareOperation
  cases hv : registry.coerceVariables o.variableDefinitions provided with
  | error errors => simp [bind, Except.bind]
  | ok values =>
    simp only [bind, Except.bind, Except.ok.injEq]
    constructor
    · intro h
      split at h
      · cases h
      · next plan hb =>
        split at h
        · cases h
        · next hr =>
          cases h
          exact ⟨rfl, hb, Config.refusal?_eq_none.1 hr⟩
    · rintro ⟨rfl, hb, ha⟩
      rw [hb]
      simp only [Config.refusal?_eq_none.2 ha]

theorem ne_nil_of_prepareOperation {d : Document} {o : Operation} {provided : Variables}
    {errors : List Error} (h : prepareOperation registry config d o provided = .error errors) :
    errors ≠ [] := by
  unfold prepareOperation at h
  cases hv : registry.coerceVariables o.variableDefinitions provided with
  | error errors' =>
    rw [hv] at h
    cases h
    exact Registry.ne_nil_of_coerceVariables hv
  | ok values =>
    rw [hv] at h
    simp only [bind, Except.bind] at h
    split at h
    · next problems hb =>
      cases h
      simpa using Plan.ne_nil_of_build hb
    · split at h
      · cases h
        exact Refusal.toErrors_ne_nil _
      · cases h

/-- Preparing a request reads its document and goes on with the operation that it chooses. -/
theorem prepare_of_reads {d : Document} (h : r.Reads d) : r.prepare registry config =
    match d.select r.operationName with
    | .error refusal => .error refusal.toErrors
    | .ok none => .ok none
    | .ok (some o) => (prepareOperation registry config d o r.variableValues).map some := by
  rw [prepare, document_eq_ok.2 h]
  simp only [bind, Except.bind]
  cases d.select r.operationName with
  | error refusal => rfl
  | ok chosen =>
    cases chosen with
    | none => rfl
    | some o =>
      simp only
      cases prepareOperation registry config d o r.variableValues <;> rfl

/-- What comes of preparing a request. -/
theorem prepare_cases (registry : Registry ρ) (config : Config) (r : Request) :
    (∃ errors, errors ≠ [] ∧ r.prepare registry config = .error errors) ∨
    (r.Idle ∧ r.prepare registry config = .ok none) ∨
    ∃ query, r.Ready registry config query ∧ r.prepare registry config = .ok (some query) := by
  cases hd : r.document with
  | error errors =>
    refine .inl ⟨errors, ne_nil_of_document hd, ?_⟩
    rw [prepare, hd]
    rfl
  | ok d =>
    have hreads : r.Reads d := document_eq_ok.1 hd
    rw [prepare_of_reads hreads]
    cases hchosen : d.select r.operationName with
    | error refusal => exact .inl ⟨refusal.toErrors, refusal.toErrors_ne_nil, rfl⟩
    | ok chosen =>
      cases chosen with
      | none =>
        obtain ⟨hname, hnone⟩ := Document.select_eq_none.1 hchosen
        exact .inr (.inl ⟨⟨⟨d, hreads, hnone⟩, hname⟩, rfl⟩)
      | some o =>
        cases hp : prepareOperation registry config d o r.variableValues with
        | error errors =>
          refine .inl ⟨errors, ne_nil_of_prepareOperation hp, ?_⟩
          simp only [hp]
          rfl
        | ok query =>
          obtain ⟨hv, hb, ha⟩ := prepareOperation_eq_ok.1 hp
          refine .inr (.inr ⟨query, .intro hreads (Document.select_eq_some.1 hchosen) hv hb ha, ?_⟩)
          simp only [hp]
          rfl

theorem prepare_eq_some {query : Prepared} :
    r.prepare registry config = .ok (some query) ↔ r.Ready registry config query := by
  constructor
  · intro h
    rcases prepare_cases registry config r with ⟨errors, -, he⟩ | ⟨-, he⟩ | ⟨found, hfound, he⟩
    · cases he.symm.trans h
    · cases he.symm.trans h
    · cases he.symm.trans h
      exact hfound
  · rintro ⟨hd, ho, hv, hb, ha⟩
    rw [prepare_of_reads hd, Document.select_eq_some.2 ho]
    simp only [prepareOperation_eq_ok.2 ⟨hv, hb, ha⟩]
    rfl

theorem prepare_eq_none : r.prepare registry config = .ok none ↔ r.Idle := by
  constructor
  · intro h
    rcases prepare_cases registry config r with ⟨errors, -, he⟩ | ⟨hidle, -⟩ | ⟨query, -, he⟩
    · cases he.symm.trans h
    · exact hidle
    · cases he.symm.trans h
  · rintro ⟨⟨d, hd, ho⟩, hname⟩
    rw [prepare_of_reads hd, Document.select_eq_none.2 ⟨hname, ho⟩]

/-- What a request runs by has a plan that was built on the registry. -/
theorem build_of_prepare {query : Prepared} (h : r.prepare registry config = .ok (some query)) :
    ∃ (s : Scope ρ) (o : Operation), s.registry = registry ∧ Plan.build s o = .ok query.plan := by
  obtain ⟨-, -, -, hb, -⟩ := prepare_eq_some.1 h
  exact ⟨_, _, rfl, hb⟩

end Request

end GraphQL
