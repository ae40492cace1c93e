import GraphQL.Proofs.Execution.Accounting
import GraphQL.Proofs.Execution.Numbered
import GraphQL.Proofs.Execution.Ready
import GraphQL.Proofs.Execution.Throughout
import Mathlib.Algebra.GroupWithZero.Nat

/-!
# Responses of requests that run together

Each request has its response, in their order. It has data when the request was ready and all that
are can be afforded together; otherwise no call was made for it. Data that are null come with an
error: only what lies below the root is ever noted (`Reached.belowRoot`), so a root that is null was
nulled by a failure from below.
-/

namespace GraphQL

variable {ρ L W : Type}

/-! ## A root that is null -/

/-- A query that has run and whose data are null has an error. -/
theorem Reached.errors_ne_nil {e : Execution ρ L W} {plan : Plan} {p : Progress L} {w : W}
    (h : Reached e plan ⟨p, w, []⟩) (hd : Plan.Distinct plan.fields) (hp : p.pending = [])
    (hn : p.tree.toJson = .null) : p.errors ≠ [] := by
  obtain ⟨place, types, hk⟩ := h.kept hd
  have hroot : p.tree.at? [] = some ResponseTree.root := rfl
  have hnull : p.tree.toJson.at? [] = some .null := by
    rw [hn]
    rfl
  obtain ⟨slot, hs, hc⟩ := content_null hk hp hroot hnull
  obtain ⟨note, hm, hnulled⟩ := hk.nulls hs hc
  cases note with
  | null frame =>
    -- a null that was given stays where it is
    have hself := ((hk.notes _ hm).given frame rfl).2
    exact absurd (hself.symm.trans hnulled) (h.belowRoot.notes _ hm)
  | failure frame error =>
    exact List.ne_nil_of_mem (List.mem_filterMap.2 ⟨_, hm, rfl⟩)

/-! ## What becomes of a request -/

/-- What a request adds to the complexity of all. -/
inductive Request.Costs (registry : Registry ρ) (config : Config) (r : Request) : Nat → Prop where
  | ready {query : Prepared} : r.Ready registry config query →
    Costs registry config r query.plan.complexity
  | unready : (∀ query, ¬ r.Ready registry config query) → Costs registry config r 0

theorem QueryRun.totalComplexity_eq_sum (runs : List (QueryRun L)) :
    totalComplexity runs = (runs.map complexity).sum := by
  induction runs with
  | nil => rfl
  | cons run rest ih => rw [totalComplexity, ih, List.map_cons, List.sum_cons]

theorem Request.not_ready_of_idle {registry : Registry ρ} {config : Config} {r : Request}
    (h : r.Idle) (query : Prepared) : ¬ r.Ready registry config query := by
  intro hq
  cases (prepare_eq_none.2 h).symm.trans (prepare_eq_some.2 hq)

namespace Multiplex

/-- The complexity of each request on a schema. -/
def costs (registry : Registry ρ) (config : Config) (m : Multiplex) : List Nat :=
  m.requests.map fun r =>
    match r.prepare registry config with
    | .ok (some query) => query.plan.complexity
    | _ => 0

/-- The requests that are ready can be run together. -/
def Affords (registry : Registry ρ) (config : Config) (m : Multiplex) : Prop :=
  ∀ budget, m.maxComplexity = some budget → (costs registry config m).sum ≤ budget

theorem forall₂_costs (registry : Registry ρ) (config : Config) (m : Multiplex) :
    List.Forall₂ (Request.Costs registry config) m.requests (costs registry config m) := by
  apply List.forall₂_map_right_iff.2
  apply List.forall₂_same.2
  intro r _
  split
  · next query hq => exact .ready (Request.prepare_eq_some.1 hq)
  · next hno =>
    apply Request.Costs.unready
    intro query hq
    exact hno query (Request.prepare_eq_some.2 hq)

variable {s : Schema ρ L W} {m : Multiplex} {r : Request} {i : Nat}

/-- What a request is before it begins. -/
theorem receive_cases (s : Schema ρ L W) (r : Request) :
    (∃ query, r.Ready s.registry s.config query ∧ receive s r = .running query r.data .fresh) ∨
    (r.Idle ∧ receive s r = .idle) ∨
    (∃ errors, errors ≠ [] ∧ receive s r = .refused errors ∧ ¬ r.Idle ∧
      ∀ query, ¬ r.Ready s.registry s.config query) := by
  unfold receive
  rcases Request.prepare_cases s.registry s.config r with
    ⟨errors, hne, hp⟩ | ⟨hidle, hp⟩ | ⟨query, hq, hp⟩
  · rw [hp]
    refine .inr (.inr ⟨errors, hne, rfl, fun hidle => ?_, fun query hq => ?_⟩)
    · cases hp.symm.trans (Request.prepare_eq_none.2 hidle)
    · cases hp.symm.trans (Request.prepare_eq_some.2 hq)
  · rw [hp]
    exact .inr (.inl ⟨hidle, rfl⟩)
  · rw [hp]
    exact .inl ⟨query, hq, rfl⟩

theorem complexity_receive (s : Schema ρ L W) (m : Multiplex) :
    QueryRun.totalComplexity (m.requests.map (receive s)) = (costs s.registry s.config m).sum := by
  rw [QueryRun.totalComplexity_eq_sum, List.map_map, costs]
  congr 1
  apply List.map_congr_left
  intro r _
  rw [Function.comp_apply, receive]
  cases r.prepare s.registry s.config with
  | error errors => rfl
  | ok prepared => cases prepared <;> rfl

theorem exceeded_eq_none : Config.exceeded m.maxComplexity
    (QueryRun.totalComplexity (m.requests.map (receive s))) = none ↔
      Affords s.registry s.config m := by
  rw [Config.exceeded_eq_none, complexity_receive]
  rfl

/-- What a request is among the others before they begin. -/
theorem receiveAll_cases (hi : m.requests[i]? = some r) :
    (Affords s.registry s.config m ∧ ∃ query, r.Ready s.registry s.config query ∧
      (m.receiveAll s)[i]? = some (.running query r.data .fresh)) ∨
    (r.Idle ∧ (m.receiveAll s)[i]? = some .idle) ∨
    (∃ errors, errors ≠ [] ∧ (m.receiveAll s)[i]? = some (.refused errors) ∧ ¬ r.Idle ∧
      ¬ ((∃ query, r.Ready s.registry s.config query) ∧ Affords s.registry s.config m)) := by
  have hat : (m.requests.map (receive s))[i]? = some (receive s r) := by
    rw [List.getElem?_map, hi, Option.map_some]
  cases hx : Config.exceeded m.maxComplexity
      (QueryRun.totalComplexity (m.requests.map (receive s))) with
  | none =>
    have hall : m.receiveAll s = m.requests.map (receive s) := by simp only [receiveAll, hx]
    rw [hall, hat]
    rcases receive_cases s r with ⟨query, hq, he⟩ | ⟨hidle, he⟩ | ⟨errors, hne, he, hidle, hr⟩
    · exact .inl ⟨exceeded_eq_none.1 hx, query, hq, congrArg some he⟩
    · exact .inr (.inl ⟨hidle, congrArg some he⟩)
    · refine .inr (.inr ⟨errors, hne, congrArg some he, hidle, fun hready => ?_⟩)
      exact not_exists.2 hr hready.1
  | some limit =>
    have hnot : ¬ Affords s.registry s.config m := fun ha => by
      rw [exceeded_eq_none.2 ha] at hx
      cases hx
    have hall : m.receiveAll s = (m.requests.map (receive s)).map (QueryRun.refuse
        (Refusal.complexity (QueryRun.totalComplexity (m.requests.map (receive s))) limit).toErrors) := by
      simp only [receiveAll, hx]
    rw [hall, List.getElem?_map, hat, Option.map_some]
    rcases receive_cases s r with ⟨query, hq, he⟩ | ⟨hidle, he⟩ | ⟨errors, hne, he, hidle, hr⟩
    · refine .inr (.inr ⟨_, Refusal.toErrors_ne_nil _, by rw [he]; rfl, ?_, fun h => hnot h.2⟩)
      exact fun hidle => Request.not_ready_of_idle hidle query hq
    · exact .inr (.inl ⟨hidle, by rw [he]; rfl⟩)
    · exact .inr (.inr ⟨errors, hne, by rw [he]; rfl, hidle, fun h => hnot h.2⟩)

/-- No calls are made for a request that does not begin. -/
theorem ne_of_mem_calls {run : QueryRun (Placed L)} (hi : (m.receiveAll s.traced)[i]? = some run)
    (hrun : ∀ query data p, run ≠ .running query data p) (fuel : Nat) (w : W) :
    ∀ c ∈ m.calls s fuel w, c.1 ≠ i := by
  have hstays : ∀ w', advance s.traced m (fun e plan => e.begin fuel plan) run w' = (none, run, w') ∧
      run.isPending = false := by
    intro w'
    cases run with
    | running query data p => exact absurd rfl (hrun query data p)
    | _ => exact ⟨rfl, rfl⟩
  have hdone : ∀ w₁ run' w₂, advance s.traced m (fun e plan => e.begin fuel plan) run w₁ =
      (none, run', w₂) → run'.isPending = false := by
    intro w₁ run' w₂ h
    rw [(hstays w₁).1] at h
    cases h
    exact (hstays w₁).2
  obtain ⟨before, mine, after, he, hothers, hmine⟩ := calls_split fuel w hi hdone
  have hnone : mine = [] := by
    rcases hmine with hmine | ⟨_, w₁, -, hmine⟩
    · exact hmine
    · rw [hmine, callsOf, (hstays w₁).1, List.drop_length]
  rw [he, hnone, List.map_nil, List.append_nil]
  exact hothers

/-- No calls are made for a request that is idle, not ready, or too much together with the others. -/
theorem ne_of_mem_calls_of_idle (hi : m.requests[i]? = some r) (h : r.Idle ∨
    ¬ ((∃ query, r.Ready s.registry s.config query) ∧ Affords s.registry s.config m)) (fuel : Nat)
    (w : W) : ∀ c ∈ m.calls s fuel w, c.1 ≠ i := by
  rcases receiveAll_cases (s := s.traced) hi with ⟨ha, query, hq, he⟩ | ⟨-, he⟩ | ⟨errors, -, he, -⟩
  · rcases h with hidle | hnot
    · exact absurd hq (Request.not_ready_of_idle hidle query)
    · exact absurd ⟨⟨query, hq⟩, ha⟩ hnot
  · exact ne_of_mem_calls he (by simp) fuel w
  · exact ne_of_mem_calls he (by simp) fuel w

theorem Came.getElem? {received runs : List (QueryRun L)}
    (h : List.Forall₂ (Came s m) received runs) {run : QueryRun L} (hi : runs[i]? = some run) :
    ∃ r, received[i]? = some r ∧ Came s m r run := by
  obtain ⟨hlt, rfl⟩ := List.getElem?_eq_some_iff.1 hi
  have hlt' : i < received.length := by
    rw [h.length_eq]
    exact hlt
  exact ⟨received[i], List.getElem?_eq_getElem hlt', h.get hlt' hlt⟩

/-- What the response to a request is, by what the request is among the others. -/
theorem response_cases {runs : List (QueryRun L)} (hc : List.Forall₂ (Came s m) (m.receiveAll s) runs)
    {response : Response} (hi : m.requests[i]? = some r)
    (hresponse : (runs.map QueryRun.response)[i]? = some response) :
    (Affords s.registry s.config m ∧ ∃ query p w, r.Ready s.registry s.config query ∧
      .running query r.data p ∈ runs ∧
      Reached (execution s m query r.data) query.plan ⟨p, w, []⟩ ∧ response = p.response) ∨
    (r.Idle ∧ response = .empty) ∨
    (∃ errors, errors ≠ [] ∧ response = .refused errors ∧ ¬ r.Idle ∧
      ¬ ((∃ query, r.Ready s.registry s.config query) ∧ Affords s.registry s.config m)) := by
  rw [List.getElem?_map] at hresponse
  obtain ⟨run, hrun, rfl⟩ := Option.map_eq_some_iff.1 hresponse
  obtain ⟨received, hreceived, hcame⟩ := Came.getElem? hc hrun
  rcases receiveAll_cases (s := s) hi with ⟨ha, query, hq, he⟩ | ⟨hidle, he⟩ | ⟨errors, hne, he, h⟩
  · rw [he] at hreceived
    cases hreceived
    cases hcame with
    | @running _ _ p w hr => exact .inl ⟨ha, query, p, w, hq, List.mem_of_getElem? hrun, hr, rfl⟩
  · rw [he] at hreceived
    cases hreceived
    cases hcame
    exact .inr (.inl ⟨hidle, rfl⟩)
  · rw [he] at hreceived
    cases hreceived
    cases hcame
    exact .inr (.inr ⟨errors, hne, rfl, h⟩)

/-- Each request has its response, in their order. There are data when the request was ready and all
that are can be afforded together. Otherwise no call was made for it, and it is told why, unless its
document had nothing to run. -/
theorem run_responses {s : Schema ρ L W} {m : Multiplex} {fuel : Nat} {w : W}
    {responses : List Response} (h : (m.run s fuel w).1 = .ok responses) :
    m.run s fuel w =
      ((m.run s.traced fuel ⟨w, []⟩).1, (m.run s.traced fuel ⟨w, []⟩).2.world) ∧
    (m.calls s fuel w).map Prod.snd = (m.run s.traced fuel ⟨w, []⟩).2.calls ∧
    responses.length = m.requests.length ∧
    ∃ costs, List.Forall₂ (Request.Costs s.registry s.config) m.requests costs ∧
      ∀ i r response, m.requests[i]? = some r → responses[i]? = some response →
        (response.data.isSome = true ↔ (∃ query, r.Ready s.registry s.config query) ∧
          ∀ budget, m.maxComplexity = some budget → costs.sum ≤ budget) ∧
        (∀ data, response.data = some data → ∃ query p w₁, r.Ready s.registry s.config query ∧
          Reached (execution s m query r.data) query.plan ⟨p, w₁, []⟩ ∧ p.pending = [] ∧
          response = p.response) ∧
        (response.data = none → (∀ c ∈ m.calls s fuel w, c.1 ≠ i) ∧
          (response.errors = [] ↔ r.Idle)) ∧
        (r.Idle → response.data = none) ∧
        (response.data = some .null → response.errors ≠ []) := by
  refine ⟨run_traced s m fuel ⟨w, []⟩, map_snd_calls s m fuel w, ?_⟩
  obtain ⟨runs, w', hsettle, rfl⟩ : ∃ runs w', m.settle s fuel w = (none, runs, w') ∧
      runs.map QueryRun.response = responses := by
    rw [run] at h
    generalize m.settle s fuel w = settled at h ⊢
    obtain ⟨halt, runs, w'⟩ := settled
    cases halt with
    | some halt => cases h
    | none => exact ⟨runs, w', rfl, Except.ok.inj h⟩
  obtain ⟨hcame, hpending⟩ := settle_came hsettle
  refine ⟨?_, costs s.registry s.config m, forall₂_costs s.registry s.config m, ?_⟩
  · rw [List.length_map, ← hcame.length_eq, length_receiveAll]
  intro i r response hi hresponse
  rcases response_cases hcame hi hresponse with
    ⟨ha, query, p, w₁, hq, hm, hr, rfl⟩ | ⟨hidle, rfl⟩ | ⟨errors, hne, rfl, hidle, hnot⟩
  · have hp : p.pending = [] := by
      simpa [QueryRun.isPending, Progress.isPending] using hpending _ hm
    refine ⟨by simpa [Progress.response] using ⟨⟨query, hq⟩, ha⟩, ?_, ?_, ?_, ?_⟩
    · intro data _
      exact ⟨query, p, w₁, hq, hr, hp, rfl⟩
    · rintro ⟨⟩
    · exact fun hidle => absurd hq (Request.not_ready_of_idle hidle query)
    · intro hnull
      have hd := Request.distinct_prepare (Request.prepare_eq_some.2 hq)
      exact hr.errors_ne_nil hd hp (Option.some.inj hnull)
  · have hnot : ¬ ∃ query, r.Ready s.registry s.config query :=
      not_exists.2 (Request.not_ready_of_idle hidle)
    refine ⟨⟨?_, fun h => absurd h.1 hnot⟩, ?_, fun _ => ⟨?_, ?_⟩, fun _ => rfl, ?_⟩
    · rintro ⟨⟩
    · rintro data ⟨⟩
    · exact ne_of_mem_calls_of_idle hi (.inl hidle) fuel w
    · exact ⟨fun _ => hidle, fun _ => rfl⟩
    · rintro ⟨⟩
  · refine ⟨⟨?_, fun h => absurd h hnot⟩, ?_, fun _ => ⟨?_, ?_⟩, fun _ => rfl, ?_⟩
    · rintro ⟨⟩
    · rintro data ⟨⟩
    · exact ne_of_mem_calls_of_idle hi (.inr hnot) fuel w
    · exact ⟨fun h => absurd h hne, fun h => absurd h hidle⟩
    · rintro ⟨⟩

end Multiplex

/-! Requests of which one has its data nulled, one is refused and one has nothing to run. -/

namespace Losses

def assorted : Multiplex :=
  ⟨[.ofQuery "\x7b names \x7d", .ofQuery "\x7b needed \x7d", .ofQuery "\x7b nothing \x7d",
    .ofQuery "fragment F on Query \x7b names \x7d"], [], some 2⟩

/-- Whether there are data in a response, and whether there are errors. -/
def parts (response : Response) : Bool × Bool :=
  (response.data.isSome, !response.errors.isEmpty)

end Losses

theorem Multiplex.run_responses_losses : ∃ responses,
    (Losses.assorted.run Losses.schema 2 ()).1 = .ok responses ∧
    responses.map Losses.parts = [(true, true), (true, true), (false, true), (false, false)] ∧
    (∀ c ∈ Losses.assorted.calls Losses.schema 2 (), c.1 ≠ 2) ∧
    ∃ r, Losses.assorted.requests[3]? = some r ∧ r.Idle := by
  have hparts : ((Losses.assorted.run Losses.schema 2 ()).1.map fun responses =>
      responses.map Losses.parts).toOption =
        some [(true, true), (true, true), (false, true), (false, false)] := by decide +kernel
  cases hrun : (Losses.assorted.run Losses.schema 2 ()).1 with
  | error halt =>
    rw [hrun] at hparts
    cases hparts
  | ok responses =>
    rw [hrun] at hparts
    replace hparts := Option.some.inj hparts
    obtain ⟨-, -, -, costs, -, hall⟩ := run_responses hrun
    have hat : ∀ (i : Nat) parts, [(true, true), (true, true), (false, true), (false, false)][i]? = some parts →
        ∃ response, responses[i]? = some response ∧ Losses.parts response = parts := by
      intro i parts hi
      rw [← hparts, List.getElem?_map] at hi
      exact Option.map_eq_some_iff.1 hi
    obtain ⟨refused, hrefused, hr⟩ := hat 2 _ rfl
    obtain ⟨idle, hidle, hi⟩ := hat 3 _ rfl
    have hnone : ∀ {response : Response} {errors : Bool}, Losses.parts response = (false, errors) →
        response.data = none := fun h => by simpa using (Prod.mk.inj h).1
    refine ⟨responses, rfl, hparts, ?_, _, rfl, ?_⟩
    · exact ((hall 2 _ refused rfl hrefused).2.2.1 (hnone hr)).1
    · refine ((hall 3 _ idle rfl hidle).2.2.1 (hnone hi)).2.1 ?_
      simpa using (Prod.mk.inj hi).2

end GraphQL
