import GraphQL.Proofs.Execution.Calls

/-!
# The calls for each query

The calls of requests that run together, each with the number of the request that it is made for
(`Multiplex.calls`). Without the numbers they are the calls of the run (`Multiplex.map_snd_calls`).
While all queries take a part of their runs, the calls for one of them follow each other
(`Multiplex.callsOfAll_split`), and a wave makes none for a query that has nothing deferred.
-/

namespace GraphQL

variable {ρ L W : Type}

namespace Multiplex

section

variable (s : Schema ρ L W) (m : Multiplex)
  (part : Execution ρ (Placed L) (Traced L W) → Plan → Running (Placed L) (Traced L W) Unit)

/-- The calls made while a query takes a part of its run. -/
def callsOf (run : QueryRun (Placed L)) (w : Traced L W) : List (Call L) :=
  (advance s.traced m part run w).2.2.calls.drop w.calls.length

/-- The calls made while queries take a part of their runs, each with the number of its query. -/
def callsOfAll : Nat → List (QueryRun (Placed L)) → Traced L W → List (Nat × Call L)
  | _, [], _ => []
  | i, run :: rest, w =>
    (callsOf s m part run w).map (fun c => (i, c)) ++
      match advance s.traced m part run w with
      | (none, _, w) => callsOfAll (i + 1) rest w
      | (some _, _, _) => []

/-- The calls made while queries go through waves. -/
def callsOfWaves : Nat → List (QueryRun (Placed L)) → Traced L W → List (Nat × Call L)
  | 0, _, _ => []
  | fuel + 1, runs, w =>
    callsOfAll s m (fun e _ => e.wave) 0 runs w ++
      match advanceAll s.traced m (fun e _ => e.wave) runs w with
      | (none, runs, w) =>
        if runs.any QueryRun.isPending then callsOfWaves fuel runs (s.traced.host.turn w) else []
      | (some _, _, _) => []

/-- The calls made while requests run together, each with the number of the request. -/
def calls (fuel : Nat) (w : W) : List (Nat × Call L) :=
  callsOfAll s m (fun e plan => e.begin fuel plan) 0 (m.receiveAll s.traced) ⟨w, []⟩ ++
    match advanceAll s.traced m (fun e plan => e.begin fuel plan) (m.receiveAll s.traced) ⟨w, []⟩ with
    | (none, runs, w) => callsOfWaves s m fuel runs (s.traced.host.drain w)
    | (some _, _, _) => []

end

variable {s : Schema ρ L W} {m : Multiplex}
  {part : Execution ρ (Placed L) (Traced L W) → Plan → Running (Placed L) (Traced L W) Unit}
  {runs runs' : List (QueryRun (Placed L))} {run : QueryRun (Placed L)} {w w' : Traced L W}

/-! The calls with the numbers of their queries are the calls of the run. -/

/-- Whichever query takes the part of its run, its calls are added to those so far. -/
def PartsAdd (s : Schema ρ L W) (m : Multiplex)
    (part : Execution ρ (Placed L) (Traced L W) → Plan → Running (Placed L) (Traced L W) Unit) : Prop :=
  ∀ query data, Execution.Logs Traced.Adds (fun _ => True)
    (part (execution s.traced m query data) query.plan)

theorem begin_adds (s : Schema ρ L W) (m : Multiplex) (fuel : Nat) :
    PartsAdd s m fun e plan => e.begin fuel plan :=
  fun query _ => Execution.begin_logs s.host.traced_makes (fun _ _ => id) fuel query.plan
    fun _ _ => trivial

theorem wave_adds (s : Schema ρ L W) (m : Multiplex) : PartsAdd s m fun e _ => e.wave :=
  fun _ _ => Execution.wave_logs s.host.traced_makes fun _ _ => id

theorem calls_advance (hp : PartsAdd s m part) (run : QueryRun (Placed L)) (w : Traced L W) :
    (advance s.traced m part run w).2.2.calls = w.calls ++ callsOf s m part run w := by
  have hadds : ∃ calls, (advance s.traced m part run w).2.2.calls = w.calls ++ calls := by
    cases run with
    | running query data p =>
      obtain ⟨r, p', w', calls, hr, hchain, -⟩ := hp query data p w fun _ _ => ⟨trivial, trivial⟩
      rw [advance, hr]
      cases r <;> exact ⟨calls, hchain.calls_eq⟩
    | _ => exact ⟨[], (List.append_nil _).symm⟩
  obtain ⟨calls, hcalls⟩ := hadds
  rw [callsOf, hcalls, List.drop_left]

theorem map_snd_tagged (i : Nat) (calls : List (Call L)) :
    (calls.map fun c => (i, c)).map Prod.snd = calls := by
  rw [List.map_map]
  exact List.map_id calls

theorem calls_advanceAll (hp : PartsAdd s m part) (i : Nat) (runs : List (QueryRun (Placed L)))
    (w : Traced L W) : (advanceAll s.traced m part runs w).2.2.calls =
      w.calls ++ (callsOfAll s m part i runs w).map Prod.snd := by
  induction runs generalizing i w with
  | nil => exact (List.append_nil _).symm
  | cons run rest ih =>
    have hone := calls_advance hp run w
    rw [advanceAll, callsOfAll, List.map_append, map_snd_tagged, ← List.append_assoc, ← hone]
    obtain ⟨halt, run', w'⟩ := advance s.traced m part run w
    cases halt with
    | some halt => exact (List.append_nil _).symm
    | none => exact ih (i + 1) w'

theorem calls_waves (s : Schema ρ L W) (m : Multiplex) (fuel : Nat) (runs : List (QueryRun (Placed L)))
    (w : Traced L W) : (waves s.traced m fuel runs w).2.2.calls =
      w.calls ++ (callsOfWaves s m fuel runs w).map Prod.snd := by
  induction fuel generalizing runs w with
  | zero => exact (List.append_nil _).symm
  | succ fuel ih =>
    have hone := calls_advanceAll (wave_adds s m) 0 runs w
    rw [waves, callsOfWaves, List.map_append, ← List.append_assoc, ← hone]
    obtain ⟨halt, runs', w'⟩ := advanceAll s.traced m (fun e _ => e.wave) runs w
    cases halt with
    | some halt => exact (List.append_nil _).symm
    | none =>
      simp only
      split
      · exact ih runs' _
      · exact (List.append_nil _).symm

theorem map_snd_calls (s : Schema ρ L W) (m : Multiplex) (fuel : Nat) (w : W) :
    (m.calls s fuel w).map Prod.snd = (m.run s.traced fuel ⟨w, []⟩).2.calls := by
  have hone := calls_advanceAll (begin_adds s m fuel) 0 (m.receiveAll s.traced) ⟨w, []⟩
  rw [calls, List.map_append, run, settle]
  rw [List.nil_append] at hone
  rw [← hone]
  obtain ⟨halt, runs', w'⟩ :=
    advanceAll s.traced m (fun e plan => e.begin fuel plan) (m.receiveAll s.traced) ⟨w, []⟩
  cases halt with
  | some halt => exact List.append_nil _
  | none => exact (calls_waves s m fuel runs' (s.traced.host.drain w')).symm

/-! The calls for one query, as all take a part of their runs. -/

theorem le_of_mem_callsOfAll {i : Nat} : ∀ c ∈ callsOfAll s m part i runs w, i ≤ c.1 := by
  induction runs generalizing i w with
  | nil => exact List.forall_mem_nil _
  | cons run rest ih =>
    intro c hm
    rw [callsOfAll] at hm
    rcases List.mem_append.1 hm with hm | hm
    · obtain ⟨_, _, rfl⟩ := List.mem_map.1 hm
      exact Nat.le_refl i
    · split at hm
      · exact Nat.le_of_succ_le (ih c hm)
      · cases hm

/-- The calls for a query follow each other: they are those of its own part, unless something has
stopped everything before. -/
theorem callsOfAll_split (s : Schema ρ L W) (m : Multiplex)
    (part : Execution ρ (Placed L) (Traced L W) → Plan → Running (Placed L) (Traced L W) Unit)
    (w : Traced L W) (i j : Nat) (hj : runs[j]? = some run) : ∃ before mine after,
    callsOfAll s m part i runs w = before ++ mine.map (fun c => (i + j, c)) ++ after ∧
    (∀ c ∈ before ++ after, c.1 ≠ i + j) ∧
    (mine = [] ∨ ∃ runs' w', advanceAll s.traced m part (runs.take j) w = (none, runs', w') ∧
      mine = callsOf s m part run w') := by
  induction runs generalizing i j w with
  | nil => cases hj
  | cons first rest ih =>
    rw [callsOfAll]
    cases j with
    | zero =>
      cases hj
      refine ⟨[], callsOf s m part run w, _, rfl, fun c hm => ?_, .inr ⟨[], w, rfl, rfl⟩⟩
      rw [List.nil_append] at hm
      split at hm
      · exact Nat.ne_of_gt (le_of_mem_callsOfAll c hm)
      · cases hm
    | succ j =>
      have hfirst : ∀ c ∈ (callsOf s m part first w).map fun c => (i, c), c.1 ≠ i + (j + 1) := by
        intro c hm
        obtain ⟨_, _, rfl⟩ := List.mem_map.1 hm
        exact Nat.ne_of_lt (Nat.lt_add_of_pos_right (Nat.succ_pos j))
      cases hadvance : advance s.traced m part first w with
      | mk halt ran =>
        obtain ⟨first', w'⟩ := ran
        cases halt with
        | some halt =>
          refine ⟨(callsOf s m part first w).map fun c => (i, c), [], [], by simp, ?_, .inl rfl⟩
          rw [List.append_nil]
          exact hfirst
        | none =>
          obtain ⟨before, mine, after, he, hothers, hmine⟩ := ih w' (i + 1) j hj
          rw [Nat.add_right_comm] at he hothers
          refine ⟨(callsOf s m part first w).map (fun c => (i, c)) ++ before, mine, after, ?_,
            fun c hm => ?_, hmine.imp_right ?_⟩
          · simp only [he, List.append_assoc]
            rfl
          · rw [List.append_assoc] at hm
            exact (List.mem_append.1 hm).elim (hfirst c) (hothers c)
          · rintro ⟨rest', w'', hall, hmine⟩
            refine ⟨first' :: rest', w'', ?_, hmine⟩
            rw [List.take_succ_cons, advanceAll, hadvance]
            simp only [hall]

theorem getElem?_advanceAll {j : Nat} (h : advanceAll s.traced m part runs w = (none, runs', w'))
    (hj : runs[j]? = some run) : ∃ w₁ run' w₂, advance s.traced m part run w₁ = (none, run', w₂) ∧
      runs'[j]? = some run' := by
  induction runs generalizing j w runs' with
  | nil => cases hj
  | cons first rest ih =>
    rw [advanceAll] at h
    split at h
    · cases h
    · next first' w1 hfirst =>
      cases hrest : advanceAll s.traced m part rest w1 with
      | mk halt ran =>
        obtain ⟨rest', w2⟩ := ran
        rw [hrest] at h
        cases h
        cases j with
        | zero =>
          cases hj
          exact ⟨w, first', w1, hfirst, rfl⟩
        | succ j =>
          obtain ⟨w₁, run', w₂, hrun, hj'⟩ := ih (j := j) hrest hj
          exact ⟨w₁, run', w₂, hrun, hj'⟩

/-- In waves, no calls are made for a query that has nothing deferred. -/
theorem ne_of_mem_callsOfWaves {i : Nat} (hrun : run.isPending = false) (fuel : Nat)
    (hi : runs[i]? = some run) : ∀ c ∈ callsOfWaves s m fuel runs w, c.1 ≠ i := by
  induction fuel generalizing runs w with
  | zero => exact List.forall_mem_nil _
  | succ fuel ih =>
    intro c hm
    rw [callsOfWaves] at hm
    rcases List.mem_append.1 hm with hm | hm
    · obtain ⟨before, mine, after, he, hothers, hmine⟩ :=
        callsOfAll_split s m (fun e _ => e.wave) w 0 i hi
      have hnone : mine = [] := by
        rcases hmine with hmine | ⟨_, w₁, _, hmine⟩
        · exact hmine
        · rw [hmine, callsOf, advance_idle hrun, List.drop_length]
      rw [he, hnone, List.map_nil, List.append_nil] at hm
      rw [Nat.zero_add] at hothers
      exact hothers c hm
    · split at hm
      · next runs' w' hall =>
        split at hm
        · obtain ⟨w₁, run', w₂, hadvance, hi'⟩ := getElem?_advanceAll hall hi
          rw [advance_idle hrun] at hadvance
          cases hadvance
          exact ih hi' c hm
        · cases hm
      · cases hm

/-- The calls for a query follow each other, if it has nothing deferred once it has begun. -/
theorem calls_split (fuel : Nat) (w : W) {i : Nat} (hi : (m.receiveAll s.traced)[i]? = some run)
    (hdone : ∀ w₁ run' w₂, advance s.traced m (fun e plan => e.begin fuel plan) run w₁ =
      (none, run', w₂) → run'.isPending = false) : ∃ before mine after,
    m.calls s fuel w = before ++ mine.map (fun c => (i, c)) ++ after ∧
    (∀ c ∈ before ++ after, c.1 ≠ i) ∧
    (mine = [] ∨ ∃ runs w₁, advanceAll s.traced m (fun e plan => e.begin fuel plan)
        ((m.receiveAll s.traced).take i) ⟨w, []⟩ = (none, runs, w₁) ∧
      mine = callsOf s m (fun e plan => e.begin fuel plan) run w₁) := by
  obtain ⟨before, mine, after, he, hothers, hmine⟩ := callsOfAll_split s m
    (fun e plan => e.begin fuel plan) ⟨w, []⟩ 0 i hi
  rw [Nat.zero_add] at he hothers
  rw [calls, he]
  refine ⟨before, mine, _, List.append_assoc .., fun c hm => ?_, hmine⟩
  rw [← List.append_assoc] at hm
  rcases List.mem_append.1 hm with hm | hm
  · exact hothers c hm
  -- a wave has nothing to do for it
  · split at hm
    · next runs w₁ hall =>
      obtain ⟨_, run', _, hadvance, hi'⟩ := getElem?_advanceAll hall hi
      exact ne_of_mem_callsOfWaves (hdone _ _ _ hadvance) fuel hi' c hm
    · cases hm

end Multiplex

end GraphQL
