import GraphQL.Proofs.Execution.Waves
import Mathlib.Algebra.Order.BigOperators.Group.List
import Mathlib.Algebra.Order.Group.Nat

/-!
# The data of requests

Requests that run together share a world, and the waves of one come between those of another. With
a host that answers as a function of what it is given that makes no difference: the data of each are
those of direct evaluation (`Multiplex.run_data`).
-/

namespace GraphQL.Multiplex

variable {ρ L W : Type} {s : Schema ρ L W} {m : Multiplex} {a : Answers ρ L} {g : Ledger L W}
  {w w' : W} {run : QueryRun L} {runs : List (QueryRun L)} {fuel : Nat}

/-- The data of a request by direct evaluation, if it gets to run. -/
def direct (s : Schema ρ L W) (m : Multiplex) (a : Answers ρ L) : QueryRun L → Option Json
  | .running query data _ => some ((execution s m query data).evaluate a query.plan)
  | _ => none

/-- How many lazies direct evaluation forces for a request. -/
def lazies (s : Schema ρ L W) (m : Multiplex) (a : Answers ρ L) : QueryRun L → Nat
  | .running query data _ => (execution s m query data).lazies a query.plan
  | _ => 0

/-- How many lazies there are left to force for a request that has begun. -/
def load (s : Schema ρ L W) (m : Multiplex) (a : Answers ρ L) : QueryRun L → Nat
  | .running query data p =>
    (p.pending.map fun d => ((Task.ofPending d).verdict (execution s m query data) a).lazies).sum
  | _ => 0

/-- A request that has begun is on its way to the data of direct evaluation. -/
def OnCourse (s : Schema ρ L W) (m : Multiplex) (a : Answers ρ L) (g : Ledger L W) (w : W) :
    QueryRun L → Prop
  | .running query data p => ∃ v,
    (⟨p, w, []⟩ : Machine L W).Faithful (execution s m query data) a g v ∧
      (v ResponseTree.root).getD .null = (execution s m query data).evaluate a query.plan
  | _ => True

theorem load_eq (query : Prepared) (data : Data) (p : Progress L) (w : W) :
    load s m a (.running query data p) =
      (⟨p, w, []⟩ : Machine L W).potential (execution s m query data) a :=
  (Nat.zero_add _).symm

theorem OnCourse.grows (h : OnCourse s m a g w run) (hg : g.Grows w w') :
    OnCourse s m a g w' run := by
  cases run with
  | running query data p =>
    obtain ⟨v, hf, hv⟩ := h
    exact ⟨v, hf.of_tree (hf.sound.of_perm rfl (.refl _)) rfl hg.good fun _ ht => hf.task hg ht, hv⟩
  | _ => trivial

/-- A request from which nothing is left to force has nothing aside. -/
theorem OnCourse.load_pos (hp : run.isPending = true) : 0 < load s m a run := by
  cases run with
  | running query data p =>
    cases hq : p.pending with
    | nil => simp [QueryRun.isPending, Progress.isPending, hq] at hp
    | cons d rest =>
      have := Task.one_le_lazies (e := execution s m query data) (a := a) d.frame d.lazy
      rw [load, hq, List.map_cons, List.sum_cons]
      exact Nat.lt_of_lt_of_le this (Nat.le_add_right ..)
  | _ => cases hp

theorem OnCourse.response (h : OnCourse s m a g w run) (hp : run.isPending = false) :
    run.response.data = direct s m a run := by
  cases run with
  | running query data p =>
    obtain ⟨v, hf, hv⟩ := h
    have hnone : p.pending = [] := by simpa [QueryRun.isPending, Progress.isPending] using hp
    exact congrArg some ((hf.toJson_eq hnone).trans hv)
  | _ => rfl

/-- A part of the run of each request keeps what direct evaluation makes of it, and bounds what is
left to force. -/
def Keeps (s : Schema ρ L W) (m : Multiplex) (a : Answers ρ L) (before : QueryRun L → Nat)
    (k : Nat) (run run' : QueryRun L) : Prop :=
  direct s m a run' = direct s m a run ∧ load s m a run' ≤ before run - k

theorem Keeps.map_direct {before : QueryRun L → Nat} {k : Nat} {runs' : List (QueryRun L)}
    (h : List.Forall₂ (Keeps s m a before k) runs runs') :
    runs'.map (direct s m a) = runs.map (direct s m a) := by
  induction h with
  | nil => rfl
  | cons hr _ ih => rw [List.map_cons, List.map_cons, hr.1, ih]

theorem Keeps.sum_load {before : QueryRun L → Nat} {k : Nat} {runs' : List (QueryRun L)}
    (h : List.Forall₂ (Keeps s m a before k) runs runs') :
    (runs'.map (load s m a)).sum ≤ (runs.map before).sum - k := by
  induction h with
  | nil => exact Nat.zero_le _
  | cons hr _ ih =>
    have := hr.2
    simp only [List.map_cons, List.sum_cons]
    omega

theorem begin_onCourse (hd : s.host.Determined s.registry a g) (hg : g.good w) (hrun : Fresh run)
    (hle : lazies s m a run ≤ fuel) : ∃ run' w',
      advance s m (fun e plan => e.begin fuel plan) run w = (none, run', w') ∧ g.Grows w w' ∧
        OnCourse s m a g w' run' ∧ Keeps s m a (lazies s m a) 0 run run' := by
  cases run with
  | running query data p =>
    cases hrun query data p rfl
    obtain ⟨p', w', v, hr, hf, hv, hg', hle'⟩ :=
      Execution.begin_ok (e := execution s m query data) hd hg hle
    refine ⟨.running query data p', w', ?_, hg', ⟨v, hf, hv⟩, rfl, ?_⟩
    · rw [advance, hr]
    · exact (load_eq query data p' w').symm ▸ hle'
  | _ => exact ⟨_, w, rfl, .refl hg, trivial, rfl, Nat.le_refl _⟩

theorem wave_onCourse (hd : s.host.Determined s.registry a g) (hg : g.good w)
    (h : OnCourse s m a g w run) : ∃ run' w',
      advance s m (fun e _ => e.wave) run w = (none, run', w') ∧ g.Grows w w' ∧
        OnCourse s m a g w' run' ∧ Keeps s m a (load s m a) 1 run run' := by
  cases run with
  | running query data p =>
    obtain ⟨v, hf, hv⟩ := h
    obtain ⟨p', w', hr, hsteps, hle⟩ := Execution.wave_ok hd hf
    obtain ⟨v', hf', hroot, hg', -⟩ := Steps.faithful hd hf hsteps
    refine ⟨.running query data p', w', ?_, hg', ⟨v', hf', by rw [hroot, hv]⟩, rfl, ?_⟩
    · rw [advance, hr]
    · rw [load_eq query data p' w', load_eq query data p w]
      cases hq : p.pending with
      | nil =>
        have hzero : (⟨p, w, []⟩ : Machine L W).potential (execution s m query data) a = 0 := by
          simp [Machine.potential, hq]
        omega
      | cons d rest =>
        rw [hq, List.length_cons] at hle
        omega
  | _ => exact ⟨_, w, rfl, .refl hg, trivial, rfl, Nat.zero_le _⟩

/-- All requests take a part of their runs, if each can in any world that comes later. -/
theorem advanceAll_ok {part : Execution ρ L W → Plan → Running L W Unit}
    {P Q : W → QueryRun L → Prop} {T : QueryRun L → QueryRun L → Prop}
    (hP : ∀ {w w' : W} {run}, g.Grows w w' → P w run → P w' run)
    (hQ : ∀ {w w' : W} {run}, g.Grows w w' → Q w run → Q w' run)
    (hadvance : ∀ {w run}, g.good w → P w run → ∃ run' w',
      advance s m part run w = (none, run', w') ∧ g.Grows w w' ∧ Q w' run' ∧ T run run')
    (hg : g.good w) (hruns : ∀ run ∈ runs, P w run) : ∃ runs' w',
      advanceAll s m part runs w = (none, runs', w') ∧ g.Grows w w' ∧ (∀ run ∈ runs', Q w' run) ∧
        List.Forall₂ T runs runs' := by
  induction runs generalizing w with
  | nil => exact ⟨[], w, rfl, .refl hg, nofun, .nil⟩
  | cons run rest ih =>
    obtain ⟨run', w1, hr, hg1, hq, ht⟩ := hadvance hg (hruns run (List.mem_cons_self ..))
    obtain ⟨rest', w2, hrs, hg2, hqs, hts⟩ :=
      ih hg1.good fun run hm => hP hg1 (hruns run (List.mem_cons_of_mem _ hm))
    refine ⟨run' :: rest', w2, ?_, hg1.trans hg2, ?_, .cons ht hts⟩
    · rw [advanceAll, hr]
      simp only [hrs]
    · intro run hm
      rcases List.mem_cons.1 hm with rfl | hm
      · exact hQ hg2 hq
      · exact hqs run hm

/-- The waves come to an end, when there is fuel for more of them than there is to force. -/
theorem waves_ok (hd : s.host.Determined s.registry a g) (hg : g.good w)
    (hruns : ∀ run ∈ runs, OnCourse s m a g w run)
    (hlt : (runs.map (load s m a)).sum < fuel) : ∃ runs' w',
      waves s m fuel runs w = (none, runs', w') ∧
        (∀ run ∈ runs', run.response.data = direct s m a run) ∧
          runs'.map (direct s m a) = runs.map (direct s m a) := by
  induction fuel generalizing runs w with
  | zero => exact absurd hlt (Nat.not_lt_zero _)
  | succ fuel ih =>
    obtain ⟨runs1, w1, hr, hg1, hruns1, hkeeps⟩ := advanceAll_ok (s := s) (m := m)
      (P := OnCourse s m a g) (fun hg h => h.grows hg) (fun hg h => h.grows hg)
      (fun hg h => wave_onCourse hd hg h) hg hruns
    have hload := Keeps.sum_load hkeeps
    rw [waves, hr]
    simp only
    cases hany : runs1.any QueryRun.isPending with
    | true =>
      obtain ⟨run, hm, hp⟩ := List.any_eq_true.1 hany
      have hpos : 0 < load s m a run := OnCourse.load_pos hp
      have hmem := List.single_le_sum (fun _ _ => Nat.zero_le _) _
        (List.mem_map_of_mem (f := load s m a) hm)
      have hg2 := hd.turn hg1.good
      obtain ⟨runs2, w2, hr2, hdata, hmap⟩ :=
        ih hg2.good (fun run hm => (hruns1 run hm).grows hg2) (by omega)
      exact ⟨runs2, w2, hr2, hdata, hmap.trans (Keeps.map_direct hkeeps)⟩
    | false =>
      refine ⟨runs1, w1, rfl, fun run hm => (hruns1 run hm).response ?_, Keeps.map_direct hkeeps⟩
      simpa using List.any_eq_false.1 hany run hm

theorem settle_ok (hd : s.host.Determined s.registry a g) (hg : g.good w)
    (hlt : ((m.receiveAll s).map (lazies s m a)).sum < fuel) : ∃ runs w',
      m.settle s fuel w = (none, runs, w') ∧
        runs.map (fun run => run.response.data) = (m.receiveAll s).map (direct s m a) := by
  have hP : ∀ run ∈ m.receiveAll s, Fresh run ∧ lazies s m a run ≤ fuel := fun run hm => by
    have := List.single_le_sum (fun _ _ => Nat.zero_le _) _
      (List.mem_map_of_mem (f := lazies s m a) hm)
    exact ⟨fresh_receiveAll s m run hm, by omega⟩
  obtain ⟨runs1, w1, hr, hg1, hruns1, hkeeps⟩ := advanceAll_ok (s := s) (m := m)
    (P := fun _ run => Fresh run ∧ lazies s m a run ≤ fuel) (fun _ h => h) (fun hg h => h.grows hg)
    (fun hg h => begin_onCourse hd hg h.1 h.2) hg hP
  have hload := Keeps.sum_load hkeeps
  have hg2 := hd.drain hg1.good
  obtain ⟨runs2, w2, hr2, hdata, hmap⟩ :=
    waves_ok hd hg2.good (fun run hm => (hruns1 run hm).grows hg2) (Nat.lt_of_le_of_lt hload hlt)
  refine ⟨runs2, w2, ?_, ?_⟩
  · rw [settle, hr]
    exact hr2
  · rw [List.map_congr_left hdata, hmap, Keeps.map_direct hkeeps]

/-- Requests that run together get the data of direct evaluation, when the waves may be more than
there are lazies to force. -/
theorem run_ok (hd : s.host.Determined s.registry a g) (hg : g.good w)
    (hlt : ((m.receiveAll s).map (lazies s m a)).sum < fuel) : ∃ responses,
      (m.run s fuel w).1 = .ok responses ∧
        responses.map Response.data = (m.receiveAll s).map (direct s m a) := by
  obtain ⟨runs, w', hr, hdata⟩ := settle_ok hd hg hlt
  refine ⟨runs.map QueryRun.response, ?_, ?_⟩
  · rw [run, hr]
    rfl
  · rw [List.map_map]
    exact hdata

end GraphQL.Multiplex
