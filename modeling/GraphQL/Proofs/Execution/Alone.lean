import GraphQL.Proofs.Execution.Reached

/-!
# Queries without a world

Where the host has no world, nothing connects the queries of a multiplex but the waves that they go
through together. A wave leaves a query alone that has nothing deferred, so each query comes to what
it comes to by itself (`Multiplex.answered_append`, `Schema.runAll_ok_iff`).
-/

namespace GraphQL

variable {ρ L : Type}

namespace Multiplex

variable {s : Schema ρ L Unit} {m : Multiplex} {part : Execution ρ L Unit → Plan → Running L Unit Unit}

/-- The queries after a part of their runs, unless something stopped everything. -/
def advanced {W : Type} : Option Halt × List (QueryRun L) × W → Option (List (QueryRun L))
  | (none, runs, _) => some runs
  | (some _, _, _) => none

/-- One group of queries, and then the other. -/
def both (xs ys : Option (List (QueryRun L))) : Option (List (QueryRun L)) := do
  let xs ← xs
  let ys ← ys
  pure (xs ++ ys)

@[simp] theorem both_some (xs ys : List (QueryRun L)) : both (some xs) (some ys) = some (xs ++ ys) :=
  rfl

@[simp] theorem both_none_left (ys : Option (List (QueryRun L))) : both none ys = none :=
  rfl

@[simp] theorem both_none_right (xs : Option (List (QueryRun L))) : both xs none = none := by
  cases xs <;> rfl

theorem advanceAll_append (xs ys : List (QueryRun L)) :
    advanced (advanceAll s m part (xs ++ ys) ()) =
      both (advanced (advanceAll s m part xs ())) (advanced (advanceAll s m part ys ())) := by
  induction xs with
  | nil =>
    show advanced (advanceAll s m part ys ()) = both (some []) _
    cases advanced (advanceAll s m part ys ()) <;> rfl
  | cons run xs ih =>
    rw [List.cons_append, advanceAll, advanceAll]
    obtain ⟨halt, run', -⟩ := advance s m part run ()
    cases halt with
    | some halt => rfl
    | none =>
      -- the head goes in front of what the others come to
      have hcons : ∀ r : Option Halt × List (QueryRun L) × Unit,
          advanced (r.1, run' :: r.2.1, r.2.2) = (advanced r).map (run' :: ·) := by
        rintro ⟨_ | _, _, _⟩ <;> rfl
      simp only [hcons, ih]
      cases advanced (advanceAll s m part xs ()) with
      | none => rfl
      | some xs' => cases advanced (advanceAll s m part ys ()) <;> rfl

/-- A wave leaves queries alone that have nothing deferred. -/
theorem waves_idle {runs : List (QueryRun L)} (h : runs.any QueryRun.isPending = false)
    (fuel : Nat) : waves s m (fuel + 1) runs () = (none, runs, ()) := by
  have hall : advanceAll s m (fun e _ => e.wave) runs () = (none, runs, ()) := by
    induction runs with
    | nil => rfl
    | cons run runs ih =>
      rw [List.any_cons, Bool.or_eq_false_iff] at h
      rw [advanceAll, advance_idle h.1]
      simp only [ih h.2]
  rw [waves, hall]
  simp [h]

theorem advanced_waves_succ (fuel : Nat) (runs : List (QueryRun L)) :
    advanced (waves s m (fuel + 1) runs ()) =
      (advanced (advanceAll s m (fun e _ => e.wave) runs ())).bind fun runs =>
        if runs.any QueryRun.isPending then advanced (waves s m fuel runs ()) else some runs := by
  rw [waves]
  obtain ⟨_ | halt, runs', -⟩ := advanceAll s m (fun e _ => e.wave) runs ()
  · show advanced (if _ then _ else _) = if _ then _ else _
    split <;> rfl
  · rfl

theorem waves_append (fuel : Nat) (xs ys : List (QueryRun L)) :
    advanced (waves s m (fuel + 1) (xs ++ ys) ()) =
      both (advanced (waves s m (fuel + 1) xs ())) (advanced (waves s m (fuel + 1) ys ())) := by
  induction fuel generalizing xs ys with
  | zero =>
    rw [advanced_waves_succ, advanced_waves_succ, advanced_waves_succ, advanceAll_append]
    cases advanced (advanceAll s m (fun e _ => e.wave) xs ()) with
    | none => rfl
    | some xs' =>
      cases advanced (advanceAll s m (fun e _ => e.wave) ys ()) with
      | none => exact (both_none_right _).symm
      | some ys' =>
        simp only [both_some, Option.bind_some, List.any_append, waves]
        cases xs'.any QueryRun.isPending <;> cases ys'.any QueryRun.isPending <;> simp [advanced]
  | succ fuel ih =>
    rw [advanced_waves_succ, advanced_waves_succ, advanced_waves_succ, advanceAll_append]
    cases advanced (advanceAll s m (fun e _ => e.wave) xs ()) with
    | none => rfl
    | some xs' =>
      cases advanced (advanceAll s m (fun e _ => e.wave) ys ()) with
      | none => exact (both_none_right _).symm
      | some ys' =>
        simp only [both_some, Option.bind_some, List.any_append, ih]
        -- one group may be done before the other
        cases hx : xs'.any QueryRun.isPending <;> cases hy : ys'.any QueryRun.isPending <;>
          simp [waves_idle, hx, hy, advanced]

/-- What queries come to when they run to their end. -/
def answered (s : Schema ρ L Unit) (m : Multiplex) (fuel : Nat) (runs : List (QueryRun L)) :
    Option (List (QueryRun L)) :=
  (advanced (advanceAll s m (fun e plan => e.begin fuel plan) runs ())).bind fun runs =>
    advanced (waves s m fuel runs ())

theorem answered_append (fuel : Nat) (xs ys : List (QueryRun L)) :
    answered s m (fuel + 1) (xs ++ ys) =
      both (answered s m (fuel + 1) xs) (answered s m (fuel + 1) ys) := by
  unfold answered
  rw [advanceAll_append]
  cases advanced (advanceAll s m (fun e plan => e.begin (fuel + 1) plan) xs ()) with
  | none => rfl
  | some xs' =>
    cases advanced (advanceAll s m (fun e plan => e.begin (fuel + 1) plan) ys ()) with
    | none => exact (both_none_right _).symm
    | some ys' => exact waves_append fuel xs' ys'

/-- Requests have nothing to do with what else a multiplex is to run. -/
theorem answered_requests (rs rs' : List Request) (d : Data) (limit limit' : Option Nat) (fuel : Nat)
    (runs : List (QueryRun L)) :
    answered s ⟨rs, d, limit⟩ fuel runs = answered s ⟨rs', d, limit'⟩ fuel runs := by
  have hall : ∀ (part : Execution ρ L Unit → Plan → Running L Unit Unit) (runs : List (QueryRun L)),
      advanceAll s ⟨rs, d, limit⟩ part runs () = advanceAll s ⟨rs', d, limit'⟩ part runs () := by
    intro part runs
    induction runs with
    | nil => rfl
    | cons run runs ih =>
      have hone : advance s ⟨rs, d, limit⟩ part run () = advance s ⟨rs', d, limit'⟩ part run () := rfl
      rw [advanceAll, advanceAll, hone]
      simp only [ih]
  have hwaves : ∀ (fuel : Nat) (runs : List (QueryRun L)),
      waves s ⟨rs, d, limit⟩ fuel runs () = waves s ⟨rs', d, limit'⟩ fuel runs () := by
    intro fuel
    induction fuel with
    | zero => exact fun _ => rfl
    | succ fuel ih =>
      intro runs
      simp only [waves, hall, ih]
  simp only [answered, hall, hwaves]

theorem advanced_settle (fuel : Nat) :
    advanced (m.settle s fuel ()) = answered s m fuel (m.receiveAll s) := by
  rw [settle, answered]
  obtain ⟨_ | halt, runs, -⟩ := advanceAll s m (fun e plan => e.begin fuel plan) (m.receiveAll s) ()
  · rfl
  · rfl

theorem run_eq (fuel : Nat) {runs : List (QueryRun L)} :
    answered s m fuel (m.receiveAll s) = some runs ↔ m.settle s fuel () = (none, runs, ()) := by
  rw [← advanced_settle]
  obtain ⟨_ | halt, runs', -⟩ := m.settle s fuel ()
  · simp [advanced]
  · simp [advanced]

end Multiplex

namespace Schema

variable {s : Schema ρ L Unit} {fuel : Nat} {r : Request} {rs : List Request}

open Multiplex

/-- What requests come to when they run together to their end. -/
def answered (s : Schema ρ L Unit) (fuel : Nat) (rs : List Request) : Option (List (QueryRun L)) :=
  Multiplex.answered s (.ofRequests rs) fuel (rs.map (receive s))

theorem answered_cons (s : Schema ρ L Unit) (fuel : Nat) (r : Request) (rs : List Request) :
    s.answered (fuel + 1) (r :: rs) = both (s.answered (fuel + 1) [r]) (s.answered (fuel + 1) rs) := by
  have happend := answered_append (s := s) (m := .ofRequests (r :: rs)) fuel [receive s r]
    (rs.map (receive s))
  refine Eq.trans happend ?_
  congr 1 <;> exact answered_requests ..

theorem answered_single {runs : List (QueryRun L)} (h : s.answered fuel [r] = some runs) :
    ∃ run, runs = [run] := by
  obtain ⟨hcame, -⟩ := settle_came ((run_eq (m := .ofRequests [r]) fuel).1 h)
  exact List.length_eq_one_iff.1 hcame.length_eq.symm

theorem runAll_eq (s : Schema ρ L Unit) (fuel : Nat) (rs : List Request) {responses : List Response} :
    (s.runAll rs fuel ()).1 = .ok responses ↔
      ∃ runs, s.answered fuel rs = some runs ∧ responses = runs.map QueryRun.response := by
  have hsettle : s.answered fuel rs = advanced ((Multiplex.ofRequests rs).settle s fuel ()) :=
    (advanced_settle fuel).symm
  rw [hsettle, runAll, run]
  obtain ⟨_ | halt, runs, -⟩ := (Multiplex.ofRequests rs).settle s fuel ()
  · simp [advanced, outcome, eq_comm]
  · simp [advanced, outcome]

theorem execute_fst {W : Type} (s : Schema ρ L W) (r : Request) (fuel : Nat) (w : W) :
    (s.execute r fuel w).1 =
      (s.runAll [r] fuel w).1.map fun responses => responses.getLast?.getD .empty :=
  rfl

theorem execute_eq (s : Schema ρ L Unit) (fuel : Nat) (r : Request) {response : Response} :
    (s.execute r fuel ()).1 = .ok response ↔
      ∃ run, s.answered fuel [r] = some [run] ∧ response = run.response := by
  constructor
  · intro h
    cases hr : (s.runAll [r] fuel ()).1 with
    | error halt =>
      rw [execute_fst, hr] at h
      cases h
    | ok responses =>
      rw [execute_fst, hr] at h
      obtain ⟨runs, hruns, rfl⟩ := (runAll_eq s fuel [r]).1 hr
      obtain ⟨run, rfl⟩ := answered_single hruns
      cases h
      exact ⟨run, hruns, rfl⟩
  · rintro ⟨run, hruns, rfl⟩
    rw [execute_fst, (runAll_eq s fuel [r]).2 ⟨[run], hruns, rfl⟩]
    rfl

/-- Where there is no world, requests that run together get the responses that each gets alone. -/
theorem runAll_ok_iff {responses : List Response} :
    (s.runAll rs (fuel + 1) ()).1 = .ok responses ↔
      List.Forall₂ (fun r response => (s.execute r (fuel + 1) ()).1 = .ok response) rs responses := by
  simp only [runAll_eq, execute_eq]
  induction rs generalizing responses with
  | nil =>
    have hnil : s.answered (fuel + 1) [] = some [] := rfl
    rw [List.forall₂_nil_left_iff, hnil]
    simp
  | cons r rs ih =>
    rw [answered_cons]
    constructor
    · rintro ⟨runs, h, rfl⟩
      obtain ⟨first, h1, h⟩ := Option.bind_eq_some_iff.1 h
      obtain ⟨rest, h2, h⟩ := Option.bind_eq_some_iff.1 h
      obtain ⟨run, rfl⟩ := answered_single h1
      cases h
      exact .cons ⟨run, h1, rfl⟩ (ih.1 ⟨rest, h2, rfl⟩)
    · intro h
      obtain ⟨_, _, ⟨run, h1, rfl⟩, hrest, rfl⟩ := List.forall₂_cons_left_iff.1 h
      obtain ⟨rest, h2, rfl⟩ := ih.2 hrest
      exact ⟨run :: rest, by rw [h1, h2]; rfl, rfl⟩

end Schema

end GraphQL
