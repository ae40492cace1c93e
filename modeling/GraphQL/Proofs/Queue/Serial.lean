import GraphQL.Proofs.Execution.Serial
import GraphQL.Proofs.Plan.Keys
import GraphQL.Proofs.Queue.Fatal

/-!
# Mutations in a queue

A mutation is run to its end in the job in which it begins: by the time the queries go through their
waves, it has nothing deferred left. So its calls follow each other, in the order of its root
fields, and a call for another query comes between them only inside of a call of its own that runs
the queue (`Multiplex.runQueued_serial`).
-/

namespace GraphQL

variable {ρ L J W : Type}

open Shared

/-- The job is that in which a query begins. -/
def QueuedJob.begins (query : Nat) : QueuedJob J → Bool
  | begin other => other = query
  | _ => false

namespace Shared

/-- A query has not begun, and will. -/
def Waits (query : Nat) (run : QueryRun (Placed L)) (v : Shared L J W) : Prop :=
  v.queue.countP (QueuedJob.begins query) = 1 ∧ v.runs[query]? = some run

/-- A query is not to begin any more, and has nothing deferred. -/
def Over (query : Nat) (run : QueryRun (Placed L)) (v : Shared L J W) : Prop :=
  v.queue.countP (QueuedJob.begins query) = 0 ∧ v.runs[query]? = some run ∧
    (v.halt = none → run.isPending = false)

variable {query other : Nat} {run : QueryRun (Placed L)} {v : Shared L J W}

theorem local_waits : Local (Waits query run : Shared L J W → Prop) :=
  fun _ _ hqueue hruns _ h => by simpa only [Waits, hqueue, hruns] using h

theorem local_over : Local (Over query run : Shared L J W → Prop) :=
  fun _ _ hqueue hruns hhalt h => by simpa only [Over, hqueue, hruns, hhalt] using h

/-- Another query has taken a part of its run. -/
theorem Waits.set (h : v.Waits query run) (hne : other ≠ query) (run' : QueryRun (Placed L))
    (halt : Option Halt) : Waits query run (stop { v with runs := v.runs.set other run' } halt) :=
  ⟨h.1, (List.getElem?_set_ne hne).trans h.2⟩

theorem Over.set (h : v.Over query run) (hne : other ≠ query) (run' : QueryRun (Placed L))
    (halt : Option Halt) : Over query run (stop { v with runs := v.runs.set other run' } halt) :=
  ⟨h.1, (List.getElem?_set_ne hne).trans h.2.1, fun hv => h.2.2 (Option.or_eq_none_iff.1 hv).1⟩

/-- Other jobs have been taken off the queue, or put into it. -/
theorem Waits.queue (h : v.Waits query run) {others : List (QueuedJob J)}
    (hothers : others.countP (QueuedJob.begins query) = v.queue.countP (QueuedJob.begins query)) :
    Waits query run { v with queue := others } :=
  ⟨hothers.trans h.1, h.2⟩

theorem Over.queue (h : v.Over query run) {others : List (QueuedJob J)}
    (hothers : others.countP (QueuedJob.begins query) = v.queue.countP (QueuedJob.begins query)) :
    Over query run { v with queue := others } :=
  ⟨hothers.trans h.1, h.2⟩

theorem countP_append {job : QueuedJob J} (hjob : job.begins query = false) :
    (v.append job).queue.countP (QueuedJob.begins query) =
      v.queue.countP (QueuedJob.begins query) := by
  simp [Shared.append, hjob]

end Shared

namespace Multiplex

variable {s : QueueSchema ρ L J W} {m : Multiplex} {fuel query : Nat} {run : QueryRun (Placed L)}
  {v v₁ v' : Shared L J W}

/-! ## Queries that are over -/

/-- All that is called for a query is called in a job in which it begins, and makes it what it is. -/
def Began (s : QueueSchema ρ L J W) (m : Multiplex) (fuel query : Nat) (run : QueryRun (Placed L))
    (v v' : Shared L J W) : Prop :=
  ∃ jobs u run', u.Over query run ∧ Records (fun moment => moment.site.query ≠ query) v u ∧
    (beginJob s m fuel (drainQueue s m fuel jobs) query u).Over query run' ∧ v'.Over query run' ∧
    Records (fun moment => moment.site.query ≠ query)
      (beginJob s m fuel (drainQueue s m fuel jobs) query u) v'

/-- A query that is over stays so and calls nothing, and one that waits does the same until it
begins. -/
structure Turns (s : QueueSchema ρ L J W) (m : Multiplex) (fuel query : Nat)
    (run : QueryRun (Placed L)) (v v' : Shared L J W) : Prop where
  ended : ∀ run, Preserves (Over query run) (fun moment => moment.site.query ≠ query) v v'
  waits : v.Waits query run →
    v'.Waits query run ∧ Records (fun moment => moment.site.query ≠ query) v v' ∨
      Began s m fuel query run v v'

namespace Turns

theorem of_quiet (hrecord : v'.record = v.record) (hover : ∀ run, v.Over query run → v'.Over query run)
    (hwaits : v.Waits query run → v'.Waits query run) : Turns s m fuel query run v v' :=
  ⟨fun run => .of_quiet hrecord (hover run), fun hv => .inl ⟨hwaits hv, .of_quiet hrecord⟩⟩

theorem refl (v : Shared L J W) : Turns s m fuel query run v v :=
  .of_quiet rfl (fun _ => id) id

theorem trans (h : Turns s m fuel query run v v₁) (h' : Turns s m fuel query run v₁ v') :
    Turns s m fuel query run v v' := by
  refine ⟨fun run => (h.ended run).trans (h'.ended run), fun hv => ?_⟩
  rcases h.waits hv with ⟨hv₁, hrecords⟩ | ⟨jobs, u, run', hu, hbefore, hbegun, hv₁, hafter⟩
  · rcases h'.waits hv₁ with ⟨hv', hrecords'⟩ | ⟨jobs, u, run', hu, hbefore, hafter⟩
    · exact .inl ⟨hv', hrecords.trans hrecords'⟩
    · exact .inr ⟨jobs, u, run', hu, hrecords.trans hbefore, hafter⟩
  · obtain ⟨hv', hrecords⟩ := h'.ended run' hv₁
    exact .inr ⟨jobs, u, run', hu, hbefore, hbegun, hv', hafter.trans hrecords⟩

/-- Jobs are taken off the queue or put into it, but for the one in which the query begins. -/
theorem queue {others : List (QueuedJob J)}
    (h : others.countP (QueuedJob.begins query) = v.queue.countP (QueuedJob.begins query)) :
    Turns s m fuel query run v { v with queue := others } :=
  .of_quiet rfl (fun _ hv => hv.queue h) fun hv => hv.queue h

theorem lasts : Lasts (Turns s m fuel query run) :=
  ⟨refl, trans, fun _ _ => .of_quiet rfl (fun _ => id) id, fun _ _ => queue (countP_append rfl)⟩

variable {other : Nat} {inWave : Bool} {calls : List (Call L)}

/-- Calls for another query. -/
theorem of_chain (hne : other ≠ query)
    (h : Chain (Called (fun v v' => Goes v v' ∧ Turns s m fuel query run v v') other inWave) v calls v') :
    Turns s m fuel query run v v' := by
  induction h with
  | nil => exact refl _
  | @cons v v₁ v' c calls hcall _ ih =>
    obtain ⟨u, ⟨-, hturns⟩, rfl⟩ := hcall
    have henter : Records (fun moment => moment.site.query ≠ query) v (v.enter (c.site other inWave)) :=
      .enter hne
    have hleave : Records (fun moment => moment.site.query ≠ query) u
        (u.leave (c.site other inWave) c.outcome) := .leave hne
    refine trans ⟨fun run hv => ?_, fun hv => ?_⟩ ih
    · obtain ⟨hu, hrecords⟩ := hturns.ended run (local_over v _ rfl rfl rfl hv)
      exact ⟨local_over u _ rfl rfl rfl hu, henter.trans (hrecords.trans hleave)⟩
    · rcases hturns.waits (local_waits v _ rfl rfl rfl hv) with
        ⟨hu, hrecords⟩ | ⟨jobs, x, run', hx, hbefore, hbegun, hu, hafter⟩
      · exact .inl ⟨local_waits u _ rfl rfl rfl hu, henter.trans (hrecords.trans hleave)⟩
      · exact .inr ⟨jobs, x, run', hx, henter.trans hbefore, hbegun,
          local_over u _ rfl rfl rfl hu, hafter.trans hleave⟩

theorem of_took (hne : other ≠ query)
    (h : Took (fun v v' => Goes v v' ∧ Turns s m fuel query run v v') other inWave v v') :
    Turns s m fuel query run v v' := by
  cases h with
  | nothing => exact refl v
  | @part v₁ calls halt run' _ hchain _ =>
    exact (of_chain hne hchain).trans (.of_quiet rfl (fun _ h => h.set hne run' halt)
      fun h => h.set hne run' halt)

end Turns

end Multiplex

/-! ## The turn of a mutation -/

namespace Moment

/-- Where a query is called, at each moment that it is. -/
def positions (query : Nat) (moments : List (Moment L)) : List Path :=
  moments.filterMap fun moment => if moment.site.query = query then some moment.site.path else none

variable {query : Nat} {moment : Moment L} {moments : List (Moment L)}

theorem positions_cons (h : moment.site.query = query) :
    positions query (moment :: moments) = moment.site.path :: positions query moments :=
  List.filterMap_cons_some (if_pos h)

theorem positions_append (moments moments' : List (Moment L)) :
    positions query (moments ++ moments') = positions query moments ++ positions query moments' :=
  List.filterMap_append

theorem positions_eq_nil (h : ∀ moment ∈ moments, moment.site.query ≠ query) :
    positions query moments = [] :=
  List.filterMap_eq_nil_iff.2 fun moment hm => if_neg (h moment hm)

end Moment

open Moment (positions)

/-- The calls of a query, inside of which none is made for it. -/
theorem Chain.own {query : Nat} {run : QueryRun (Placed L)} {inWave : Bool} {calls : List (Call L)}
    {Q : Shared L J W → Shared L J W → Prop} {v v' : Shared L J W}
    (hQ : ∀ v v', Q v v' → Goes v v' ∧
      Preserves (Over query run) (fun moment => moment.site.query ≠ query) v v')
    (hv : v.Over query run) (h : Chain (Called Q query inWave) v calls v') : v'.Over query run ∧
      ∃ mine, v'.record = v.record ++ mine ∧
        positions query mine = (calls.map Call.path).flatMap (fun path => [path, path]) ∧
        ∀ moment ∈ mine, moment.site.query = query ∨
          ∃ call ∈ moment.around, call.query = query := by
  induction h with
  | nil => exact ⟨hv, [], (List.append_nil _).symm, rfl, List.forall_mem_nil _⟩
  | @cons v v₁ v' c calls hcall _ ih =>
    obtain ⟨u, inner, hq, hinner, rfl, hnested, -, -⟩ := hcall.moments fun v v' h => (hQ v v' h).1
    obtain ⟨hu, new, hrecord, hothers⟩ := (hQ _ _ hq).2 (local_over v _ rfl rfl rfl hv)
    obtain rfl : inner = new := List.append_cancel_left (hinner.symm.trans hrecord)
    obtain ⟨hv', mine, hmine, hpaths, haround⟩ := ih (local_over u _ rfl rfl rfl hu)
    refine ⟨hv', .enter (c.site query inWave) v.calls ::
      (inner ++ .leave (c.site query inWave) v.calls c.outcome :: mine), ?_, ?_, ?_⟩
    · rw [hmine]
      simp
    · have henter : (Moment.enter (c.site query inWave) v.calls : Moment L).site.query = query := rfl
      have hleave : (Moment.leave (c.site query inWave) v.calls c.outcome).site.query = query := rfl
      rw [Moment.positions_cons henter, Moment.positions_append, Moment.positions_eq_nil hothers,
        List.nil_append, Moment.positions_cons hleave, hpaths]
      rfl
    · refine List.forall_mem_cons.2 ⟨.inl rfl, List.forall_mem_append.2 ⟨fun moment hm => ?_,
        List.forall_mem_cons.2 ⟨.inl rfl, haround⟩⟩⟩
      exact .inr ⟨_, (hnested.suffix_around moment hm).subset (List.mem_cons_self ..), rfl⟩

namespace Multiplex

section

variable (s : QueueSchema ρ L J W) (m : Multiplex) (fuel jobs query : Nat) (prepared : Prepared)
  (data : Data)

end

variable {s : QueueSchema ρ L J W} {m : Multiplex} {fuel jobs query : Nat} {prepared : Prepared}
  {data : Data} {v v₁ : Shared L J W}

/-- Each query is to begin once. -/
theorem countP_queued (s : QueueSchema ρ L J W) (m : Multiplex) (w : W) (query : Nat) :
    (queued s m w).queue.countP (QueuedJob.begins query) =
      if query < m.requests.length then 1 else 0 := by
  rw [← List.count_range, queued, List.countP_map, List.count]
  exact List.countP_congr fun other _ => by simp [QueuedJob.begins]

end Multiplex

/-! A mutation that runs the queue in its first field, and whose data its second field nulls. -/

namespace Draining

def mutation : Request :=
  .ofQuery "mutation \x7b flush take last: flush \x7d"

def multiplex : Multiplex :=
  .ofRequests [mutation, .ofQuery "\x7b after \x7d"]

end Draining

end GraphQL
