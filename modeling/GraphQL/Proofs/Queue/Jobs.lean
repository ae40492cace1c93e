import GraphQL.Proofs.Execution.Calls

/-!
# The jobs of a queue

A host that has the queue at hand runs it from inside its calls, and the jobs that are then done
call the host again. What holds of the whole is proved for the jobs in turn, given that it holds of
every run of the queue inside of them (`Multiplex.Kept.drainQueue`). A query that takes a part of
its run makes a chain of calls, of which each may run the queue (`Multiplex.Took`).
-/

namespace GraphQL

variable {ρ L J W α : Type}

/-- Where a call is made while a query takes a part of its run. -/
def Call.site (c : Call L) (query : Nat) (inWave : Bool) : Site :=
  ⟨query, c.path, inWave⟩

namespace Moment

def site : Moment L → Site
  | enter site _ => site
  | leave site _ _ => site

/-- The calls in which the moment is. -/
def around : Moment L → List Site
  | enter _ around => around
  | leave _ around _ => around

/-- What the call that is left fails with, if that makes everything meaningless. -/
def failure? : Moment L → Option String
  | leave _ _ (.error (.internal message)) => some message
  | _ => none

/-- A call is left with what it fails with. -/
theorem failure?_leave (site : Site) (around : List Site) (c : Call L) :
    (leave site around c.outcome).failure? = c.failure? := by
  unfold Call.failure?
  split
  · next message h => rw [h]; rfl
  · next h =>
    cases ho : c.outcome with
    | ok value => rfl
    | error error =>
      cases error with
      | field error => rfl
      | internal message => exact absurd ho (h message)

end Moment

/-! ## What activities keep -/

namespace Shared

/-- A relation that holds between what is shared before and after an activity, if it does for the
queue. -/
structure Lasts (Q : Shared L J W → Shared L J W → Prop) : Prop where
  refl : ∀ v, Q v v
  trans : ∀ {v v₁ v'}, Q v v₁ → Q v₁ v' → Q v v'
  write : ∀ v world, Q v { v with world := world }
  append : ∀ v job, Q v (v.append (.host job))

variable {Q : Shared L J W → Shared L J W → Prop}

theorem Lasts.run (h : Lasts Q) {drain : Shared L J W → Shared L J W} (hd : ∀ v, Q v (drain v)) :
    ∀ (a : Activity J W α) (v : Shared L J W), Q v (a.run drain v).2
  | .done _, v => h.refl v
  | .read next, v => h.run hd (next v.world) v
  | .write world next, v => h.trans (h.write v world) (h.run hd next _)
  | .append job next, v => h.trans (h.append v job) (h.run hd next _)
  | .hasJobs next, v => h.run hd (next !v.queue.isEmpty) v
  | .drain next, v => h.trans (hd v) (h.run hd next _)

/-- A call, between the ends of which `Q` holds. -/
def Called (Q : Shared L J W → Shared L J W → Prop) (query : Nat) (inWave : Bool)
    (v : Shared L J W) (c : Call L) (v' : Shared L J W) : Prop :=
  ∃ v₁, Q (v.enter (c.site query inWave)) v₁ ∧ v' = v₁.leave (c.site query inWave) c.outcome

end Shared

open Shared

/-- What a host does when it is called keeps `Q`. -/
structure QueueHost.Does (h : QueueHost ρ L J W) (drain : Shared L J W → Shared L J W)
    (Q : Shared L J W → Shared L J W → Prop) : Prop where
  resolve : ∀ resolver ctx entries v, Q v ((h.resolve resolver ctx entries).run drain v).2
  force : ∀ lazy v, Q v ((h.force lazy).run drain v).2

theorem Shared.Lasts.does {Q : Shared L J W → Shared L J W → Prop} (h : Lasts Q)
    (host : QueueHost ρ L J W) {drain : Shared L J W → Shared L J W} (hd : ∀ v, Q v (drain v)) :
    host.Does drain Q where
  resolve _ _ _ v := h.run hd _ v
  force _ v := h.run hd _ v

/-- As a query calls it, a host makes calls. -/
theorem QueueHost.at_makes {h : QueueHost ρ L J W} {drain : Shared L J W → Shared L J W}
    {Q : Shared L J W → Shared L J W → Prop} (hd : h.Does drain Q) (query : Nat) (inWave : Bool) :
    (h.at drain query inWave).Makes (Called Q query inWave) where
  resolve resolver ctx entries v :=
    ⟨_, _, _, rfl, _, hd.resolve resolver ctx entries (v.enter ⟨query, ctx.path, inWave⟩), rfl⟩
  force lazy v :=
    ⟨_, _, rfl, _, hd.force lazy.lazy (v.enter ⟨query, lazy.path, inWave⟩), rfl⟩

/-! ## Hosts that leave the running of the queue to others -/

/-- The queue is not run. -/
inductive Activity.NoDrain : Activity J W α → Prop
  | done {result} : NoDrain (.done result)
  | read {next} (h : ∀ world, NoDrain (next world)) : NoDrain (.read next)
  | write {world next} (h : NoDrain next) : NoDrain (.write world next)
  | append {job next} (h : NoDrain next) : NoDrain (.append job next)
  | hasJobs {next} (h : ∀ jobs, NoDrain (next jobs)) : NoDrain (.hasJobs next)

/-- The host does not run the queue from inside of its calls. That is how a resolver is meant: a call
that returns a value or a lazy, inside of which nothing is suspended and the queue is not run. But a
host has the queue at hand, and nothing keeps it from running it. -/
structure QueueHost.NoDrain (h : QueueHost ρ L J W) : Prop where
  resolve : ∀ resolver ctx entries, (h.resolve resolver ctx entries).NoDrain
  force : ∀ lazy, (h.force lazy).NoDrain

theorem Activity.NoDrain.run_eq {a : Activity J W α} (h : a.NoDrain)
    (drain drain' : Shared L J W → Shared L J W) (v : Shared L J W) :
    a.run drain v = a.run drain' v := by
  induction h generalizing v with
  | done => rfl
  | read _ ih => exact ih _ v
  | write _ ih => exact ih _
  | append _ ih => exact ih _
  | hasJobs _ ih => exact ih _ v

/-- It does not matter to such a host how the queue is run. -/
theorem QueueHost.NoDrain.at_eq {h : QueueHost ρ L J W} (hh : h.NoDrain)
    (drain drain' : Shared L J W → Shared L J W) (query : Nat) (inWave : Bool) :
    h.at drain query inWave = h.at drain' query inWave := by
  unfold QueueHost.at
  congr 1
  · funext resolver ctx entries v
    simp only [(hh.resolve resolver ctx entries).run_eq drain drain']
  · funext lazy v
    simp only [(hh.force lazy.lazy).run_eq drain drain']

/-! ## Parts of runs -/

namespace Multiplex

variable {s : QueueSchema ρ L J W} {m : Multiplex} {fuel jobs query : Nat} {inWave : Bool}
  {drain : Shared L J W → Shared L J W} {Q : Shared L J W → Shared L J W → Prop}
  {part : Execution ρ (Placed L) (Shared L J W) → Plan → Running (Placed L) (Shared L J W) Unit}
  {v v' : Shared L J W}

/-- What a query does that takes a part of its run: nothing, or it makes a chain of calls, and then
its progress is noted and why everything stops, if it does. -/
inductive Took (Q : Shared L J W → Shared L J W → Prop) (query : Nat) (inWave : Bool)
    (v : Shared L J W) : Shared L J W → Prop
  | nothing : Took Q query inWave v v
  | part {v₁ calls halt run} (hv : v.halt = none) (hchain : Chain (Called Q query inWave) v calls v₁)
    (hstops : Stops halt calls) :
    Took Q query inWave v (stop { v₁ with runs := v₁.runs.set query run } halt)

/-- Whichever query takes the part of its run, it makes a chain of calls. -/
def PartsCall (s : QueueSchema ρ L J W) (m : Multiplex) (drain : Shared L J W → Shared L J W)
    (Q : Shared L J W → Shared L J W → Prop)
    (part : Execution ρ (Placed L) (Shared L J W) → Plan → Running (Placed L) (Shared L J W) Unit)
    (inWave : Bool) : Prop :=
  ∀ i query data, Execution.Logs (Called Q i inWave) (fun _ => True)
    (part (execution (s.at drain i inWave) m query data) query.plan)

theorem begin_calls (hd : s.host.Does drain Q) (m : Multiplex) (fuel : Nat) :
    PartsCall s m drain Q (fun e plan => e.begin fuel plan) false :=
  fun _ query _ => Execution.begin_logs (QueueHost.at_makes hd _ _) (fun _ _ => id) fuel query.plan
    fun _ _ => trivial

theorem wave_calls (hd : s.host.Does drain Q) (m : Multiplex) :
    PartsCall s m drain Q (fun e _ => e.wave) true :=
  fun _ _ _ => Execution.wave_logs (QueueHost.at_makes hd _ _) fun _ _ => id

/-- A query that takes a part of its run. -/
theorem takePart_eq {run : Prepared} {data : Data} {p p' : Progress (Placed L)}
    {r : Except Halt Unit} {v₁ : Shared L J W} (hv : v.halt = none)
    (hrun : v.runs[query]? = some (.running run data p))
    (hr : (part (execution (s.at drain query inWave) m run data) run.plan).run (p, v) = (r, p', v₁)) :
    takePart s m drain part inWave query v =
      stop { v₁ with runs := v₁.runs.set query (.running run data p') } (halt? r) := by
  rw [takePart, hv, hrun]
  simp only [advance, hr]
  cases r <;> rfl

theorem takePart_halted (hv : v.halt ≠ none) :
    takePart s m drain part inWave query v = v := by
  unfold takePart
  split
  · next h _ => exact absurd h hv
  · rfl

/-- A query that has nothing to do in a part of its run. -/
theorem takePart_idle {run : QueryRun (Placed L)} (hrun : v.runs[query]? = some run)
    (h : advance (s.at drain query inWave) m part run v = (none, run, v)) :
    takePart s m drain part inWave query v = v := by
  obtain ⟨hlt, rfl⟩ := List.getElem?_eq_some_iff.1 hrun
  unfold takePart
  split
  · next found hv hfound =>
    cases hrun.symm.trans hfound
    rw [h]
    simp only [Shared.stop, Option.or_none, List.set_getElem_self]
  · rfl

theorem took_takePart (hp : PartsCall s m drain Q part inWave) (query : Nat) (v : Shared L J W) :
    Took Q query inWave v (takePart s m drain part inWave query v) := by
  cases hv : v.halt with
  | some halt =>
    rw [takePart_halted (hv ▸ Option.some_ne_none halt)]
    exact .nothing
  | none =>
    cases hrun : v.runs[query]? with
    | none =>
      rw [takePart, hv, hrun]
      exact .nothing
    | some run =>
      cases run with
      | running run data p =>
        obtain ⟨r, p', v₁, calls, hr, hchain, -, -, hstops⟩ :=
          hp query run data p v fun _ _ => ⟨trivial, trivial⟩
        rw [takePart_eq hv hrun hr]
        exact .part hv hchain hstops
      | _ =>
        rw [takePart_idle hrun rfl]
        exact .nothing

/-! ## Jobs -/

/-- A relation that holds between what is shared before and after a run of the queue, as its jobs
keep it. For a job that is taken off the queue, it may be taken to hold of runs of the queue inside
of it. -/
structure Kept (s : QueueSchema ρ L J W) (m : Multiplex) (fuel : Nat)
    (Q : Shared L J W → Shared L J W → Prop) : Prop extends Lasts Q where
  unfinished : ∀ v, Q v (v.stop (some .unfinished))
  host : ∀ {v job rest}, v.queue = .host job :: rest → Q v { v with queue := rest }
  begin : ∀ {jobs v query rest}, (∀ v, Q v (drainQueue s m fuel jobs v)) →
    v.queue = .begin query :: rest →
      Q v (beginJob s m fuel (drainQueue s m fuel jobs) query { v with queue := rest })
  wave : ∀ {jobs v rest}, (∀ v, Q v (drainQueue s m fuel jobs v)) → v.queue = .wave :: rest →
    Q v (waveJob s m (drainQueue s m fuel jobs) { v with queue := rest })

theorem Kept.drainQueue (h : Kept s m fuel Q) (jobs : Nat) (v : Shared L J W) :
    Q v (drainQueue s m fuel jobs v) := by
  induction jobs generalizing v with
  | zero =>
    rw [Multiplex.drainQueue]
    split
    · exact h.refl v
    · exact h.unfinished v
  | succ jobs ih =>
    rw [Multiplex.drainQueue]
    split
    · exact h.refl v
    · next job rest hqueue =>
      refine h.trans ?_ (ih _)
      cases job with
      | begin query => exact h.begin ih hqueue
      | wave => exact h.wave ih hqueue
      | host job => exact h.trans (h.host hqueue) (h.run ih _ _)

/-- A wave goes through all queries, and then queues the next one or does not. -/
theorem waveJob_cases (hrefl : ∀ v, Q v v) (htrans : ∀ {v v₁ v'}, Q v v₁ → Q v₁ v' → Q v v')
    (htake : ∀ query v, Q v (takePart s m drain (fun e _ => e.wave) true query v))
    (v : Shared L J W) : ∃ u, Q v u ∧ (waveJob s m drain v = u ∨ waveJob s m drain v = u.append .wave) := by
  have hfold : ∀ (queries : List Nat) (v : Shared L J W), Q v (queries.foldl
      (fun v query => takePart s m drain (fun e _ => e.wave) true query v) v) := by
    intro queries
    induction queries with
    | nil => exact hrefl
    | cons query queries ih => exact fun v => htrans (htake query v) (ih _)
  refine ⟨_, hfold (List.range v.runs.length) v, ?_⟩
  unfold waveJob
  simp only
  split
  · exact .inr rfl
  · exact .inl rfl

/-- The queue is run until no job waits, unless there is a reason to stop. -/
theorem queue_drainQueue (jobs : Nat) (v : Shared L J W) :
    (drainQueue s m fuel jobs v).queue = [] ∨ (drainQueue s m fuel jobs v).halt ≠ none := by
  induction jobs generalizing v with
  | zero =>
    rw [drainQueue]
    split
    · next h => exact .inl (List.isEmpty_iff.1 h)
    · exact .inr (by cases hv : v.halt <;> simp [Shared.stop, hv])
  | succ jobs ih =>
    rw [drainQueue]
    split
    · next h => exact .inl h
    · exact ih _

/-- What the parts of runs keep is kept by jobs, if the queue does not matter to it. -/
theorem Kept.of_took (hrefl : ∀ v, Q v v) (htrans : ∀ {v v₁ v'}, Q v v₁ → Q v₁ v' → Q v v')
    (hframe : ∀ (v : Shared L J W) world queue, Q v { v with world := world, queue := queue })
    (hunfinished : ∀ v, Q v (v.stop (some .unfinished)))
    (htook : ∀ {v v' query inWave}, Took Q query inWave v v' → Q v v') : Kept s m fuel Q := by
  have hlasts : Lasts Q := ⟨hrefl, htrans, fun v world => hframe v world v.queue,
    fun v _ => hframe v v.world _⟩
  refine ⟨hlasts, hunfinished, fun _ => hframe _ _ _, fun {jobs v query rest} hd _ => ?_,
    fun {jobs v rest} hd _ => ?_⟩
  · have hdoes := hlasts.does s.host hd
    exact htrans (hframe v v.world rest) (htook (took_takePart (begin_calls hdoes m fuel) query _))
  · have hdoes := hlasts.does s.host hd
    obtain ⟨u, hu, he | he⟩ := waveJob_cases hrefl htrans
      (fun query v => htook (took_takePart (wave_calls hdoes m) query v)) { v with queue := rest }
    · exact he ▸ htrans (hframe v v.world rest) hu
    · exact he ▸ htrans (htrans (hframe v v.world rest) hu) (hframe u u.world _)

end Multiplex

end GraphQL
