import GraphQL.Multiplex

/-!
# Requests in a queue

Requests that run together wait as jobs in a queue. Each begins in a job of its own; then a job is
a wave through all of them, and queues the next wave as long as anything is deferred. A host has the
queue at hand whenever it is called: it may append jobs of its own, and it may even run the queue
from inside a call. Then the jobs that wait are done before the call ends, and with them other
queries may begin.

`Multiplex.run` is what this comes to for a host that leaves the running of the queue to others.
-/

namespace GraphQL

/-- A lazy, and the position of the field that it comes from. -/
structure Placed (L : Type) where
  lazy : L
  path : Path

/-- The outcome of a call for a position, at which the lazies of its value are placed. -/
def Outcome.placed {L : Type} (path : Path) (outcome : Outcome L) : Outcome (Placed L) :=
  outcome.map (Tree.mapLater fun lazy => ⟨lazy, path⟩)

/-- What a host does with its world, in `W`, and the queue, to which it appends jobs in `J`. -/
inductive Activity (J W α : Type) where
  | done (result : α)
  | read (next : W → Activity J W α)
  | write (world : W) (next : Activity J W α)
  | append (job : J) (next : Activity J W α)
  /-- Whether jobs wait. -/
  | hasJobs (next : Bool → Activity J W α)
  /-- Runs jobs until none waits. -/
  | drain (next : Activity J W α)

/-- A host that has the queue at hand. -/
structure QueueHost (ρ L J W : Type) where
  /-- Resolves a field, given the entries that the response of its query has so far. -/
  resolve : Option ρ → FieldContext → Assoc Json → Activity J W (Outcome L × Assoc Json)
  /-- The result of a lazy. -/
  force : L → Activity J W (Outcome L)
  /-- Does a job that the host has appended. -/
  perform : J → Activity J W Unit

/-- What requests in a queue are executed against. -/
structure QueueSchema (ρ L J W : Type) where
  registry : Registry ρ
  host : QueueHost ρ L J W
  config : Config
  data : Data

inductive QueuedJob (J : Type) where
  /-- A query begins. -/
  | begin (query : Nat)
  /-- A wave goes through all queries. -/
  | wave
  | host (job : J)

/-- Where a host is called: for which query and position, and whether in a wave through all
queries. -/
structure Site where
  query : Nat
  path : Path
  inWave : Bool
  deriving DecidableEq

/-- A call is entered, or it is left with what it gives. `around` are the calls that have been
entered before and not been left, innermost first: those in which the queue is being run. -/
inductive Moment (L : Type) where
  | enter (site : Site) (around : List Site)
  | leave (site : Site) (around : List Site) (outcome : Outcome L)

/-- What requests in a queue share, and what has been called so far. -/
structure Shared (L J W : Type) where
  world : W
  queue : List (QueuedJob J)
  runs : List (QueryRun (Placed L))
  /-- What stopped everything, the first of several such reasons. -/
  halt : Option Halt
  /-- The calls that have not been left, innermost first. -/
  calls : List Site
  record : List (Moment L)

namespace Shared

variable {L J W : Type}

def stop (v : Shared L J W) (halt : Option Halt) : Shared L J W :=
  { v with halt := v.halt.or halt }

def append (v : Shared L J W) (job : QueuedJob J) : Shared L J W :=
  { v with queue := v.queue ++ [job] }

def enter (v : Shared L J W) (site : Site) : Shared L J W :=
  { v with calls := site :: v.calls, record := v.record ++ [.enter site v.calls] }

def leave (v : Shared L J W) (site : Site) (outcome : Outcome L) : Shared L J W :=
  { v with calls := v.calls.tail, record := v.record ++ [.leave site v.calls.tail outcome] }

end Shared

variable {ρ L J W α : Type}

/-- Does what a host does, with a way to run the queue. -/
def Activity.run (drain : Shared L J W → Shared L J W) :
    Activity J W α → Shared L J W → α × Shared L J W
  | done result, v => (result, v)
  | read next, v => (next v.world).run drain v
  | write world next, v => next.run drain { v with world := world }
  | append job next, v => next.run drain (v.append (.host job))
  | hasJobs next, v => (next !v.queue.isEmpty).run drain v
  | Activity.drain next, v => next.run drain (drain v)

/-- The host as a query calls it. Its world is all that is shared, and its calls are recorded. -/
def QueueHost.at (h : QueueHost ρ L J W) (drain : Shared L J W → Shared L J W) (query : Nat)
    (inWave : Bool) : Host ρ (Placed L) (Shared L J W) where
  resolve resolver ctx entries v :=
    let site : Site := ⟨query, ctx.path, inWave⟩
    let ((outcome, entries), v) := (h.resolve resolver ctx entries).run drain (v.enter site)
    (outcome.placed ctx.path, entries, v.leave site outcome)
  force lazy v :=
    let site : Site := ⟨query, lazy.path, inWave⟩
    let (outcome, v) := (h.force lazy.lazy).run drain (v.enter site)
    (outcome.placed lazy.path, v.leave site outcome)
  -- jobs have their turns in the queue
  turn := id
  drain := id

/-- What a query is executed against. -/
def QueueSchema.at (s : QueueSchema ρ L J W) (drain : Shared L J W → Shared L J W) (query : Nat)
    (inWave : Bool) : Schema ρ (Placed L) (Shared L J W) :=
  ⟨s.registry, s.host.at drain query inWave, s.config, s.data⟩

namespace Multiplex

section

variable (s : QueueSchema ρ L J W) (m : Multiplex) (fuel : Nat)
  (drain : Shared L J W → Shared L J W)

/-- Has a query take a part of its run, unless something has stopped everything. -/
def takePart
    (part : Execution ρ (Placed L) (Shared L J W) → Plan → Running (Placed L) (Shared L J W) Unit)
    (inWave : Bool) (query : Nat) (v : Shared L J W) : Shared L J W :=
  match v.halt, v.runs[query]? with
  | none, some run =>
    let (halt, run, v) := advance (s.at drain query inWave) m part run v
    { v with runs := v.runs.set query run }.stop halt
  | _, _ => v

def beginJob (query : Nat) (v : Shared L J W) : Shared L J W :=
  takePart s m drain (fun e plan => e.begin fuel plan) false query v

/-- A wave, which queues the next one if there is anything left for it. -/
def waveJob (v : Shared L J W) : Shared L J W :=
  let v := (List.range v.runs.length).foldl
    (fun v query => takePart s m drain (fun e _ => e.wave) true query v) v
  if v.halt.isNone && v.runs.any QueryRun.isPending then v.append .wave else v

def performJob (job : QueuedJob J) (v : Shared L J W) : Shared L J W :=
  match job with
  | .begin query => beginJob s m fuel drain query v
  | .wave => waveJob s m drain v
  | .host job => ((s.host.perform job).run drain v).2

end

variable (s : QueueSchema ρ L J W) (m : Multiplex) (fuel : Nat)

/-- Runs jobs in their order until none waits, those that are queued meanwhile included. The second
number bounds how many there may be, one inside the other and one after the other. -/
def drainQueue : Nat → Shared L J W → Shared L J W
  | 0, v => if v.queue.isEmpty then v else v.stop (some .unfinished)
  | jobs + 1, v =>
    match v.queue with
    | [] => v
    | job :: rest =>
      drainQueue jobs (performJob s m fuel (drainQueue jobs) job { v with queue := rest })

/-- Nothing has been called, and all requests wait for their jobs. -/
def queued (world : W) : Shared L J W where
  world := world
  queue := (List.range m.requests.length).map .begin
  runs := m.receiveAll (s.at id 0 false)
  halt := none
  calls := []
  record := []

/-- All requests have begun. -/
def begun (jobs : Nat) (world : W) : Shared L J W :=
  drainQueue s m fuel jobs (queued s m world)

/-- No job waits any more. -/
def drained (jobs : Nat) (world : W) : Shared L J W :=
  drainQueue s m fuel jobs ((begun s m fuel jobs world).append .wave)

/-- Runs the requests as jobs of a queue. -/
def runQueued (jobs : Nat) (world : W) : Except Halt (List Response) × W :=
  let v := drained s m fuel jobs world
  (outcome v.halt v.runs, v.world)

end Multiplex

end GraphQL
