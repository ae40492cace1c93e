import GraphQL.Execution.Preparation
import GraphQL.Execution.Query

/-!
# Running requests together

The queries of a multiplex share the world of their host. All of them begin, one after the other;
then their deferred values are completed wave by wave, each wave going through all queries. Between
two waves the jobs of the host get their turn, so that what the queries asked for since is loaded
together.
-/

namespace GraphQL

/-- What requests are executed against. -/
structure Schema (ρ L W : Type) where
  registry : Registry ρ
  host : Host ρ L W
  config : Config
  data : Data

/-- A request while it is run together with others. -/
inductive QueryRun (L : Type) where
  /-- It was refused before it could begin. -/
  | refused (errors : List Error)
  /-- Its document has no operation. -/
  | idle
  | running (query : Prepared) (data : Data) (progress : Progress L)

namespace QueryRun

variable {L : Type}

def complexity : QueryRun L → Nat
  | running query _ _ => query.plan.complexity
  | _ => 0

/-- The complexity of several requests together. -/
def totalComplexity : List (QueryRun L) → Nat
  | [] => 0
  | run :: rest => run.complexity + totalComplexity rest

def isPending : QueryRun L → Bool
  | running _ _ progress => progress.isPending
  | _ => false

/-- Refuses a request that has not begun. -/
def refuse (errors : List Error) : QueryRun L → QueryRun L
  | running _ _ _ => refused errors
  | run => run

def response : QueryRun L → Response
  | refused errors => .refused errors
  | idle => .empty
  | running _ _ progress => progress.response

end QueryRun

/-- Requests to run together, with data for their resolvers and a limit to their complexity. -/
structure Multiplex where
  requests : List Request
  data : Data
  maxComplexity : Option Nat

namespace Multiplex

variable {ρ L W : Type}

/-- Requests without anything in common. -/
def ofRequests (requests : List Request) : Multiplex :=
  ⟨requests, [], none⟩

/-- A request before it begins. -/
def receive (s : Schema ρ L W) (r : Request) : QueryRun L :=
  match r.prepare s.registry s.config with
  | .error errors => .refused errors
  | .ok none => .idle
  | .ok (some query) => .running query r.data .fresh

/-- All requests before they begin. When they are too complex together, none of them does. -/
def receiveAll (s : Schema ρ L W) (m : Multiplex) : List (QueryRun L) :=
  let runs := m.requests.map (receive s)
  let complexity := QueryRun.totalComplexity runs
  match Config.exceeded m.maxComplexity complexity with
  | some limit => runs.map (QueryRun.refuse (Refusal.complexity complexity limit).toErrors)
  | none => runs

/-- What a query of a multiplex runs with. -/
def execution (s : Schema ρ L W) (m : Multiplex) (query : Prepared) (data : Data) :
    Execution ρ L W :=
  ⟨s.registry, s.host, query.variableValues, [data, m.data, s.data]⟩

/-- Has a query take a part of its run. -/
def advance (s : Schema ρ L W) (m : Multiplex)
    (part : Execution ρ L W → Plan → Running L W Unit) (run : QueryRun L) (world : W) :
    Option Halt × QueryRun L × W :=
  match run with
  | .running query data progress =>
    match (part (execution s m query data) query.plan).run (progress, world) with
    | (.ok (), progress, world) => (none, .running query data progress, world)
    | (.error halt, progress, world) => (some halt, .running query data progress, world)
  | run => (none, run, world)

/-- Has each query take a part of its run, up to one that stops everything. -/
def advanceAll (s : Schema ρ L W) (m : Multiplex)
    (part : Execution ρ L W → Plan → Running L W Unit) :
    List (QueryRun L) → W → Option Halt × List (QueryRun L) × W
  | [], world => (none, [], world)
  | run :: rest, world =>
    match advance s m part run world with
    | (some halt, run, world) => (some halt, run :: rest, world)
    | (none, run, world) =>
      let (halt, rest, world) := advanceAll s m part rest world
      (halt, run :: rest, world)

/-- Runs waves through all queries until nothing is deferred. -/
def waves (s : Schema ρ L W) (m : Multiplex) :
    (fuel : Nat) → List (QueryRun L) → W → Option Halt × List (QueryRun L) × W
  | 0, runs, world => (some .unfinished, runs, world)
  | fuel + 1, runs, world =>
    match advanceAll s m (fun e _ => e.wave) runs world with
    | (some halt, runs, world) => (some halt, runs, world)
    | (none, runs, world) =>
      if runs.any QueryRun.isPending then waves s m fuel runs (s.host.turn world)
      else (none, runs, world)

/-- The responses, one for each request, unless something stopped everything. -/
def outcome (halt : Option Halt) (runs : List (QueryRun L)) : Except Halt (List Response) :=
  match halt with
  | some halt => .error halt
  | none => .ok (runs.map QueryRun.response)

/-- Has all requests begin and go through their waves. The fuel bounds the number of waves. -/
def settle (s : Schema ρ L W) (m : Multiplex) (fuel : Nat) (world : W) :
    Option Halt × List (QueryRun L) × W :=
  let (halt, runs, world) :=
    advanceAll s m (fun e plan => e.begin fuel plan) (m.receiveAll s) world
  let world := s.host.drain world
  match halt with
  | some halt => (some halt, runs, world)
  | none => waves s m fuel runs world

/-- Runs the requests. -/
def run (s : Schema ρ L W) (m : Multiplex) (fuel : Nat) (world : W) :
    Except Halt (List Response) × W :=
  let (halt, runs, world) := m.settle s fuel world
  (outcome halt runs, s.host.drain world)

end Multiplex

namespace Halt

def message : Halt → String
  | internal message => s!"internal error: {message}"
  | unfinished => "internal error: deferred values without end"

end Halt

namespace Schema

variable {ρ L W : Type}

/-- Runs requests together. -/
def runAll (s : Schema ρ L W) (requests : List Request) (fuel : Nat) (world : W) :
    Except Halt (List Response) × W :=
  (Multiplex.ofRequests requests).run s fuel world

/-- Runs a single request. -/
def execute (s : Schema ρ L W) (r : Request) (fuel : Nat) (world : W) :
    Except Halt Response × W :=
  let (responses, world) := s.runAll [r] fuel world
  (responses.map fun responses => responses.getLast?.getD .empty, world)

end Schema

end GraphQL
