import GraphQL.Source
import GraphQL.Tree

/-!
# Deferred work

Lazies, batch sources and jobs. A lazy is a computation that is run at most once, when it is first
forced; sources load keys in batches; jobs wait in a queue. `Script` describes work that uses them,
`Store` holds the state they are in.

Everything happens in one thread: scripts run one after the other, or one inside the other.
-/

namespace GraphQL.Deferred

/-- A lazy, by its number in the store. -/
abbrev Ref :=
  Nat

/-- A source, by the kind of its loader: a store has one source for each kind. -/
abbrev SourceId :=
  Nat

/-- What a script or a lazy gives. -/
abbrev Result (α ε : Type) :=
  Except ε (Tree α Ref)

/-- Work on a store, with leaves in `α`, errors in `ε`, keys in `κ` and a state of its own in `σ`:
it is done, or takes one step and goes on with what the step gives. -/
inductive Script (α ε κ σ : Type) where
  | done (result : Result α ε)
  /-- Looks at the state. -/
  | read (next : σ → Script α ε κ σ)
  /-- Changes the state. -/
  | write (state : σ) (next : Script α ε κ σ)
  /-- Makes a lazy that runs a script when it is forced. -/
  | defer (thunk : Script α ε κ σ) (next : Ref → Script α ε κ σ)
  /-- Makes a lazy whose result is known. -/
  | ready (result : Result α ε) (next : Ref → Script α ε κ σ)
  /-- The result of a lazy, which is run if it has not been. -/
  | force (ref : Ref) (next : Result α ε → Script α ε κ σ)
  | isResolved (ref : Ref) (next : Bool → Script α ε κ σ)
  /-- Replaces all lazies in a value by their results, down to the last one. -/
  | deep (tree : Tree α Ref) (next : Result α ε → Script α ε κ σ)
  /-- Queues a job. -/
  | job (work : Script α ε κ σ) (next : Script α ε κ σ)
  | hasJobs (next : Bool → Script α ε κ σ)
  /-- Runs jobs until none is left. -/
  | run (next : Script α ε κ σ)
  /-- Gives up the queue. -/
  | close (next : Script α ε κ σ)
  /-- Makes the source of a kind, unless there is one, and tells whether there is a queue that it
  belongs to. To load keys it runs a script, whose result is not used, and then reads the answer
  off the state. -/
  | source (id : SourceId) (work : List κ → Script α ε κ σ) (answer : List κ → σ → Loaded κ α ε)
      (next : Bool → Script α ε κ σ)
  /-- Asks a source for a key. -/
  | request (id : SourceId) (key : κ) (next : Script α ε κ σ)
  /-- The answer of a source to a key, which is loaded if it has not been. -/
  | await (id : SourceId) (key : κ) (next : Except ε (Option α) → Script α ε κ σ)
  /-- Has a source load its pending keys. -/
  | sync (id : SourceId) (next : Script α ε κ σ)
  | isPending (id : SourceId) (next : Bool → Script α ε κ σ)

namespace Script

variable {α ε κ σ : Type}

/-- Work that is done. -/
def nothing : Script α ε κ σ :=
  .done (.ok (.list []))

/-- The job that flushes a source. -/
def flush (id : SourceId) : Script α ε κ σ :=
  .sync id .nothing

/-- A lazy for a function of the result of another one. Nothing runs until it is forced. -/
def andThen (ref : Ref) (f : Result α ε → Script α ε κ σ) (next : Ref → Script α ε κ σ) :
    Script α ε κ σ :=
  .defer (.force ref f) next

/-- Asks for a key and makes the lazy of its answer. -/
def load (missing : α) (id : SourceId) (key : κ) (next : Ref → Script α ε κ σ) :
    Script α ε κ σ :=
  .request id key
    (.defer (.await id key fun answer => .done (answer.map fun value => .leaf (value.getD missing)))
      next)

/-- The answers to several keys, up to the first error. -/
def awaitAll (missing : α) (id : SourceId) :
    List κ → (Except ε (List (Tree α Ref)) → Script α ε κ σ) → Script α ε κ σ
  | [], next => next (.ok [])
  | key :: rest, next =>
    .await id key fun
      | .error e => next (.error e)
      | .ok value =>
        awaitAll missing id rest fun values =>
          next (values.map fun values => .leaf (value.getD missing) :: values)

/-- Asks for several keys and makes the lazy of the list of their answers. -/
def loadMany (missing : α) (id : SourceId) (keys : List κ) (next : Ref → Script α ε κ σ) :
    Script α ε κ σ :=
  keys.foldr (.request id)
    (.defer (awaitAll missing id keys fun values => .done (values.map .list)) next)

end Script

/-- The state of a lazy. -/
inductive Cell (α ε κ σ : Type) where
  | pending (thunk : Script α ε κ σ)
  /-- Its script is running. -/
  | forcing
  | resolved (result : Result α ε)

/-- A source with the loader it was made with. -/
structure Batch (α ε κ σ : Type) where
  id : SourceId
  work : List κ → Script α ε κ σ
  answer : List κ → σ → Loaded κ α ε
  source : Source κ α ε

/-- The jobs that wait, whether the queue is still held by its owner, and how many runs of it are
under way. -/
structure Queue (α ε κ σ : Type) where
  jobs : List (Script α ε κ σ)
  held : Bool
  runs : Nat

namespace Queue

variable {α ε κ σ : Type}

def fresh : Queue α ε κ σ :=
  ⟨[], true, 0⟩

/-- Whether anything still has the queue. -/
def isAlive (q : Queue α ε κ σ) : Bool :=
  q.held || q.runs != 0

/-- Puts a job at the end. -/
def append (q : Queue α ε κ σ) (job : Script α ε κ σ) : Queue α ε κ σ :=
  { q with jobs := q.jobs ++ [job] }

/-- The queue, which loses its jobs when nothing has it any more. -/
def settled (q : Queue α ε κ σ) : Queue α ε κ σ :=
  if q.isAlive then q else { q with jobs := [] }

def entered (q : Queue α ε κ σ) : Queue α ε κ σ :=
  { q with runs := q.runs + 1 }

def left (q : Queue α ε κ σ) : Queue α ε κ σ :=
  settled { q with runs := q.runs - 1 }

def released (q : Queue α ε κ σ) : Queue α ε κ σ :=
  settled { q with held := false }

end Queue

/-- The state that scripts work on. -/
structure Store (α ε κ σ : Type) where
  state : σ
  cells : Array (Cell α ε κ σ)
  sources : List (Batch α ε κ σ)
  queue : Queue α ε κ σ

namespace Store

variable {α ε κ σ : Type}

def fresh (state : σ) : Store α ε κ σ :=
  ⟨state, #[], [], .fresh⟩

/-- Adds a lazy, whose number is the number of lazies so far. -/
def alloc (s : Store α ε κ σ) (cell : Cell α ε κ σ) : Store α ε κ σ :=
  { s with cells := s.cells.push cell }

def setCell (s : Store α ε κ σ) (ref : Ref) (cell : Cell α ε κ σ) : Store α ε κ σ :=
  { s with cells := s.cells.setIfInBounds ref cell }

def isResolved (s : Store α ε κ σ) (ref : Ref) : Bool :=
  match s.cells[ref]? with
  | some (.resolved _) => true
  | _ => false

def batch? (s : Store α ε κ σ) (id : SourceId) : Option (Batch α ε κ σ) :=
  s.sources.find? fun b => b.id = id

/-- The source of a kind, one that was never asked when there is none. -/
def source (s : Store α ε κ σ) (id : SourceId) : Source κ α ε :=
  match s.batch? id with
  | some b => b.source
  | none => ⟨[], [], false⟩

def setSource (s : Store α ε κ σ) (id : SourceId) (source : Source κ α ε) : Store α ε κ σ :=
  { s with sources := s.sources.map fun b => if b.id = id then { b with source := source } else b }

/-- Adds a source while there is a queue to flush it, unless there is one of its kind. -/
def addSource (s : Store α ε κ σ) (b : Batch α ε κ σ) : Store α ε κ σ :=
  if s.queue.held && (s.batch? b.id).isNone then { s with sources := s.sources ++ [b] } else s

/-- Queues a job, if the owner still has the queue. -/
def addJob (s : Store α ε κ σ) (job : Script α ε κ σ) : Store α ε κ σ :=
  if s.queue.held then { s with queue := s.queue.append job } else s

/-- Asks a source for a key and queues its flush where one is called for. -/
def request [DecidableEq κ] (s : Store α ε κ σ) (id : SourceId) (key : κ) : Store α ε κ σ :=
  match s.batch? id with
  | none => s
  | some b =>
    let s' := s.setSource id (b.source.request key)
    if b.source.needsFlush key && s.queue.isAlive then
      { s' with queue := s'.queue.append (.flush id) }
    else s'

end Store

end GraphQL.Deferred
