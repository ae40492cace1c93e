import GraphQL.Deferred

/-!
# Running deferred work

`Script.runFor` runs a script on a store. Scripts that are stored — in lazies, jobs and loaders —
run one inside the other; the fuel bounds how deep, and how long the queue is run. A lazy that is
forced while its own script is running ends all that runs: what was changed stays, and the lazies
whose scripts were cut off stay as they are, forced but never resolved.
-/

namespace GraphQL.Deferred

/-- How running a script ends. -/
inductive Ran (α ε κ σ ρ : Type) where
  | ok (result : ρ) (store : Store α ε κ σ)
  /-- A lazy was forced from its own script. -/
  | reentered (store : Store α ε κ σ)
  /-- The fuel did not suffice. -/
  | exhausted

namespace Ran

variable {α ε κ σ ρ τ : Type}

/-- Goes on with a result. -/
def bind (r : Ran α ε κ σ ρ) (next : ρ → Store α ε κ σ → Ran α ε κ σ τ) : Ran α ε κ σ τ :=
  match r with
  | ok result store => next result store
  | reentered store => reentered store
  | exhausted => exhausted

/-- Does something to the store, however the script ended. -/
def afterwards (r : Ran α ε κ σ ρ) (f : Store α ε κ σ → Store α ε κ σ) : Ran α ε κ σ ρ :=
  match r with
  | ok result store => ok result (f store)
  | reentered store => reentered (f store)
  | exhausted => exhausted

end Ran

variable {α ε κ σ : Type} [DecidableEq κ]

/-- Runs stored scripts. -/
abbrev Runner (α ε κ σ : Type) :=
  Script α ε κ σ → Store α ε κ σ → Ran α ε κ σ (Result α ε)

namespace Store

/-- The result of a lazy. -/
def force (run : Runner α ε κ σ) (s : Store α ε κ σ) (ref : Ref) :
    Ran α ε κ σ (Result α ε) :=
  match s.cells[ref]? with
  | some (.resolved result) => .ok result s
  | some (.pending thunk) =>
    (run thunk (s.setCell ref .forcing)).bind fun result s =>
      .ok result (s.setCell ref (.resolved result))
  | some .forcing | none => .reentered s

/-- Each item of a list in turn, up to the first error. -/
def deepItems (deep : Store α ε κ σ → Tree α Ref → Ran α ε κ σ (Result α ε)) :
    Store α ε κ σ → List (Tree α Ref) → Ran α ε κ σ (Except ε (List (Tree α Ref)))
  | s, [] => .ok (.ok []) s
  | s, item :: rest =>
    (deep s item).bind fun result s =>
      match result with
      | .error e => .ok (.error e) s
      | .ok item =>
        (deepItems deep s rest).bind fun result s => .ok (result.map fun rest => item :: rest) s

/-- A value with all its lazies replaced by their results. -/
def deep (run : Runner α ε κ σ) :
    Nat → Store α ε κ σ → Tree α Ref → Ran α ε κ σ (Result α ε)
  | 0, _, _ => .exhausted
  | _ + 1, s, .leaf value => .ok (.ok (.leaf value)) s
  | n + 1, s, .list items =>
    (deepItems (deep run n) s items).bind fun result s => .ok (result.map .list) s
  | n + 1, s, .later ref =>
    (s.force run ref).bind fun result s =>
      match result with
      | .error e => .ok (.error e) s
      | .ok tree => deep run n s tree

/-- Runs the first job, and so on until the queue is empty. -/
def drain (run : Runner α ε κ σ) : Nat → Store α ε κ σ → Ran α ε κ σ Unit
  | n, s =>
    match s.queue.jobs with
    | [] => .ok () s
    | job :: rest =>
      match n with
      | 0 => .exhausted
      | n + 1 =>
        (run job { s with queue := { s.queue with jobs := rest } }).bind fun _ s => drain run n s

/-- Runs the queue, if the owner still has it. -/
def runQueue (run : Runner α ε κ σ) (n : Nat) (s : Store α ε κ σ) : Ran α ε κ σ Unit :=
  if s.queue.held then
    (drain run n { s with queue := s.queue.entered }).afterwards fun s =>
      { s with queue := s.queue.left }
  else .ok () s

/-- Has a source load its pending keys. -/
def sync (run : Runner α ε κ σ) (s : Store α ε κ σ) (id : SourceId) : Ran α ε κ σ Unit :=
  match s.batch? id with
  | none => .ok () s
  | some b =>
    let keys := b.source.pending
    let s := s.setSource id b.source.taken
    if keys.isEmpty then .ok () s
    else
      (run (b.work keys) s).bind fun _ s =>
        .ok () (s.setSource id ((s.source id).store keys (b.answer keys s.state)))

/-- The answer of a source to a key. Keys that were asked for since are left alone when the answer
is known. -/
def await (run : Runner α ε κ σ) (s : Store α ε κ σ) (id : SourceId) (key : κ) :
    Ran α ε κ σ (Except ε (Option α)) :=
  if ((s.source id).answer? key).isSome then .ok ((s.source id).answer key) s
  else (s.sync run id).bind fun _ s => .ok ((s.source id).answer key) s

end Store

namespace Script

/-- Runs a script, given how the scripts that are stored are run. -/
def exec (run : Runner α ε κ σ) (n : Nat) :
    Script α ε κ σ → Store α ε κ σ → Ran α ε κ σ (Result α ε)
  | .done result, s => .ok result s
  | .read next, s => exec run n (next s.state) s
  | .write state next, s => exec run n next { s with state := state }
  | .defer thunk next, s => exec run n (next s.cells.size) (s.alloc (.pending thunk))
  | .ready result next, s => exec run n (next s.cells.size) (s.alloc (.resolved result))
  | .force ref next, s => (s.force run ref).bind fun result s => exec run n (next result) s
  | .isResolved ref next, s => exec run n (next (s.isResolved ref)) s
  | .deep tree next, s => (s.deep run n tree).bind fun result s => exec run n (next result) s
  | .job work next, s => exec run n next (s.addJob work)
  | .hasJobs next, s => exec run n (next (s.queue.held && !s.queue.jobs.isEmpty)) s
  | .run next, s => (s.runQueue run n).bind fun _ s => exec run n next s
  | .close next, s => exec run n next { s with queue := s.queue.released }
  | .source id work answer next, s =>
    exec run n (next s.queue.held) (s.addSource ⟨id, work, answer, .fresh⟩)
  | .request id key next, s => exec run n next (s.request id key)
  | .await id key next, s =>
    (s.await run id key).bind fun answer s => exec run n (next answer) s
  | .sync id next, s => (s.sync run id).bind fun _ s => exec run n next s
  | .isPending id next, s => exec run n (next (s.source id).isPending) s

/-- Runs a script with a given fuel. -/
def runFor : Nat → Script α ε κ σ → Store α ε κ σ → Ran α ε κ σ (Result α ε)
  | 0, _, _ => .exhausted
  | n + 1, script, s => exec (runFor n) n script s

end Script

end GraphQL.Deferred
