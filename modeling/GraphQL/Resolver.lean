import GraphQL.Multiplex
import GraphQL.Source

/-!
# Resolvers

A resolver turns the context of its field into a `Resolution`: work that ends with a value, after
leaving traces, asking sources for keys, or adding to the response. A lazy is such work that has not
been done yet. `World.host` is the host of a schema whose fields have resolvers, wrapped by
middleware.
-/

namespace GraphQL

/-- Loads keys for a source. -/
structure Loader where
  /-- The traces that loading leaves. -/
  traces : List String → List String
  load : List String → Loaded String Json FieldError

/-- A source, by the kind of its loader. -/
abbrev SourceKind :=
  Nat

/-- The work of a resolver: it is done, or takes one step and goes on. -/
inductive Resolution where
  | done (outcome : Except FieldError (Tree Json Resolution))
  /-- Leaves a trace. -/
  | trace (line : String) (next : Resolution)
  /-- Adds an entry to the response, in place of one with the same key. -/
  | extend (key : String) (value : Json) (next : Resolution)
  /-- Counts one more of a kind, and goes on with how many there are. -/
  | count (kind : String) (next : Nat → Resolution)
  /-- Makes the source of a kind, unless there is one. -/
  | source (kind : SourceKind) (loader : Loader) (next : Resolution)
  /-- Asks a source for a key. -/
  | request (kind : SourceKind) (key : String) (next : Resolution)
  /-- The answer of a source to a key, which is loaded if it has not been. -/
  | await (kind : SourceKind) (key : String) (next : Except FieldError (Option Json) → Resolution)

instance : Inhabited Resolution :=
  ⟨.done (.ok (.leaf .null))⟩

namespace Resolution

/-- A value with deferred parts. -/
abbrev Value :=
  FieldValue Resolution

def value (v : Value) : Resolution :=
  .done (.ok v)

def json (j : Json) : Resolution :=
  .done (.ok (.leaf j))

def error (e : FieldError) : Resolution :=
  .done (.error e)

/-- Goes on with the outcome. -/
def andThen (f : Outcome Resolution → Resolution) : Resolution → Resolution
  | done outcome => f outcome
  | trace line next => .trace line (next.andThen f)
  | extend key value next => .extend key value (next.andThen f)
  | count kind next => .count kind fun n => (next n).andThen f
  | source kind loader next => .source kind loader (next.andThen f)
  | request kind key next => .request kind key (next.andThen f)
  | await kind key next => .await kind key fun answer => (next answer).andThen f

/-- The work as a value to be had later. -/
def defer (r : Resolution) : Resolution :=
  value (.later r)

mutual

/-- Goes on with the outcome, in which nothing is deferred any more. -/
def settle : Resolution → (Outcome Resolution → Resolution) → Resolution
  | done (.ok v), f => settleValue v f
  | done (.error e), f => f (.error e)
  | trace line next, f => .trace line (next.settle f)
  | extend key value next, f => .extend key value (next.settle f)
  | count kind next, f => .count kind fun n => (next n).settle f
  | source kind loader next, f => .source kind loader (next.settle f)
  | request kind key next, f => .request kind key (next.settle f)
  | await kind key next, f => .await kind key fun answer => (next answer).settle f

/-- Goes on with a value, in which nothing is deferred any more. -/
def settleValue : Tree Json Resolution → (Outcome Resolution → Resolution) → Resolution
  | .leaf j, f => f (.ok (.leaf j))
  | .list items, f => settleItems items fun items => f (items.map .list)
  | .later r, f => r.settle f

/-- Goes on with values, up to the first error. -/
def settleItems :
    List (Tree Json Resolution) →
      (Except FieldError (List (Tree Json Resolution)) → Resolution) → Resolution
  | [], f => f (.ok [])
  | item :: rest, f =>
    settleValue item fun
      | .error e => f (.error e)
      | .ok item => settleItems rest fun rest => f (rest.map fun rest => item :: rest)

end

/-- The outcome of an answer; a key that was not found gives null. -/
def ofAnswer (answer : Except FieldError (Option Json)) : Resolution :=
  .done (answer.map fun value => .leaf (value.getD .null))

/-- Asks for a key; the value is had later. -/
def load (kind : SourceKind) (loader : Loader) (key : String) : Resolution :=
  .source kind loader (.request kind key (.defer (.await kind key ofAnswer)))

/-- Goes on with the answers to several keys, up to the first error. -/
def awaitAll (kind : SourceKind) :
    List String → (Except FieldError (List Value) → Resolution) → Resolution
  | [], f => f (.ok [])
  | key :: rest, f =>
    .await kind key fun
      | .error e => f (.error e)
      | .ok value =>
        awaitAll kind rest fun values => f (values.map fun values => .leaf (value.getD .null) :: values)

/-- Asks for several keys; the list of their values is had later. -/
def loadMany (kind : SourceKind) (loader : Loader) (keys : List String) : Resolution :=
  .source kind loader
    (keys.foldr (.request kind)
      (.defer (awaitAll kind keys fun values => .done (values.map .list))))

end Resolution

/-- What computes the value of a field. -/
abbrev Resolver :=
  FieldContext → Resolution

/-- What stands around the resolvers of a schema: it is given the rest of the work, and may do it
or not. -/
abbrev Middleware :=
  FieldContext → Resolution → Resolution

/-- The work for a field: all middleware around its resolver, the first one outermost. A field
without a resolver has the value of its key in the parent. -/
def resolution (middleware : List Middleware) (resolver : Option Resolver) (ctx : FieldContext) :
    Resolution :=
  middleware.foldr (fun m next => m ctx next)
    (match resolver with
      | some resolver => resolver ctx
      | none => .json ctx.ofParent)

/-- A source with its loader. -/
structure Supply where
  kind : SourceKind
  loader : Loader
  source : Source String Json FieldError

/-- What resolvers leave behind: traces, counts, sources, and the flushes that wait for their
turn. -/
structure World where
  traces : List String
  counts : Assoc Nat
  supplies : List Supply
  flushes : List SourceKind

namespace World

/-- The world before anything runs. -/
def fresh : World :=
  ⟨[], [], [], []⟩

def trace (w : World) (lines : List String) : World :=
  { w with traces := w.traces ++ lines }

def supply? (w : World) (kind : SourceKind) : Option Supply :=
  w.supplies.find? fun s => s.kind = kind

/-- The source of a kind, one that was never asked when there is none. -/
def source (w : World) (kind : SourceKind) : Source String Json FieldError :=
  match w.supply? kind with
  | some s => s.source
  | none => .fresh

def setSource (w : World) (kind : SourceKind) (source : Source String Json FieldError) : World :=
  { w with supplies :=
      w.supplies.map fun s => if s.kind = kind then { s with source := source } else s }

def addSupply (w : World) (s : Supply) : World :=
  if (w.supply? s.kind).isSome then w else { w with supplies := w.supplies ++ [s] }

/-- Asks a source for a key and queues its flush where one is called for. -/
def request (w : World) (kind : SourceKind) (key : String) : World :=
  let s := w.source kind
  let w' := w.setSource kind (s.request key)
  if s.needsFlush key then { w' with flushes := w'.flushes ++ [kind] } else w'

/-- Has a source load its pending keys. -/
def sync (w : World) (kind : SourceKind) : World :=
  match w.supply? kind with
  | none => w
  | some s =>
    let keys := s.source.pending
    let w := w.setSource kind s.source.taken
    if keys.isEmpty then w
    else
      (w.trace (s.loader.traces keys)).setSource kind
        (s.source.taken.store keys (s.loader.load keys))

/-- The world in which the answer to a key is known. -/
def awaited (w : World) (kind : SourceKind) (key : String) : World :=
  if ((w.source kind).answer? key).isSome then w else w.sync kind

/-- Counts one more of a kind. -/
def count (w : World) (kind : String) : Nat × World :=
  let n := (w.counts.get? kind).getD 0 + 1
  (n, { w with counts := w.counts.insert kind n })

/-- Runs the flushes that wait; none queues another one. -/
def flush (w : World) : World :=
  w.flushes.foldl sync { w with flushes := [] }

end World

namespace Resolution

/-- Does the work. -/
def run : Resolution → Assoc Json → World → Outcome Resolution × Assoc Json × World
  | done outcome, entries, w => (outcome, entries, w)
  | trace line next, entries, w => next.run entries (w.trace [line])
  | extend key value next, entries, w => next.run (entries.insert key value) w
  | count kind next, entries, w =>
    let (n, w) := w.count kind
    (next n).run entries w
  | source kind loader next, entries, w => next.run entries (w.addSupply ⟨kind, loader, .fresh⟩)
  | request kind key next, entries, w => next.run entries (w.request kind key)
  | await kind key next, entries, w =>
    let w := w.awaited kind key
    (next ((w.source kind).answer key)).run entries w

end Resolution

namespace World

/-- The host of resolvers with middleware around them. Lazies add nothing to the response. -/
def host (middleware : List Middleware) : Host Resolver Resolution World where
  resolve resolver ctx entries w := (resolution middleware resolver ctx).run entries w
  force lazy w :=
    let (outcome, _, w) := lazy.run [] w
    (outcome, w)
  turn := flush
  drain := flush

end World

end GraphQL
