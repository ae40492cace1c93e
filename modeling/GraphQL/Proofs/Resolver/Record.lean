import GraphQL.Proofs.Execution.Alike
import GraphQL.Resolver

/-!
# Keeping a record of loads

A world may keep a record of the keys that its sources are asked for, and of what they have loaded
and when. The record is nothing to those who run in the world: `Multiplex.run_recorded`.
-/

namespace GraphQL

/-- A key that a source is asked for. -/
abbrev Ask :=
  SourceKind × String

/-- What happens to the sources of a world. -/
inductive Event where
  | asked (a : Ask)
  /-- The loader of a source is called with keys. -/
  | loaded (kind : SourceKind) (keys : List String)
  deriving DecidableEq

/-- A world, and what has happened to its sources so far. -/
structure Recorded where
  world : World
  events : List Event

namespace Recorded

def fresh : Recorded :=
  ⟨.fresh, []⟩

def request (r : Recorded) (kind : SourceKind) (key : String) : Recorded :=
  ⟨r.world.request kind key, r.events ++ [.asked (kind, key)]⟩

/-- The loader of a source is called when there are keys that wait. -/
def sync (r : Recorded) (kind : SourceKind) : Recorded :=
  ⟨r.world.sync kind,
    match r.world.supply? kind with
    | some s =>
      if s.source.pending.isEmpty then r.events else r.events ++ [.loaded kind s.source.pending]
    | none => r.events⟩

def awaited (r : Recorded) (kind : SourceKind) (key : String) : Recorded :=
  if ((r.world.source kind).answer? key).isSome then r else r.sync kind

def flush (r : Recorded) : Recorded :=
  r.world.flushes.foldl sync { r with world := { r.world with flushes := [] } }

@[simp] theorem world_request (r : Recorded) (kind : SourceKind) (key : String) :
    (r.request kind key).world = r.world.request kind key := rfl

@[simp] theorem world_sync (r : Recorded) (kind : SourceKind) :
    (r.sync kind).world = r.world.sync kind := rfl

@[simp] theorem world_awaited (r : Recorded) (kind : SourceKind) (key : String) :
    (r.awaited kind key).world = r.world.awaited kind key := by
  unfold awaited World.awaited
  split <;> rfl

@[simp] theorem world_flush (r : Recorded) : r.flush.world = r.world.flush := by
  have hfold : ∀ (kinds : List SourceKind) (r : Recorded),
      (kinds.foldl sync r).world = kinds.foldl World.sync r.world := by
    intro kinds
    induction kinds with
    | nil => exact fun _ => rfl
    | cons kind kinds ih => exact fun r => ih (r.sync kind)
  exact hfold _ _

end Recorded

/-- Does the work and keeps the record. -/
def Resolution.record :
    Resolution → Assoc Json → Recorded → Outcome Resolution × Assoc Json × Recorded
  | done outcome, entries, r => (outcome, entries, r)
  | trace line next, entries, r => next.record entries { r with world := r.world.trace [line] }
  | extend key value next, entries, r => next.record (entries.insert key value) r
  | count kind next, entries, r =>
    let (n, w) := r.world.count kind
    (next n).record entries { r with world := w }
  | source kind loader next, entries, r =>
    next.record entries { r with world := r.world.addSupply ⟨kind, loader, .fresh⟩ }
  | request kind key next, entries, r => next.record entries (r.request kind key)
  | await kind key next, entries, r =>
    let r := r.awaited kind key
    (next ((r.world.source kind).answer key)).record entries r

/-- Work comes to the same when there is a record of it. -/
theorem Resolution.run_eq_record : ∀ (work : Resolution) (entries : Assoc Json) (r : Recorded),
    work.run entries r.world =
      ((work.record entries r).1, (work.record entries r).2.1, (work.record entries r).2.2.world)
  | done _, _, _ => rfl
  | trace line next, entries, r =>
    run_eq_record next entries { r with world := r.world.trace [line] }
  | extend key value next, entries, r => run_eq_record next (entries.insert key value) r
  | count kind next, entries, r =>
    run_eq_record (next (r.world.count kind).1) entries { r with world := (r.world.count kind).2 }
  | source kind loader next, entries, r =>
    run_eq_record next entries { r with world := r.world.addSupply ⟨kind, loader, .fresh⟩ }
  | request kind key next, entries, r => run_eq_record next entries (r.request kind key)
  | await kind key next, entries, r => by
    simp only [run, record, ← Recorded.world_awaited r kind key]
    exact run_eq_record (next _) entries (r.awaited kind key)

namespace Recorded

/-- The host of resolvers with middleware around them, with a record. -/
def host (middleware : List Middleware) : Host Resolver Resolution Recorded where
  resolve resolver ctx entries r := (resolution middleware resolver ctx).record entries r
  force lazy r :=
    let (outcome, _, r) := lazy.record [] r
    (outcome, r)
  turn := flush
  drain := flush

/-- The worlds of runs with a record and without one are the same. -/
def bond : Bond Resolution World Recorded where
  paired w r := r.world = w
  owed _ _ _ := True
  due _ _ _ := True

theorem host_alike (middleware : List Middleware) (registry : Registry Resolver) :
    (World.host middleware).Alike (host middleware) registry bond where
  resolve {object field spec w r} _ hw ctx entries := by
    cases hw
    exact ⟨_, _, _, _, Resolution.run_eq_record _ entries r, rfl, ⟨rfl, fun _ => id, fun _ => id⟩,
      fun _ _ _ _ => trivial⟩
  force {lazy w r} hw _ := by
    cases hw
    have h := Resolution.run_eq_record lazy [] r
    exact ⟨_, _, _, congrArg (fun x => (x.1, x.2.2)) h, rfl, ⟨rfl, fun _ => id, fun _ => id⟩,
      fun _ _ _ _ => trivial⟩

end Recorded

/-- Keeping a record makes no difference to what requests that run together come to. -/
theorem Multiplex.run_recorded {s : Schema Resolver Resolution World} {middleware : List Middleware}
    (hh : s.host = World.host middleware) (m : Multiplex) (fuel : Nat) (r : Recorded) :
    m.run s fuel r.world = ((m.run (s.under (Recorded.host middleware)) fuel r).1,
      (m.run (s.under (Recorded.host middleware)) fuel r).2.world) := by
  have hserves : ∀ {w : World} {r : Recorded}, Recorded.bond.paired w r →
      Recorded.bond.Serves World.flush Recorded.flush w r := by
    rintro w r ⟨⟩
    exact ⟨⟨r.world_flush, fun _ => id, fun _ => id⟩, fun _ _ => trivial⟩
  have ha := Recorded.host_alike middleware s.registry
  rw [← hh] at ha
  obtain ⟨responses, w', r', hrun, hrun', hw⟩ := run_alike (m := m) (w := r.world) (v := r) ha
    (by rw [hh]; exact hserves) (by rw [hh]; exact hserves) (fun _ _ _ _ _ _ _ _ _ _ => trivial) rfl
    fuel
  rw [hrun, hrun', ← hw]

end GraphQL
