import GraphQL.Multiplex.Queue
import GraphQL.Resolver

/-!
# Resolvers in a queue

The host of resolvers that has the queue at hand: a source whose keys are to be loaded has its flush
wait in the queue. It leaves the running of the queue to others.
-/

namespace GraphQL

namespace World

/-- Has the flushes that are called for wait in the queue. -/
def handOver {α : Type} (w : World) (next : Activity SourceKind World α) :
    Activity SourceKind World α :=
  w.flushes.foldr .append (.write { w with flushes := [] } next)

/-- The host of resolvers with middleware around them, where flushes are jobs. -/
def queueHost (middleware : List Middleware) : QueueHost Resolver Resolution SourceKind World where
  resolve resolver ctx entries := .read fun w =>
    let (outcome, entries, w) := (resolution middleware resolver ctx).run entries w
    w.handOver (.done (outcome, entries))
  force lazy := .read fun w =>
    let (outcome, _, w) := lazy.run [] w
    w.handOver (.done outcome)
  perform kind := .read fun w => .write (w.sync kind) (.done ())

end World

/-- The schema of resolvers whose requests are in a queue. -/
def Schema.inQueue (s : Schema Resolver Resolution World) (middleware : List Middleware) :
    QueueSchema Resolver Resolution SourceKind World :=
  ⟨s.registry, World.queueHost middleware, s.config, s.data⟩

end GraphQL
