/-!
# Batch sources

A source gathers keys that are asked for and has them loaded together. A key stays pending until a
load takes all pending keys; from then on its answer is known for good. While a key is pending, a
flush is scheduled that will load it unless something else does so first.
-/

namespace GraphQL

/-- What a load of several keys gives: the values of those that were found, or an error that
concerns them all. -/
abbrev Loaded (κ α ε : Type) :=
  Except ε (List (κ × α))

/-- The keys that wait, in the order in which they were first asked for, the answers that are
known, and whether a flush is scheduled. -/
structure Source (κ α ε : Type) where
  pending : List κ
  answers : List (κ × Except ε (Option α))
  scheduled : Bool

namespace Source

variable {κ α ε : Type} [DecidableEq κ]

/-- A source that was never asked. -/
def fresh : Source κ α ε :=
  ⟨[], [], false⟩

/-- The value of the first pair with the key. -/
def find? {β : Type} : List (κ × β) → κ → Option β
  | [], _ => none
  | (k, v) :: rest, key => if k = key then some v else find? rest key

/-- The answer to a key, once it is known. -/
def answer? (s : Source κ α ε) (key : κ) : Option (Except ε (Option α)) :=
  find? s.answers key

/-- The answer to a key, which is that it was not found when it was never loaded. -/
def answer (s : Source κ α ε) (key : κ) : Except ε (Option α) :=
  (s.answer? key).getD (.ok none)

def isPending (s : Source κ α ε) : Bool :=
  !s.pending.isEmpty

/-- Asks for a key. A key without an answer becomes pending. -/
def request (s : Source κ α ε) (key : κ) : Source κ α ε :=
  if (s.answer? key).isSome then s
  else
    { s with
      pending := if s.pending.contains key then s.pending else s.pending ++ [key]
      scheduled := true }

/-- Whether asking for a key calls for a flush that is not scheduled yet. -/
def needsFlush (s : Source κ α ε) (key : κ) : Bool :=
  (s.answer? key).isNone && !s.scheduled

/-- The source once its pending keys are taken away to be loaded. -/
def taken (s : Source κ α ε) : Source κ α ε :=
  { s with pending := [], scheduled := false }

/-- The answer to one of the keys that were loaded. -/
def answerOf (loaded : Loaded κ α ε) (key : κ) : Except ε (Option α) :=
  match loaded with
  | .ok values => .ok (find? values key)
  | .error e => .error e

/-- Remembers what loading the keys gave. -/
def store (s : Source κ α ε) (keys : List κ) (loaded : Loaded κ α ε) : Source κ α ε :=
  { s with answers := keys.map (fun key => (key, answerOf loaded key)) ++ s.answers }

end Source

end GraphQL
