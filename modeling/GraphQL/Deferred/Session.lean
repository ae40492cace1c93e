import GraphQL.Deferred.Run
import GraphQL.Json

/-!
# Sessions

A session names lazies and sources and writes what it finds out to an output. Its steps are
scripts in waiting: each is given what comes after it. A name is looked up when its step runs, and
a step whose names mean nothing does nothing.
-/

namespace GraphQL.Deferred

/-- The names in use, the labels that the loaders of sources were given, and the output. -/
structure Session where
  lazies : Assoc Ref
  sources : Assoc SourceId
  labels : List (SourceId × String)
  output : List Json

namespace Session

def fresh : Session :=
  ⟨[], [], [], []⟩

def write (s : Session) (value : Json) : Session :=
  { s with output := s.output ++ [value] }

def label? (s : Session) (id : SourceId) : Option String :=
  (s.labels.find? fun p => p.1 = id).map Prod.snd

/-- Names a source and remembers the label of the first loader of its kind. -/
def addSource (s : Session) (name : String) (id : SourceId) (label : String) : Session :=
  { s with
    sources := s.sources.insert name id
    labels := if (s.label? id).isSome then s.labels else s.labels ++ [(id, label)] }

end Session

/-- The scripts of a session. Leaves are JSON, errors texts and keys integers. -/
abbrev Work :=
  Script Json String Int Session

/-- A part of a session, given what comes after it. -/
abbrev Step :=
  Work → Work

/-- A result in which lazies are named. -/
abbrev NamedResult :=
  Except String (Tree Json String)

/-- A loader of a source: the keys for which it fails, those it does not find, those it finds
unasked, and what it does while it loads. -/
structure BatchLoader where
  label : String
  refused : List Int
  missing : List Int
  extra : List Int
  work : Step

namespace BatchLoader

def keyText (key : Int) : String :=
  String.ofList (Number.intChars key)

/-- What is written of a batch. -/
def line (l : BatchLoader) (id : SourceId) (keys : List Int) : String :=
  s!"load {id}:{l.label} [" ++ ", ".intercalate (keys.map keyText) ++ "]"

/-- Every key is found with its square, but for those that are missing or found unasked. -/
def answer (l : BatchLoader) (keys : List Int) : Loaded Int Json String :=
  match keys.find? l.refused.contains with
  | some key => .error s!"load of {keyText key} failed"
  | none =>
    .ok (l.extra.map (fun key => (key, Json.ofInt (-1))) ++
      (keys.filter fun key => !l.missing.contains key).map fun key => (key, Json.ofInt (key * key)))

end BatchLoader

/-- What can be done to the result of a lazy. -/
inductive Mapping where
  /-- An error becomes a leaf. -/
  | recover (value : Json)
  /-- Everything becomes an error. -/
  | fail (message : String)
  /-- A value becomes a list of itself. -/
  | wrap
  /-- An integer is added to a leaf; a leaf that is none counts as zero. -/
  | add (value : Int)
  | keep

namespace Mapping

def integerOf : Json → Int
  | .number n => n.toInt64?.getD 0
  | _ => 0

def apply (m : Mapping) (result : Result Json String) : Result Json String :=
  match m, result with
  | recover value, .error _ => .ok (.leaf value)
  | fail message, _ => .error message
  | wrap, .ok tree => .ok (.list [tree])
  | add value, .ok (.leaf j) => .ok (.leaf (.ofInt (integerOf j + value)))
  | _, result => result

end Mapping

namespace Session

mutual

/-- The tree of the lazies that names stand for; a name that means nothing is null. -/
def resolveTree (s : Session) : Tree Json String → Tree Json Ref
  | .leaf value => .leaf value
  | .list items => .list (resolveItems s items)
  | .later name =>
    match s.lazies.get? name with
    | some ref => .later ref
    | none => .leaf .null

def resolveItems (s : Session) : List (Tree Json String) → List (Tree Json Ref)
  | [] => []
  | item :: rest => resolveTree s item :: resolveItems s rest

end

def resolveResult (s : Session) (r : NamedResult) : Result Json String :=
  r.map s.resolveTree

/-- The state of a lazy in words. -/
def stateJson (resolved : Bool) : Json :=
  .string (if resolved then "Lazy(\"resolved\")" else "Lazy(\"pending\")")

mutual

/-- Goes on with the JSON of a tree, in which lazies are shown by their state. -/
def withJson : Tree Json Ref → (Json → Work) → Work
  | .leaf value, next => next value
  | .list items, next => withItems items fun items => next (.array items)
  | .later ref, next =>
    .isResolved ref fun resolved => next (.object [("lazy", stateJson resolved)])

def withItems : List (Tree Json Ref) → (List Json → Work) → Work
  | [], next => next []
  | item :: rest, next => withJson item fun item => withItems rest fun rest => next (item :: rest)

end

end Session

namespace Step

/-- Several steps in a row. -/
def all (steps : List Step) : Step := fun next =>
  steps.foldr (fun step next => step next) next

def change (f : Session → Session) : Step := fun next =>
  .read fun s => .write (f s) next

def write (value : Json) : Step :=
  change fun s => s.write value

/-- Gives a lazy a name. -/
def name (lazy : String) (ref : Ref) : Step :=
  change fun s => { s with lazies := s.lazies.insert lazy ref }

/-- Uses the lazy of a name. -/
def withLazy (lazy : String) (use : Ref → Step) : Step := fun next =>
  .read fun s =>
    match s.lazies.get? lazy with
    | some ref => use ref next
    | none => next

/-- Uses the source of a name. -/
def withSource (source : String) (use : SourceId → Step) : Step := fun next =>
  .read fun s =>
    match s.sources.get? source with
    | some id => use id next
    | none => next

def writeResult (result : Result Json String) : Step := fun next =>
  match result with
  | .ok tree => Session.withJson tree fun value => write (.object [("ok", value)]) next
  | .error e => write (.object [("err", .string e)]) next

/-- A new lazy that does its steps and then has its result. -/
def new (lazy : String) (result : NamedResult) (steps : List Step) : Step := fun next =>
  .defer (all steps (.read fun s => .done (s.resolveResult result))) fun ref => name lazy ref next

def ready (lazy : String) (result : NamedResult) : Step := fun next =>
  .read fun s => .ready (s.resolveResult result) fun ref => name lazy ref next

/-- A second name for a lazy. -/
def clone (lazy other : String) : Step :=
  withLazy other (name lazy)

/-- A lazy for what a mapping makes of another one. -/
def andThen (lazy other tag : String) (mapping : Mapping) : Step :=
  withLazy other fun ref next =>
    .andThen ref
      (fun result => write (.string s!"then {tag}") (.done (mapping.apply result)))
      fun ref => name lazy ref next

def force (lazy : String) : Step :=
  withLazy lazy fun ref next => .force ref fun _ => next

def value (lazy : String) : Step :=
  withLazy lazy fun ref next => .force ref fun result => writeResult result next

def isResolved (lazy : String) : Step :=
  withLazy lazy fun ref next => .isResolved ref fun b => write (.bool b) next

def debug (lazy : String) : Step :=
  withLazy lazy fun ref next => .isResolved ref fun b => write (Session.stateJson b) next

def same (lazy other : String) : Step :=
  withLazy lazy fun a => withLazy other fun b => write (.bool (a == b))

def deep (tree : Tree Json String) : Step := fun next =>
  .read fun s => .deep (s.resolveTree tree) fun result => writeResult result next

def job (steps : List Step) : Step := fun next =>
  .job (all steps .nothing) next

/-- Queues the first of `n + 1` jobs, each of which queues the next one; the last one writes. -/
def chain : Nat → Step
  | 0 => job [write (.string "chain end")]
  | n + 1 => job [chain n]

def run : Step :=
  Script.run

def hasJobs : Step := fun next =>
  .hasJobs fun b => write (.bool b) next

def close : Step :=
  Script.close

/-- Makes the source of a kind, or finds it, and writes the label of its loader. Without a queue
there is no source to be had, and the name keeps its meaning. -/
def source (source : String) (id : SourceId) (loader : BatchLoader) : Step := fun next =>
  .source id
    (fun keys => all [write (.string (loader.line id keys)), loader.work] .nothing)
    (fun keys _ => loader.answer keys)
    fun held =>
      if held then all [change fun s => s.addSource source id loader.label, writeLabel id] next
      else next
where
  writeLabel (id : SourceId) : Step := fun next =>
    .read fun s => write (.string ((s.label? id).getD "")) next

def sameSource (a b : String) : Step :=
  withSource a fun a => withSource b fun b => write (.bool (a == b))

def load (lazy source : String) (key : Int) : Step :=
  withSource source fun id next => .load .null id key fun ref => name lazy ref next

def loadMany (lazy source : String) (keys : List Int) : Step :=
  withSource source fun id next => .loadMany .null id keys fun ref => name lazy ref next

def sync (source : String) : Step :=
  withSource source fun id next => .sync id next

def isPending (source : String) : Step :=
  withSource source fun id next => .isPending id fun b => write (.bool b) next

/-- Runs a step by itself. A lazy that is forced from its own script ends it. -/
def runAlone (fuel : Nat) (s : Store Json String Int Session) (step : Step) :
    Store Json String Int Session :=
  match (step .nothing).runFor fuel s with
  | .ok _ s => s
  | .reentered s =>
    let panic := Json.object [("panic", .string "a lazy value was forced from its own thunk")]
    { s with state := s.state.write panic }
  | .exhausted => s

end Step

/-- The output of a session of some steps. -/
def Session.run (fuel : Nat) (steps : List Step) : List Json :=
  (steps.foldl (Step.runAlone fuel) (.fresh .fresh)).state.output

end GraphQL.Deferred
