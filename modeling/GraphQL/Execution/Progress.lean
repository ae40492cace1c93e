import GraphQL.Execution.Host
import GraphQL.Plan
import GraphQL.Registry
import GraphQL.Response
import GraphQL.Response.Tree
import GraphQL.Variables

/-!
# The progress of a query

What a query has come to at any moment of its run: the data so far, the errors, and the values that
were put aside because they are deferred. A part of the run changes that and the world of the host,
or stops everything.
-/

namespace GraphQL

/-- Why running stops before there is a response. -/
inductive Halt where
  /-- A resolver failed in a way that makes everything meaningless. -/
  | internal (message : String)
  /-- Waves went on for longer than the fuel allowed. -/
  | unfinished

/-- Where a value belongs: its field, its type, which inside lists is that of the elements, and its
place in the response. -/
structure Frame where
  field : Plan.Node
  type : TypeRef
  path : Path
  slot : SlotId

/-- A deferred value and where it belongs. -/
structure Pending (L : Type) where
  frame : Frame
  lazy : L

/-- What came out of a place in the end, when it is not a value: a null that may stand there, or
an error that nulls it. -/
inductive Note where
  | null (frame : Frame)
  | failure (frame : Frame) (error : Error)

namespace Note

def frame : Note → Frame
  | null frame => frame
  | failure frame _ => frame

/-- The entry that a failure makes among the errors of the response. -/
def error? : Note → Option Error
  | null _ => none
  | failure frame error => some (error.placed frame.field.first.pos frame.path)

end Note

/-- How far a query has come. -/
structure Progress (L : Type) where
  tree : ResponseTree
  notes : List Note
  pending : List (Pending L)
  extensions : Assoc Json

namespace Progress

variable {L : Type}

/-- A query that has not begun. -/
def fresh : Progress L :=
  ⟨.fresh, [], [], []⟩

def isPending (p : Progress L) : Bool :=
  !p.pending.isEmpty

/-- The errors so far, in the order in which they came up. -/
def errors (p : Progress L) : List Error :=
  p.notes.filterMap Note.error?

/-- Notes what came out of a place, which becomes null. -/
def record (p : Progress L) (note : Note) : Progress L :=
  { p with notes := p.notes ++ [note], tree := p.tree.setNull note.frame.slot }

/-- Puts a value aside. -/
def putAside (p : Progress L) (frame : Frame) (lazy : L) : Progress L :=
  { p with pending := p.pending ++ [⟨frame, lazy⟩] }

/-- The response of a query that has run. -/
def response (p : Progress L) : Response :=
  ⟨some p.tree.toJson, p.errors, p.extensions⟩

end Progress

/-- What a query runs with. -/
structure Execution (ρ L W : Type) where
  registry : Registry ρ
  host : Host ρ L W
  variableValues : Variables
  data : List Data

/-- A part of the run of a query. -/
abbrev Running (L W : Type) :=
  ExceptT Halt (StateM (Progress L × W))

namespace Execution

variable {ρ L W : Type}

def progress : Running L W (Progress L) := do
  let s ← get
  pure s.1

/-- Changes how far the query has come. -/
def update (f : Progress L → Progress L) : Running L W Unit :=
  modify fun s => (f s.1, s.2)

def updateTree (f : ResponseTree → ResponseTree) : Running L W Unit :=
  update fun p => { p with tree := f p.tree }

/-- Adds slots below another one. -/
def grow (f : ResponseTree → List SlotId × ResponseTree) : Running L W (List SlotId) :=
  modifyGet fun (p, world) =>
    let (ids, tree) := f p.tree
    (ids, { p with tree := tree }, world)

def isLive (slot : SlotId) : Running L W Bool := do
  let p ← progress
  pure (p.tree.isLive slot)

/-- Records an error and nulls the value it concerns. -/
def report (frame : Frame) (error : Error) : Running L W Unit :=
  update fun p => p.record (.failure frame error)

/-- Completes a value that is null, as its type allows. -/
def setNull (frame : Frame) : Running L W Unit :=
  update fun p => p.record (.null frame)

/-- Deals with what a resolver or a lazy failed with. -/
def fail (frame : Frame) : FieldError → Running L W Unit
  | .field error => report frame error
  | .internal message => throw (.internal message)

/-- Puts a value aside. -/
def putAside (frame : Frame) (lazy : L) : Running L W Unit :=
  update fun p => p.putAside frame lazy

end Execution

end GraphQL
