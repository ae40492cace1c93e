import GraphQL.Document

/-!
# Execution plans

A plan is what remains of the selections of an operation once fragments are expanded and
conditions decided: for each object type a value can be of, the fields to compute, merged by
response key. `Plan.complexity` counts fields, `Plan.depth` their nesting; of several object types
the worst counts.
-/

namespace GraphQL

/-- All fields of a selection that share a response key on an object type. `first` decides what
they mean; `others` only add selections. `children` has the fields selected on the value, for each
object type it can be of. -/
structure Plan.Node where
  key : Name
  owner : Name
  type : TypeRef
  first : Field
  others : List Field
  children : List (Name × List Plan.Node)

/-- The plan of an operation on its root type. -/
structure Plan where
  kind : OperationKind
  root : Name
  fields : List Plan.Node

namespace Plan

namespace Node

/-- The name of the field in its type. -/
def name (n : Node) : Name :=
  n.first.name.node

/-- The merged fields in the order of the document. -/
def items (n : Node) : List Field :=
  n.first :: n.others

/-- The name of the field that tells the type of the object. -/
def typename : Name :=
  "__typename"

def isTypename (n : Node) : Bool :=
  n.name = typename

/-- The fields selected on a value of an object type. -/
def childrenFor? (n : Node) (object : Name) : Option (List Node) :=
  Assoc.get? n.children object

mutual

/-- How many fields a value can make necessary, this one included. -/
def complexity : Node → Nat
  | ⟨_, _, _, _, _, children⟩ => 1 + worstComplexity children

def worstComplexity : List (Name × List Node) → Nat
  | [] => 0
  | (_, nodes) :: rest => max (totalComplexity nodes) (worstComplexity rest)

def totalComplexity : List Node → Nat
  | [] => 0
  | n :: rest => n.complexity + totalComplexity rest

end

mutual

/-- How many fields deep the values below this one can be, this one included. -/
def depth : Node → Nat
  | ⟨_, _, _, _, _, children⟩ => 1 + worstDepth children

def worstDepth : List (Name × List Node) → Nat
  | [] => 0
  | (_, nodes) :: rest => max (greatestDepth nodes) (worstDepth rest)

def greatestDepth : List Node → Nat
  | [] => 0
  | n :: rest => max n.depth (greatestDepth rest)

end

end Node

def complexity (p : Plan) : Nat :=
  Node.totalComplexity p.fields

def depth (p : Plan) : Nat :=
  Node.greatestDepth p.fields

end Plan

end GraphQL
