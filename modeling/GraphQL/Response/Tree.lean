import GraphQL.Json

/-!
# Response data under construction

Every field and list element gets a slot as soon as its parent is known, so the order of the data
follows the selections however late values come in. A null that cannot stay at its slot moves up
to the closest one that may be null.
-/

namespace GraphQL

/-- A slot, by its number. -/
abbrev SlotId :=
  Nat

namespace ResponseTree

/-- What a slot holds. -/
inductive Content where
  | pending
  | null
  | leaf (value : Json)
  | list (items : List SlotId)
  | object (fields : List (String × SlotId))

structure Slot where
  parent : Option SlotId
  nullable : Bool
  content : Content

end ResponseTree

/-- The slots of a response; the first one is the root. -/
structure ResponseTree where
  slots : Array ResponseTree.Slot

namespace ResponseTree

def root : SlotId :=
  0

/-- A response of which nothing is known. -/
def fresh : ResponseTree :=
  ⟨#[⟨none, true, .pending⟩]⟩

def get? (t : ResponseTree) (id : SlotId) : Option Slot :=
  t.slots[id]?

/-- Adds a pending slot. -/
def push (t : ResponseTree) (parent : SlotId) (nullable : Bool) : ResponseTree :=
  ⟨t.slots.push ⟨some parent, nullable, .pending⟩⟩

/-- Adds a pending slot for each of the flags that say which may be null. -/
def pushAll (t : ResponseTree) (parent : SlotId) (flags : List Bool) : ResponseTree :=
  flags.foldl (fun t nullable => t.push parent nullable) t

/-- The numbers of the next slots to be added. -/
def nextIds (t : ResponseTree) (count : Nat) : List SlotId :=
  List.range' t.slots.size count

def setContent (t : ResponseTree) (id : SlotId) (content : Content) : ResponseTree :=
  match t.get? id with
  | some slot => ⟨t.slots.setIfInBounds id { slot with content := content }⟩
  | none => t

/-- Makes a slot an object with a pending slot for each key. The keys are distinct. -/
def setObject (t : ResponseTree) (id : SlotId) (keys : List (String × Bool)) :
    List SlotId × ResponseTree :=
  let ids := t.nextIds keys.length
  (ids, (t.pushAll id (keys.map Prod.snd)).setContent id
    (.object ((keys.map Prod.fst).zip ids)))

/-- Makes a slot a list of pending slots. -/
def setList (t : ResponseTree) (id : SlotId) (count : Nat) (nullable : Bool) :
    List SlotId × ResponseTree :=
  let ids := t.nextIds count
  (ids, (t.pushAll id (List.replicate count nullable)).setContent id (.list ids))

def setLeaf (t : ResponseTree) (id : SlotId) (value : Json) : ResponseTree :=
  t.setContent id (.leaf value)

/-- The closest slot at or above one that may be null; the root is the last resort. Parents have
smaller numbers, so that the number of the slot bounds the way up. -/
def nullTarget (t : ResponseTree) : (fuel : Nat) → SlotId → SlotId
  | 0, id => id
  | fuel + 1, id =>
    match t.get? id with
    | some ⟨some parent, false, _⟩ => nullTarget t fuel parent
    | _ => id

/-- The slot that becomes null when one cannot be filled. -/
def nulled (t : ResponseTree) (id : SlotId) : SlotId :=
  t.nullTarget (id + 1) id

/-- Makes a slot null, or the closest one above it that may be. -/
def setNull (t : ResponseTree) (id : SlotId) : ResponseTree :=
  t.setContent (t.nulled id) .null

/-- Whether no slot is null from one up to the root. -/
def liveFrom (t : ResponseTree) : (fuel : Nat) → SlotId → Bool
  | 0, _ => true
  | fuel + 1, id =>
    match t.get? id with
    | some ⟨_, _, .null⟩ => false
    | some ⟨some parent, _, _⟩ => liveFrom t fuel parent
    | _ => true

/-- Whether what a slot holds can still make it into the response. -/
def isLive (t : ResponseTree) (id : SlotId) : Bool :=
  t.liveFrom (id + 1) id

/-- The data below a slot. Slots below have greater numbers, so that the number of slots bounds
the way down. -/
def jsonFrom (t : ResponseTree) : (fuel : Nat) → SlotId → Json
  | 0, _ => .null
  | fuel + 1, id =>
    match t.get? id with
    | some ⟨_, _, .leaf value⟩ => value
    | some ⟨_, _, .list items⟩ => .array (items.map (jsonFrom t fuel))
    | some ⟨_, _, .object fields⟩ =>
      .object (fields.map fun (key, field) => (key, jsonFrom t fuel field))
    | _ => .null

/-- The data; what is still pending is null. -/
def toJson (t : ResponseTree) : Json :=
  t.jsonFrom t.slots.size root

end ResponseTree

end GraphQL
