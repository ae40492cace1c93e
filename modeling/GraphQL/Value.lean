import GraphQL.Json
import GraphQL.Name

/-!
# Values

A value literal of a document may hold variables, a constant may not. Both are `Value ν`: the
variables of a `Literal` are names, a `Const` has none because nothing inhabits `Empty`.
`Value.instantiate` replaces the variables of a value by constants, visiting them in the order of
the text.
-/

namespace GraphQL

/-- A value whose variables are of type `ν`. The keys of an object are distinct and keep their
order. -/
inductive Value (ν : Type) where
  | variable (x : ν)
  | null
  | number (value : Number)
  | string (value : String)
  | bool (value : Bool)
  | enum (name : Name)
  | list (items : List (Value ν))
  | object (fields : List (Name × Value ν))

/-- A value as written in a document. -/
abbrev Literal :=
  Value Name

/-- A value without variables. -/
abbrev Const :=
  Value Empty

instance {ν : Type} : Inhabited (Value ν) := ⟨.null⟩

namespace Value

variable {ν : Type}

/-- The object of a list of pairs that may repeat keys. -/
def ofPairs (pairs : List (Name × Value ν)) : Value ν :=
  .object (Assoc.ofList pairs)

def isNull : Value ν → Bool
  | .null => true
  | _ => false

/-- The integer of an integral number of 64 bits. -/
def toInt64? : Value ν → Option Int
  | .number n => n.toInt64?
  | _ => none

def string? : Value ν → Option String
  | .string s => some s
  | _ => none

def bool? : Value ν → Option Bool
  | .bool b => some b
  | _ => none

mutual

/-- Whether a variable occurs anywhere in the value. -/
def hasVariables : Value ν → Bool
  | .variable _ => true
  | .list items => anyItem items
  | .object fields => anyField fields
  | _ => false

def anyItem : List (Value ν) → Bool
  | [] => false
  | item :: rest => item.hasVariables || anyItem rest

def anyField : List (Name × Value ν) → Bool
  | [] => false
  | (_, value) :: rest => value.hasVariables || anyField rest

end

mutual

/-- Equality of values: the order of the fields of an object does not matter, and numbers are
compared as numbers. -/
def same [DecidableEq ν] : Value ν → Value ν → Bool
  | .variable x, .variable y => x = y
  | .null, .null => true
  | .number m, .number n => m.same n
  | .string s, .string t => s = t
  | .bool a, .bool b => a = b
  | .enum a, .enum b => a = b
  | .list xs, .list ys => sameItems xs ys
  | .object xs, .object ys => xs.length = ys.length && sameFields xs ys
  | _, _ => false

def sameItems [DecidableEq ν] : List (Value ν) → List (Value ν) → Bool
  | [], [] => true
  | x :: xs, y :: ys => x.same y && sameItems xs ys
  | _, _ => false

/-- Whether each of the fields has an equal one under its key among the others. -/
def sameFields [DecidableEq ν] : List (Name × Value ν) → List (Name × Value ν) → Bool
  | [], _ => true
  | (key, x) :: xs, ys =>
    (match Assoc.get? ys key with
      | some y => x.same y
      | none => false) && sameFields xs ys

end

mutual

/-- Replaces every variable by what `f` makes of it, from left to right in the order of the
text. -/
def instantiate {m : Type → Type} [Monad m] (f : ν → m Const) : Value ν → m Const
  | .variable x => f x
  | .null => pure .null
  | .number n => pure (.number n)
  | .string s => pure (.string s)
  | .bool b => pure (.bool b)
  | .enum name => pure (.enum name)
  | .list items => do
    let items ← instantiateItems f items
    pure (.list items)
  | .object fields => do
    let fields ← instantiateFields f fields
    pure (.object fields)

def instantiateItems {m : Type → Type} [Monad m] (f : ν → m Const) :
    List (Value ν) → m (List Const)
  | [] => pure []
  | item :: rest => do
    let item ← item.instantiate f
    let rest ← instantiateItems f rest
    pure (item :: rest)

def instantiateFields {m : Type → Type} [Monad m] (f : ν → m Const) :
    List (Name × Value ν) → m (List (Name × Const))
  | [] => pure []
  | (key, value) :: rest => do
    let value ← value.instantiate f
    let rest ← instantiateFields f rest
    pure ((key, value) :: rest)

end

/-- The constant that a value without variables is. -/
def toConst? (v : Value ν) : Option Const :=
  v.instantiate fun _ => none

mutual

/-- A constant as a value that could have variables. -/
def ofConst : Const → Value ν
  | .variable x => nomatch x
  | .null => .null
  | .number n => .number n
  | .string s => .string s
  | .bool b => .bool b
  | .enum name => .enum name
  | .list items => .list (ofConstItems items)
  | .object fields => .object (ofConstFields fields)

def ofConstItems : List Const → List (Value ν)
  | [] => []
  | item :: rest => ofConst item :: ofConstItems rest

def ofConstFields : List (Name × Const) → List (Name × Value ν)
  | [] => []
  | (key, value) :: rest => (key, ofConst value) :: ofConstFields rest

end

end Value

namespace Const

mutual

/-- The constant of a JSON value. -/
def ofJson : Json → Const
  | .null => .null
  | .bool b => .bool b
  | .number n => .number n
  | .string s => .string s
  | .array items => .list (ofJsonItems items)
  | .object fields => .object (ofJsonFields fields)

def ofJsonItems : List Json → List Const
  | [] => []
  | item :: rest => ofJson item :: ofJsonItems rest

def ofJsonFields : List (String × Json) → List (Name × Const)
  | [] => []
  | (key, value) :: rest => (key, ofJson value) :: ofJsonFields rest

end

mutual

/-- The JSON form of a constant, in which an enum value is a string. -/
def toJson : Const → Json
  | .variable x => nomatch x
  | .null => .null
  | .bool b => .bool b
  | .number n => .number n
  | .string s => .string s
  | .enum name => .string name
  | .list items => .array (toJsonItems items)
  | .object fields => .object (toJsonFields fields)

def toJsonItems : List Const → List Json
  | [] => []
  | item :: rest => toJson item :: toJsonItems rest

def toJsonFields : List (Name × Const) → List (String × Json)
  | [] => []
  | (key, value) :: rest => (key, toJson value) :: toJsonFields rest

end

end Const

end GraphQL
