import GraphQL.Registry

/-!
# Input coercion

`coerce` turns a constant into a value of a type, or finds what is wrong with it. A single value
stands for a list of one, an enum value may be given as a string, and input objects get the
defaults of the fields that are not given, as they stand. All built-in conversion is that of the
scalars; other scalars take any value as it is.
-/

namespace GraphQL

/-- Why a constant is no value of a type. -/
inductive CoercionError where
  | null (type : TypeRef)
  | scalar (type : Scalar) (value : Const)
  | enum (type : Name) (value : Const)
  | notObject (type : Name) (value : Const)
  | undefinedField (field type : Name)
  | missingField (field : Name) (type : TypeRef)
  | notInput (type : Name)
  | atIndex (i : Nat) (cause : CoercionError)
  | inField (field : Name) (cause : CoercionError)

def CoercionError.message : CoercionError → String
  | null type => s!"Expected value of type \"{type.text}\", found null"
  | scalar type value => type.rejection (Const.text value)
  | enum type value => s!"Enum \"{type}\" cannot represent value: {Const.text value}"
  | notObject type value => s!"Expected type \"{type}\" to be an object, found {Const.text value}"
  | undefinedField field type => s!"Field \"{field}\" is not defined by type \"{type}\""
  | missingField field type =>
    s!"Field \"{field}\" of required type \"{type.text}\" was not provided"
  | notInput type => s!"\"{type}\" is not an input type"
  | atIndex i cause => s!"At index {i}: {cause.message}"
  | inField field cause => s!"In field \"{field}\": {cause.message}"

/-- What coercing one value to any type gives. -/
abbrev Coercion :=
  TypeRef → Except CoercionError Const

namespace TypeRef

/-- The value as a list of one, once for each list of the type. -/
def wrap : TypeRef → Const → Const
  | named _ _, value => value
  | list item _, value => .list [item.wrap value]

end TypeRef

namespace Registry

variable {ρ : Type}

/-- The enum value that a constant names, by itself or as a string. -/
def enumValue? : Const → Option Name
  | .enum name => some name
  | .string name => some name
  | _ => none

/-- Coerces the fields that an input object declares, in their order. `given` has the coercions of
the fields that are there. -/
def coerceDeclared (given : Assoc Coercion) :
    Assoc InputSpec → Except CoercionError (List (Name × Const))
  | [] => .ok []
  | (name, spec) :: rest =>
    match given.get? name with
    | some coercion =>
      match coercion spec.type with
      | .ok value => do
        let rest ← coerceDeclared given rest
        pure ((name, value) :: rest)
      | .error cause => .error (.inField name cause)
    | none =>
      match spec.default with
      | some value => do
        let rest ← coerceDeclared given rest
        pure ((name, value) :: rest)
      | none =>
        if spec.type.nullable then coerceDeclared given rest
        else .error (.missingField name spec.type)

/-- Coerces the fields of an input object; the first one that is not declared is an error. -/
def coerceFields (type : Name) (given : Assoc Coercion) (declared : Assoc InputSpec) :
    Except CoercionError Const :=
  match given.keys.find? fun key => !declared.contains key with
  | some key => .error (.undefinedField key type)
  | none => do
    let fields ← coerceDeclared given declared
    pure (.object fields)

/-- Coerces a value other than null to the type of a name. -/
def coerceNamed (r : Registry ρ) (name : Name) (value : Const) (given : Assoc Coercion) :
    Except CoercionError Const :=
  match r.lookup name with
  | some (.scalar (some scalar)) =>
    match scalar.parse? value with
    | some value => .ok value
    | none => .error (.scalar scalar value)
  | some (.scalar none) => .ok value
  | some (.enum values) =>
    match (enumValue? value).filter values.contains with
    | some name => .ok (.enum name)
    | none => .error (.enum name value)
  | some (.input declared) =>
    match value with
    | .object _ => coerceFields name given declared
    | _ => .error (.notObject name value)
  | _ => .error (.notInput name)

mutual

/-- Coerces a constant to a type. -/
def coerce (r : Registry ρ) : Const → Coercion
  | .null, type => if type.nullable then .ok .null else .error (.null type)
  | .list items, .list item _ => do
    let items ← coerceItems r item 0 items
    pure (.list items)
  | .object fields, type => do
    let value ← r.coerceNamed type.innermost (.object fields) (fieldCoercions r fields)
    pure (type.wrap value)
  | value, type => do
    let value ← r.coerceNamed type.innermost value []
    pure (type.wrap value)

/-- Coerces the items of a list, the first of which has the index `i`. -/
def coerceItems (r : Registry ρ) (item : TypeRef) :
    Nat → List Const → Except CoercionError (List Const)
  | _, [] => .ok []
  | i, value :: rest =>
    match coerce r value item with
    | .ok value => do
      let rest ← coerceItems r item (i + 1) rest
      pure (value :: rest)
    | .error cause => .error (.atIndex i cause)

/-- The coercions of the fields of an object. -/
def fieldCoercions (r : Registry ρ) : List (Name × Const) → Assoc Coercion
  | [] => []
  | (name, value) :: rest => (name, coerce r value) :: fieldCoercions r rest

end

end Registry

end GraphQL
