import GraphQL.Coercion
import GraphQL.Error
import GraphQL.Variables

/-!
# Variables, arguments and conditions

The three places where an operation brings in values: its variables, coerced once before anything
runs; the arguments of its fields; and the conditions of the directives `skip` and `include`.
A variable that the request left out makes an argument absent, but is null inside a value.
-/

namespace GraphQL

/-- What is wrong with a variable. -/
inductive VariableError where
  | notInput (type name : Name)
  | invalid (name : Name) (type : TypeRef) (cause : CoercionError)

namespace VariableError

def message : VariableError → String
  | notInput type name => s!"{type} isn't a defined input type (on ${name})"
  | invalid name type _ => s!"Variable ${name} of type {type.text} was provided invalid value"

/-- The error of the variable that is defined at a position. -/
def toError (e : VariableError) (pos : Position) : Error :=
  match e with
  | notInput _ _ => .located e.message pos
  | invalid _ _ cause => (Error.located e.message pos).explained cause.message

end VariableError

/-- What is wrong with the arguments of a field. -/
inductive ArgumentError where
  | unknown (field argument : Name) (pos : Position)
  | invalid (field argument : Name) (value : Located Literal) (type : TypeRef)
      (cause : CoercionError)
  | missing (field : Name) (arguments : List Name) (pos : Position)

namespace ArgumentError

def message : ArgumentError → String
  | unknown field argument _ => s!"Field '{field}' doesn't accept argument '{argument}'"
  | invalid field argument value type _ =>
    s!"Argument '{argument}' on Field '{field}' has an invalid value ({value.node.text}). " ++
      s!"Expected type '{type.text}'."
  | missing field names _ =>
    s!"Field '{field}' is missing required arguments: " ++ ", ".intercalate names

def toError (e : ArgumentError) : Error :=
  match e with
  | unknown _ _ pos => .located e.message pos
  | invalid _ _ value _ cause => (Error.located e.message value.pos).explained cause.message
  | missing _ _ pos => .located e.message pos

end ArgumentError

/-- What is wrong with the condition of a directive. -/
inductive ConditionError where
  | missing (directive : Name) (pos : Position)
  | invalid (directive : Name) (value : Located Literal)

namespace ConditionError

def message : ConditionError → String
  | missing directive _ => s!"Directive '{directive}' is missing required arguments: if"
  | invalid directive value =>
    s!"Argument 'if' on Directive '{directive}' has an invalid value ({value.node.text}). " ++
      "Expected type 'Boolean!'."

def toError (e : ConditionError) : Error :=
  match e with
  | missing _ pos => .located e.message pos
  | invalid _ value => .located e.message value.pos

end ConditionError

/-- Replaces the variables of a literal by their values, those that have none by null. -/
def Value.fill (vars : Variables) (v : Literal) : Const :=
  Id.run (v.instantiate fun name => (vars.get? name).getD .null)

namespace Registry

variable {ρ : Type}

/-- The value of a variable, none when it is left out and may be. -/
def coerceVariable (r : Registry ρ) (provided : Variables) (d : VariableDefinition) :
    Except VariableError (Option Const) :=
  let name := d.name.node
  let type := d.type.node
  if r.isKind TypeSpec.isInput type.innermost then
    match provided.get? name, d.default with
    | none, none =>
      if type.nullable then .ok none else .error (.invalid name type (.null type))
    | given, default =>
      match r.coerce (given.getD (default.elim .null Located.node)) type with
      | .ok value => .ok (some value)
      | .error cause => .error (.invalid name type cause)
  else .error (.notInput type.innermost name)

/-- The values of the variables of an operation, or all that is wrong with them. -/
def coerceVariables (r : Registry ρ) (definitions : List VariableDefinition)
    (provided : Variables) : Except (List Error) Variables :=
  let results := definitions.map fun d => (d, r.coerceVariable provided d)
  let errors := results.filterMap fun
    | (d, .error e) => some (e.toError d.pos)
    | (_, .ok _) => none
  if errors.isEmpty then
    .ok (.ofList (results.filterMap fun
      | (d, .ok (some value)) => some (d.name.node, value)
      | _ => none))
  else .error errors

/-- What is written for an argument; a variable that has no value counts as nothing. -/
def givenArgument? (vars : Variables) (item : Field) (name : Name) : Option (Located Literal) :=
  (Field.argument? item name).filter fun value =>
    match value.node with
    | .variable x => vars.contains x
    | _ => true

/-- Coerces the declared arguments in their order, giving the values and the names of those that
are missing. -/
def coerceDeclaredArguments (r : Registry ρ) (vars : Variables) (field : Name) (item : Field) :
    Assoc InputSpec → Except ArgumentError (List (Name × Const) × List Name)
  | [] => .ok ([], [])
  | (name, spec) :: rest =>
    match givenArgument? vars item name with
    | some written =>
      match r.coerce (written.node.fill vars) spec.type with
      | .ok value => do
        let (values, missing) ← coerceDeclaredArguments r vars field item rest
        pure ((name, value) :: values, missing)
      | .error cause => .error (.invalid field name written spec.type cause)
    | none => do
      let (values, missing) ← coerceDeclaredArguments r vars field item rest
      match spec.default with
      | some value => pure ((name, value) :: values, missing)
      | none => pure (values, if spec.type.nullable then missing else name :: missing)

/-- The values of the arguments of a field, in the order of their declaration. -/
def coerceArguments (r : Registry ρ) (vars : Variables) (field : Name) (declared : Assoc InputSpec)
    (item : Field) : Except ArgumentError (Assoc Const) :=
  match item.arguments.find? fun a => !declared.contains a.name.node with
  | some a => .error (.unknown field a.name.node a.name.pos)
  | none =>
    match r.coerceDeclaredArguments vars field item declared with
    | .error e => .error e
    | .ok (values, []) => .ok values
    | .ok (_, missing) => .error (.missing field missing item.pos)

end Registry

namespace Directive

/-- The condition of a `skip` or an `include`. -/
def condition (vars : Variables) (d : Directive Name) : Except ConditionError Bool :=
  match Argument.find? d.arguments "if" with
  | none => .error (.missing d.name.node d.pos)
  | some value =>
    match value.node.fill vars with
    | .bool b => .ok b
    | _ => .error (.invalid d.name.node value)

/-- Whether a directive takes its selection out. Directives other than `skip` and `include` never
do. -/
def excludes (vars : Variables) (d : Directive Name) : Except ConditionError Bool :=
  if d.name.node = "skip" then d.condition vars
  else if d.name.node = "include" then (d.condition vars).map not
  else .ok false

/-- Whether one of the directives takes their selection out. The first one that does decides, and
so does the first one that is wrong. -/
def anyExcludes (vars : Variables) : List (Directive Name) → Except ConditionError Bool
  | [] => .ok false
  | d :: rest =>
    match d.excludes vars with
    | .ok false => anyExcludes vars rest
    | result => result

end Directive

end GraphQL
