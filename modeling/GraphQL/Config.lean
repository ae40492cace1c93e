/-!
# Execution settings

The limits and switches of a schema, and the text they are read from: one setting a line, a key
and a value around an equals sign, in the notation of TOML. Blank lines and comments after `#` are
left out of account; anything else makes the whole text unreadable.
-/

namespace GraphQL

structure Config where
  /-- Operations of a greater complexity do not begin. -/
  maxComplexity : Option Nat
  /-- Operations of a greater depth do not begin. -/
  maxDepth : Option Nat
  /-- Whether `__typename` can be selected. -/
  introspectTypename : Bool
  deriving DecidableEq

namespace Config

/-- No limits, and types can be asked for. -/
def default : Config :=
  ⟨none, none, true⟩

end Config

end GraphQL
