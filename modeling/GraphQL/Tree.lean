/-!
# Values with deferred parts

A value that a computation gives may itself be deferred, or be a list of such values. Deferred
parts are of any type `L`; leaves are what is never deferred.
-/

namespace GraphQL

/-- A leaf, a list of values, or a value to be had later. -/
inductive Tree (α L : Type) where
  | leaf (value : α)
  | list (items : List (Tree α L))
  | later (lazy : L)

namespace Tree

variable {α L M : Type}

instance [Inhabited α] : Inhabited (Tree α L) :=
  ⟨.leaf default⟩

mutual

/-- The same value with what is done to its deferred parts. -/
def mapLater (f : L → M) : Tree α L → Tree α M
  | leaf value => leaf value
  | list items => list (mapLaterItems f items)
  | later lazy => later (f lazy)

def mapLaterItems (f : L → M) : List (Tree α L) → List (Tree α M)
  | [] => []
  | item :: rest => item.mapLater f :: mapLaterItems f rest

end

end Tree

end GraphQL
