/-!
# Positions in a source text

Lines and columns count from one. A line ends with `\n`, `\r\n` or a `\r` alone; every other
character moves one column on.
-/

namespace GraphQL

/-- A line and a column. -/
structure Position where
  line : Nat
  column : Nat
  deriving DecidableEq, Repr, Inhabited

namespace Position

/-- The position of the first character. -/
def start : Position :=
  ⟨1, 1⟩

def nextLine (p : Position) : Position :=
  ⟨p.line + 1, 1⟩

def nextColumn (p : Position) : Position :=
  ⟨p.line, p.column + 1⟩

/-- The position reached after a piece of text that starts at `p`. -/
def after (p : Position) : List Char → Position
  | [] => p
  | '\r' :: '\n' :: cs => after p.nextLine cs
  | '\r' :: cs => after p.nextLine cs
  | '\n' :: cs => after p.nextLine cs
  | _ :: cs => after p.nextColumn cs

/-- The position as `line:column`. -/
def text (p : Position) : String :=
  s!"{p.line}:{p.column}"

/-- The position as messages give it. -/
def bracketed (p : Position) : String :=
  s!"[{p.line}, {p.column}]"

end Position

/-- A part of a document with the position of its first token. -/
structure Located (α : Type) where
  pos : Position
  node : α
  deriving DecidableEq, Repr

namespace Located

variable {α β : Type}

def map (f : α → β) (x : Located α) : Located β :=
  ⟨x.pos, f x.node⟩

end Located

end GraphQL
