import GraphQL.Text.Class
import GraphQL.Text.Unprintable

/-!
# Texts shown in messages

A message that mentions a piece of source shows it in double quotes, with every character that
would not be visible replaced by an escape.
-/

namespace GraphQL.Text

/-- How a character is shown: the usual escapes, or the number of one that does not print. -/
def shownChar (c : Char) : List Char :=
  if c = '\x00' then ['\\', '0']
  else if c = '\t' then ['\\', 't']
  else if c = '\r' then ['\\', 'r']
  else if c = '\n' then ['\\', 'n']
  else if c = '"' then ['\\', '"']
  else if c = '\\' then ['\\', '\\']
  else if isUnprintable c then '\\' :: 'u' :: '{' :: Nat.toDigits 16 c.toNat ++ ['}']
  else [c]

/-- A text as it appears in a message. -/
def shown (s : String) : String :=
  String.ofList ('"' :: s.toList.flatMap shownChar ++ ['"'])

end GraphQL.Text
