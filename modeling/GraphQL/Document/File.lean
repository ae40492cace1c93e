import GraphQL.Document.Parser.TypeSystem

/-!
# Documents in files

Parsing the content of a file. What the file system found is a value here: the bytes of the file,
or nothing when there is no such file.
-/

namespace GraphQL

/-- Why a file gives no document. -/
inductive FileError where
  | notFound
  | notText
  | malformed (error : ParseError)

/-- Parses the bytes found under a path, which have to be UTF-8. -/
def Document.parseFile (path : String) (content : Option ByteArray) :
    Except FileError Document :=
  match content with
  | none => .error .notFound
  | some bytes =>
    match String.fromUTF8? bytes with
    | none => .error .notText
    | some source =>
      match Document.parse source (some path) with
      | .ok d => .ok d
      | .error e => .error (.malformed e)

end GraphQL
