/-!
Files: why one cannot be read, the text that one holds, and the names on its path.
-/

namespace FrontEnd

inductive ReadError
  | notFound | notDirectory | isDirectory | notText
  | system (code : Nat) (description : String)
deriving DecidableEq, Repr

def ReadError.message : ReadError → String
  | notFound => "No such file or directory (os error 2)"
  | notDirectory => "Not a directory (os error 20)"
  | isDirectory => "Is a directory (os error 21)"
  | notText => "stream did not contain valid UTF-8"
  | system code description => description ++ " (os error " ++ toString code ++ ")"

def decodeText (bytes : ByteArray) : Except ReadError String :=
  match String.fromUTF8? bytes with
  | some text => .ok text
  | none => .error .notText

/-- The names on a path, without those that stand for the place where they are. -/
def pathNames (path : String) : List String :=
  (path.splitOn "/").filter fun name => name ≠ "" ∧ name ≠ "."

end FrontEnd
