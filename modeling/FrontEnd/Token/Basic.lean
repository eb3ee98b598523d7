import FrontEnd.Text.Quoted
import FrontEnd.Token.Kind

/-!
Tokens and where they stand.
-/

namespace FrontEnd

/-- A byte offset into a named text, kept in 32 bits. -/
structure Position where
  offset : UInt32
  file : String
deriving DecidableEq, Repr

namespace Position

/-- The place behind so many bytes of a text. What does not fit into the offset is cut off, so a place `2 ^ 32` bytes
further on has the same offset. -/
def behind (bytes : Nat) (file : String) : Position :=
  ⟨UInt32.ofNat bytes, file⟩

/-- Stands for a place where no text is at hand. -/
def null : Position :=
  ⟨0, "<null>"⟩

end Position

structure Span where
  start : Position
  stop : Position
deriving DecidableEq, Repr

/-- `value` is the decoded text of a string and the text as written of any other token. -/
structure Token where
  kind : Kind
  value : String
  span : Span
deriving DecidableEq, Repr

namespace Token

def eof (position : Position) : Token :=
  ⟨.eof, "", ⟨position, position⟩⟩

/-- The line of a dump that shows the token. -/
def dump (t : Token) : String :=
  if t.kind.varies then t.kind.name ++ " (" ++ t.value ++ ")" else t.kind.name ++ " ()"

def describe (t : Token) : String :=
  "Token \x7b kind: " ++ t.kind.name ++ ", value: " ++ quoted t.value ++ " \x7d"

end Token

end FrontEnd
