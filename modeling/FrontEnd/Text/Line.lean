import FrontEnd.Text.Width

/-!
Lines of a text and the line that holds a byte offset.
-/

namespace FrontEnd

/-- A place in a text: the number of its line, counted from one, the text of that line with its line break, and the
bytes of the line before the place. -/
structure LinePlace where
  number : Nat
  text : List Char
  column : Nat
deriving DecidableEq, Repr

/-- The lines of a text, each with the line break that ends it. Behind the last line break there is a line only if there
is anything there. -/
def brokenLines (cs : List Char) : List (List Char) :=
  match _h : cs.dropWhile (· ≠ '\n') with
  | [] => if cs.isEmpty then [] else [cs]
  | _ :: rest => (cs.takeWhile (· ≠ '\n') ++ ['\n']) :: brokenLines rest
termination_by cs.length
decreasing_by
  have := (List.dropWhile_suffix (l := cs) (· ≠ '\n')).length_le
  rw [_h] at this
  exact this

/-- Looks for the line that the byte at `offset` belongs to. The lines begin `start` bytes into the text, the first of
them with this number. -/
def holdingLine? (offset start number : Nat) : List (List Char) → Option LinePlace
  | [] => none
  | line :: lines =>
    if start ≤ offset ∧ offset < start + byteLength line then some ⟨number, line, offset - start⟩
    else holdingLine? offset (start + byteLength line) (number + 1) lines

/-- The place behind all lines, the first of which has this number: at the end of the last one, or below it where a line
break ends it. -/
def endPlace (number : Nat) (lines : List (List Char)) : LinePlace :=
  let last := lines.getLast?.getD []
  if last.getLast? = some '\n' ∨ lines = [] then ⟨number + lines.length, [], 0⟩
  else ⟨number + lines.length - 1, last, byteLength last⟩

def linePlace? (content : String) (offset : Nat) : Option LinePlace :=
  let lines := brokenLines content.toList
  if content.utf8ByteSize < offset then none else some ((holdingLine? offset 0 1 lines).getD (endPlace 1 lines))

end FrontEnd
