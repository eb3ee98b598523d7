import FrontEnd.Lexer.Basic

/-!
Cursors: places in a text reached by counting bytes, which need not be places where a token may start.
-/

namespace FrontEnd

/-- On a character boundary; `gap` bytes before one, inside a character; or beyond the end. -/
inductive Cursor
  | on (lexer : Lexer)
  | inside (gap : Nat) (lexer : Lexer)
  | beyond (excess : Nat) (lexer : Lexer)

namespace Cursor

/-- The place `n` bytes behind the head of the lexer's text. -/
def behind (n : Nat) (l : Lexer) : Cursor :=
  if n = 0 then on l
  else
    match l.rest with
    | [] => beyond n l
    | c :: _ => if c.utf8Size ≤ n then behind (n - c.utf8Size) (l.drop 1) else inside (c.utf8Size - n) (l.drop 1)
termination_by n
decreasing_by
  have := c.utf8Size_pos
  omega

def advance (n : Nat) : Cursor → Cursor
  | on l => behind n l
  | inside gap l => if n < gap then inside (gap - n) l else behind (n - gap) l
  | beyond excess l => beyond (excess + n) l

def offset : Cursor → Nat
  | on l => l.offset
  | inside gap l => l.offset - gap
  | beyond excess l => l.offset + excess

def file : Cursor → String
  | on l | inside _ l | beyond _ l => l.file

def position (c : Cursor) : Position :=
  .behind c.offset c.file

def spanOf (c : Cursor) (n : Nat) : Span :=
  ⟨c.position, .behind (c.offset + n) c.file⟩

def atEnd : Cursor → Bool
  | on l => l.rest.isEmpty
  | inside _ _ => false
  | beyond _ _ => true

/-- The text from here on, where a text can begin. -/
def remainder? : Cursor → Option (List Char)
  | on l => some l.rest
  | _ => none

/-- The character here; the null character stands for the end. -/
def character? (c : Cursor) : Option Char :=
  c.remainder?.map fun cs => cs.headD '\x00'

/-- No token starts inside a character. -/
def next? : Cursor → Option (Token × Cursor)
  | on l => some (l.next.1, on l.next.2)
  | inside _ _ => none
  | beyond excess l => some (Token.eof (beyond excess l).position, beyond excess l)

end Cursor

end FrontEnd
