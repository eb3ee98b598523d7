/-!
String literals. Reading takes the extent of a literal first and decodes its text afterwards; `Literal.print` writes a
value so that it reads back.
-/

namespace FrontEnd.Literal

/-- Characters of a literal after its opening quote, counted on top of `n`. An escape is taken as a pair, so an escaped
quote does not close the literal. A backslash with nothing to escape on its line stops short of the backslash. -/
def bodyLengthFrom (n : Nat) : List Char → Nat
  | [] => n
  | '"' :: _ => n + 1
  | ['\\'] => n
  | '\\' :: c :: cs => if c = '\n' then n else bodyLengthFrom (n + 2) cs
  | _ :: cs => bodyLengthFrom (n + 1) cs

def bodyLength (cs : List Char) : Nat :=
  bodyLengthFrom 0 cs

/-- What an escape stands for, if the character after the backslash makes one. -/
def escaped? : Char → Option Char
  | 'n' => some '\n'
  | 't' => some '\t'
  | 'r' => some '\r'
  | '\\' => some '\\'
  | '"' => some '"'
  | _ => none

/-- Decodes up to the first quote that is not escaped, onto `acc`. A backslash that makes no escape stands for
itself. -/
def decodeOnto (acc : String) : List Char → String
  | [] => acc
  | '"' :: _ => acc
  | ['\\'] => acc.push '\\'
  | '\\' :: c :: cs =>
    match escaped? c with
    | some d => decodeOnto (acc.push d) cs
    | none => decodeOnto (acc.push '\\') (c :: cs)
  | c :: cs => decodeOnto (acc.push c) cs
  termination_by structural cs => cs

/-- The value of the literal whose text after the opening quote is `body`. -/
def decode (body : List Char) : String :=
  decodeOnto "" body

def printChar : Char → List Char
  | '\n' => ['\\', 'n']
  | '\t' => ['\\', 't']
  | '\r' => ['\\', 'r']
  | '\\' => ['\\', '\\']
  | '"' => ['\\', '"']
  | c => [c]

def print (value : String) : String :=
  String.ofList ('"' :: value.toList.flatMap printChar ++ ['"'])

end FrontEnd.Literal
