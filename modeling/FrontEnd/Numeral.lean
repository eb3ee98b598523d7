/-!
Values of number texts. A leading zero makes the rest octal; the value has to fit a signed word of 64 bits.
-/

namespace FrontEnd.Numeral

def digit? (radix : Nat) (c : Char) : Option Nat :=
  if c.isDigit && c.toNat - '0'.toNat < radix then some (c.toNat - '0'.toNat) else none

/-- The digits that follow those worth `n`. -/
def digitsFrom? (radix n : Nat) : List Char → Option Nat
  | [] => some n
  | c :: cs =>
    match digit? radix c with
    | some d => digitsFrom? radix (n * radix + d) cs
    | none => none

def natural? (radix : Nat) : List Char → Option Nat
  | [] => none
  | c :: cs => digitsFrom? radix 0 (c :: cs)

/-- One sign may stand before the digits. -/
def signed? (radix : Nat) : List Char → Option Int
  | '+' :: cs => (natural? radix cs).map fun n => (n : Int)
  | '-' :: cs => (natural? radix cs).map fun n => -(n : Int)
  | cs => (natural? radix cs).map fun n => (n : Int)

/-- Two to the sixty-third. -/
def bound : Int := 0x8000000000000000

def inRange (v : Int) : Bool :=
  decide (-bound ≤ v) && decide (v < bound)

def value? (text : String) : Option Int :=
  let read : Option Int :=
    match text.toList with
    | '0' :: c :: cs => signed? 8 (c :: cs)
    | cs => signed? 10 cs
  read.filter inRange

end FrontEnd.Numeral
