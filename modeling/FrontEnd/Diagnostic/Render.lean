import FrontEnd.Diagnostic.Basic
import FrontEnd.Text.Blank
import FrontEnd.Text.Line

/-!
Diagnostics shown with the line they point at, the line number in a gutter to the left and a caret below.
-/

namespace FrontEnd

def spaces (n : Nat) : String :=
  String.ofList (List.replicate n ' ')

namespace LinePlace

/-- Spaces at the head of the line, which are not shown. -/
def indent (place : LinePlace) : Nat :=
  (place.text.takeWhile (· = ' ')).length

def shownText (place : LinePlace) : String :=
  String.ofList (trimBlankEnd (place.text.drop place.indent))

/-- How far the caret stands to the right of the first shown character. -/
def shownColumn (place : LinePlace) : Nat :=
  place.column - place.indent

def excerpt (place : LinePlace) : String :=
  let number := toString place.number
  let gutter := spaces (number.length + 1) ++ "|"
  gutter ++ "\n" ++
    number ++ " | " ++ place.shownText ++ "\n" ++
    gutter ++ " " ++ String.ofList (List.replicate place.shownColumn '-') ++ "^\n"

end LinePlace

namespace Diagnostic

def headline (d : Diagnostic) : String :=
  match d.fault.tip? with
  | none => "Error: " ++ d.fault.name ++ "\n"
  | some tip => "Error: " ++ d.fault.name ++ " (" ++ tip ++ ")\n"

/-- A place outside the text is shown by the message alone. -/
def render (d : Diagnostic) (source file : String) : String :=
  d.headline ++ "-> " ++ file ++ "\n" ++
    match linePlace? source d.position.offset.toNat with
    | some place => place.excerpt
    | none => "   " ++ d.message ++ "\n"

end Diagnostic

end FrontEnd
