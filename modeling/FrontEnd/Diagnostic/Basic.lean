import FrontEnd.Token.Basic

/-!
Diagnostics: what a parser found wrong and where.
-/

namespace FrontEnd

/-- Texts are those of the tokens concerned, as the token holds them. -/
inductive Fault
  | unexpectedToken (expected found : Kind) (text : String)
  | unterminatedBlock (opened : String)
  | nestingTooDeep (limit : Nat)
  | noOperand (kind : Kind) (text : String)
  | badNumber (text : String)
deriving DecidableEq, Repr

inductive FaultCategory
  | structural | unsupportedToken | literalConversion
deriving DecidableEq, Repr

namespace Fault

def name : Fault → String
  | unexpectedToken _ _ _ => "UnexpectedToken"
  | unterminatedBlock _ => "UnterminatedBlock"
  | nestingTooDeep _ => "NestingTooDeep"
  | noOperand _ _ => "NoPrefixHandler"
  | badNumber _ => "NumberParseError"

def category : Fault → FaultCategory
  | unexpectedToken _ _ _ | unterminatedBlock _ | nestingTooDeep _ => .structural
  | noOperand _ _ => .unsupportedToken
  | badNumber _ => .literalConversion

def message : Fault → String
  | unexpectedToken expected found text =>
    "expected next token to be " ++ expected.name ++ ", got " ++ found.name ++ " (" ++ quoted text ++ ") instead"
  | unterminatedBlock opened => "block opened with " ++ quoted opened ++ " is never closed"
  | nestingTooDeep limit => "expression nested deeper than " ++ toString limit ++ " levels"
  | noOperand kind text => "no prefix parse function for " ++ kind.name ++ " (" ++ quoted text ++ ") found"
  | badNumber text => "could not parse " ++ quoted text ++ " as integer"

/-- What to try, where there is something to say. -/
def tip? : Fault → Option String
  | unexpectedToken expected found _ =>
    some ("expected next token to be " ++ expected.name ++ ", got " ++ found.name ++ " instead")
  | unterminatedBlock _ => some "did you forget a closing `\x7d`?"
  | nestingTooDeep _ => some "split the expression with intermediate `let` bindings"
  | noOperand _ _ => none
  | badNumber text =>
    some ("Invalid number: `" ++ text ++ "`, is it above the integer limit or not valid octal?")

end Fault

structure Diagnostic where
  fault : Fault
  position : Position
deriving DecidableEq, Repr

def Diagnostic.message (d : Diagnostic) : String :=
  d.fault.message

end FrontEnd
