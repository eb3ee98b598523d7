/-!
Kinds of tokens, their names and the fixed texts of operators and reserved words.
-/

namespace FrontEnd

inductive Kind
  | eof | illegal | number | string | identifier
  | openBracket | closeBracket | openCurly | closeCurly | openParen | closeParen
  | assign | equal | bang | notEqual | less | greater
  | semicolon | colon | comma
  | plus | dash | slash | star
  | letWord | fnWord | returnWord | ifWord | elseWord | trueWord | falseWord
deriving DecidableEq, Repr

namespace Kind

def name : Kind → String
  | eof => "EOF"
  | illegal => "Illegal"
  | number => "Number"
  | string => "String"
  | identifier => "Identifier"
  | openBracket => "OpenBracket"
  | closeBracket => "CloseBracket"
  | openCurly => "OpenCurly"
  | closeCurly => "CloseCurly"
  | openParen => "OpenParen"
  | closeParen => "CloseParen"
  | assign => "Assignment"
  | equal => "Equals"
  | bang => "Not"
  | notEqual => "NotEquals"
  | less => "Less"
  | greater => "Greater"
  | semicolon => "Semicolon"
  | colon => "Colon"
  | comma => "Comma"
  | plus => "Plus"
  | dash => "Dash"
  | slash => "Slash"
  | star => "Star"
  | letWord => "Let"
  | fnWord => "Fn"
  | returnWord => "Return"
  | ifWord => "If"
  | elseWord => "Else"
  | trueWord => "True"
  | falseWord => "False"

/-- The text of an operator or reserved word; empty for the kinds whose text varies. -/
def spelling : Kind → List Char
  | eof | illegal | number | string | identifier => []
  | openBracket => ['[']
  | closeBracket => [']']
  | openCurly => ['{']
  | closeCurly => ['}']
  | openParen => ['(']
  | closeParen => [')']
  | assign => ['=']
  | equal => ['=', '=']
  | bang => ['!']
  | notEqual => ['!', '=']
  | less => ['<']
  | greater => ['>']
  | semicolon => [';']
  | colon => [':']
  | comma => [',']
  | plus => ['+']
  | dash => ['-']
  | slash => ['/']
  | star => ['*']
  | letWord => ['l', 'e', 't']
  | fnWord => ['f', 'n']
  | returnWord => ['r', 'e', 't', 'u', 'r', 'n']
  | ifWord => ['i', 'f']
  | elseWord => ['e', 'l', 's', 'e']
  | trueWord => ['t', 'r', 'u', 'e']
  | falseWord => ['f', 'a', 'l', 's', 'e']

def keywords : List Kind :=
  [letWord, fnWord, returnWord, ifWord, elseWord, trueWord, falseWord]

/-- Where one operator begins another, the longer comes first. -/
def symbols : List Kind :=
  [openBracket, closeBracket, openCurly, closeCurly, openParen, closeParen,
    equal, notEqual, bang, assign, less, greater,
    semicolon, colon, comma, plus, dash, slash, star]

def keyword? (word : List Char) : Option Kind :=
  keywords.find? fun k => k.spelling == word

/-- Kinds whose text is shown in a dump; of the others the kind says all. -/
def varies (k : Kind) : Bool :=
  [string, identifier, number, illegal].contains k

end Kind

end FrontEnd
