import FrontEnd.Numeral
import FrontEnd.Parser.Statement

/-!
Operands: atoms, groups, conditionals, functions and collections, and what may follow an operand. Each step begins on
the first token of what it parses and ends on the last.
-/

namespace FrontEnd.Parse

/-- Reports that the token begins no operand. -/
def noOperand (token : Token) : Parse Expr := do
  report ⟨.noOperand token.kind token.value, token.span.start⟩
  fail

def int (token : Token) : Parse Expr :=
  match Numeral.value? token.value with
  | some value => return .int token value
  | none => do
    report ⟨.badNumber token.value, token.span.start⟩
    fail

def atom : Parse Expr := do
  let token ← current
  match token.kind with
  | .number => int token
  | .identifier => return .ident ⟨token, token.value⟩
  | .string => return .str token token.value
  | .trueWord => return .bool token true
  | .falseWord => return .bool token false
  | _ => noOperand token

def unary (sub : SubExpr) : Parse Expr := do
  let token ← current
  advance
  return .unary token token.value (← sub .unary)

def group (sub : SubExpr) : Parse Expr := do
  advance
  let value ← attempt (sub .lowest)
  expect .closeParen
  ofOption value

def alternative (sub : SubExpr) : Parse (Option Block) := do
  if ← peekIs .elseWord then
    advance
    expect .openCurly
    some <$> block sub
  else
    return none

def cond (sub : SubExpr) : Parse Expr := do
  let token ← current
  expect .openParen
  advance
  let condition ← attempt (sub .lowest)
  expect .closeParen
  expect .openCurly
  let consequence ← block sub
  let alternative ← alternative sub
  return .cond token (← ofOption condition) consequence alternative

/-- Takes the names behind an opening parenthesis and the closing one. -/
def parameters : Parse (List Ident) := do
  if ← peekIs .closeParen then
    advance
    return []
  else
    let first ← ident
    let found ← repeatWhile (fun p => p.peek.kind == .comma)
      (fun found => do
        advance
        return found.push (← ident))
      #[first]
    expect .closeParen
    return found.toList

def fn (sub : SubExpr) : Parse Expr := do
  let token ← current
  expect .openParen
  let parameters ← parameters
  expect .openCurly
  return .fn token parameters (← block sub) none

/-- Takes the expressions behind an opening bracket and the closing one. A failed expression fails the list, but only
once all of it has been taken. -/
def items (sub : SubExpr) (close : Kind) : Parse (List Expr) := do
  if ← peekIs close then
    advance
    return []
  else
    advance
    let first ← attempt (sub .lowest)
    let found ← repeatWhile (fun p => p.peek.kind == .comma)
      (fun found => do
        advance
        advance
        return found.push (← attempt (sub .lowest)))
      #[first]
    expect close
    ofOption (found.toList.mapM id)

def array (sub : SubExpr) : Parse Expr := do
  let token ← current
  return .array token (← items sub .closeBracket)

/-- Takes a key, its value and the comma behind them, which only the last entry can lack. -/
def entry (sub : SubExpr) : Parse (Option Entry) := do
  advance
  let key ← attempt (sub .lowest)
  expect .colon
  advance
  let value ← attempt (sub .lowest)
  unless ← peekIs .closeCurly do expect .comma
  return Entry.mk <$> key <*> value

def hash (sub : SubExpr) : Parse Expr := do
  let token ← current
  let found ← repeatWhile (fun p => p.peek.kind != .closeCurly)
    (fun found => do return found.push (← entry sub)) #[]
  expect .closeCurly
  return .hash token (← ofOption (found.toList.mapM id))

def operand (sub : SubExpr) : Parse Expr := do
  let token ← current
  match token.kind.operand? with
  | some .atom => atom
  | some .unary => unary sub
  | some .group => group sub
  | some .cond => cond sub
  | some .fn => fn sub
  | some .array => array sub
  | some .hash => hash sub
  | none => noOperand token

/-- The right operand holds what binds tighter than the operator, so operators of one level group to the left. -/
def binary (sub : SubExpr) (left : Expr) (power : BindingPower) : Parse Expr := do
  let token ← current
  advance
  return .binary token left token.value (← sub power)

def call (sub : SubExpr) (callee : Expr) : Parse Expr := do
  let token ← current
  return .call token callee (← items sub .closeParen)

def index (sub : SubExpr) (collection : Expr) : Parse Expr := do
  let token ← current
  advance
  let value ← attempt (sub .lowest)
  expect .closeBracket
  return .index token collection (← ofOption value)

end FrontEnd.Parse
