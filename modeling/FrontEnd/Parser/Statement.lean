import FrontEnd.Parser.Parse
import FrontEnd.Tree.Basic

/-!
Statements and blocks. Each step begins on the first token of what it parses and ends on the last. The expressions
inside are parsed by the `sub` that the step is given.
-/

namespace FrontEnd

/-- Parses an expression as far as operators bind tighter than the given power. -/
abbrev SubExpr := BindingPower → Parse Expr

namespace Parse

/-- Takes an identifier as the next token. -/
def ident : Parse Ident := do
  expect .identifier
  let token ← current
  return ⟨token, token.value⟩

def skipSemicolon : Parse Unit := do
  if ← peekIs .semicolon then advance

def bindStmt (sub : SubExpr) : Parse Stmt := do
  let token ← current
  let name ← ident
  expect .assign
  advance
  let value ← attempt (sub .lowest)
  skipSemicolon
  return .bind token name (value.map (Expr.labelled name.name))

def retStmt (sub : SubExpr) : Parse Stmt := do
  let token ← current
  advance
  let value ← attempt (sub .lowest)
  skipSemicolon
  return .ret token value

def exprStmt (sub : SubExpr) : Parse Stmt := do
  let token ← current
  let value ← attempt (sub .lowest)
  skipSemicolon
  return .expr token (← ofOption value)

def stmt (sub : SubExpr) : Parse Stmt := do
  let token ← current
  match token.kind.statement? with
  | some .bind => bindStmt sub
  | some .ret => retStmt sub
  | none => exprStmt sub

/-- Parses one more statement, and leaves it out if it fails. -/
def collect (sub : SubExpr) (found : Array Stmt) : Parse (Array Stmt) := do
  let s ← attempt (stmt sub)
  advance
  return match s with
    | some s => found.push s
    | none => found

/-- Parses statements up to a token of which `stop` holds. -/
def stmtsUntil (sub : SubExpr) (stop : Kind → Bool) : Parse (Array Stmt) :=
  repeatWhile (fun p => !stop p.current.kind) (collect sub) #[]

/-- A block that is not closed ends with the text and keeps what it holds. -/
def block (sub : SubExpr) : Parse Block := do
  let token ← current
  advance
  let body ← stmtsUntil sub fun k => k == .closeCurly || k == .eof
  if ← currentIs .eof then report ⟨.unterminatedBlock token.value, token.span.start⟩
  return .mk token body.toList

end Parse

end FrontEnd
