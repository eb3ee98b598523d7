import FrontEnd.Diagnostic.Basic
import FrontEnd.Parser.Grammar
import FrontEnd.Token.Source

/-!
Parsers: the token being parsed, one token of lookahead, the diagnostics so far and the nesting of the expression being
built.
-/

namespace FrontEnd

def maxNestingDepth : Nat := 256

/-- `deepest` is the greatest `depth` so far. While `overflowed`, an expression that nests deeper than `limit` is being
given up, and nothing further is reported about it. -/
structure Parser where
  source : TokenSource
  current : Token
  peek : Token
  diagnostics : Array Diagnostic
  limit : Nat
  depth : Nat
  deepest : Nat
  overflowed : Bool

namespace Parser

def withLimit (limit : Nat) (source : TokenSource) : Parser where
  current := source.next.1
  peek := source.next.2.next.1
  source := source.next.2.next.2
  diagnostics := #[]
  limit := limit
  depth := 0
  deepest := 0
  overflowed := false

def ofSource (source : TokenSource) : Parser :=
  withLimit maxNestingDepth source

def ofString (source : String) (file : Option String) : Parser :=
  ofSource (.text (Lexer.ofString source file))

def ofTokens (tokens : List Token) : Parser :=
  ofSource (.buffer (TokenBuffer.ofList tokens))

/-- A bound on the tokens that are still to be parsed, the two in view included. -/
def left (p : Parser) : Nat :=
  p.source.size + 2

def advance (p : Parser) : Parser :=
  { p with current := p.peek, peek := p.source.next.1, source := p.source.next.2 }

def report (d : Diagnostic) (p : Parser) : Parser :=
  if p.overflowed then p else { p with diagnostics := p.diagnostics.push d }

/-- Moves on if the lookahead has this kind, and reports it otherwise. -/
def expect (kind : Kind) (p : Parser) : Bool × Parser :=
  if p.peek.kind = kind then (true, p.advance)
  else (false, p.report ⟨.unexpectedToken kind p.peek.kind p.peek.value, p.peek.span.start⟩)

/-- Goes one level deeper, unless that is too deep or the expression is being given up. -/
def descend (p : Parser) : Bool × Parser :=
  if p.overflowed then (false, p)
  else
    let q := { p with depth := p.depth + 1, deepest := max p.deepest (p.depth + 1) }
    if q.depth ≤ p.limit then (true, q)
    else (false, { q.report ⟨.nestingTooDeep p.limit, p.current.span.start⟩ with overflowed := true })

def skipWithin : Nat → Parser → Parser
  | 0, p => p
  | n + 1, p => if p.peek.kind = .semicolon ∨ p.peek.kind = .eof then p else skipWithin n p.advance

/-- Moves on until a semicolon or the end is next. -/
def skipToBoundary (p : Parser) : Parser :=
  skipWithin p.left p

/-- Goes back to a level. Behind an outermost expression that has been given up, what is left of its statement is
skipped. -/
def unwind (depth : Nat) (p : Parser) : Parser :=
  let q := { p with depth := depth }
  if depth = 0 ∧ p.overflowed then { q.skipToBoundary with overflowed := false } else q

def messages (p : Parser) : List String :=
  p.diagnostics.toList.map Diagnostic.message

end Parser

end FrontEnd
