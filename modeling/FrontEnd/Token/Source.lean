import FrontEnd.Lexer.Basic

/-!
Where a parser takes its tokens from: a text that is lexed on demand, or tokens made ahead of time. Both go on giving an
empty token at the end.
-/

namespace FrontEnd

/-- `stop` is where the tokens end, also after they have been taken. -/
structure TokenBuffer where
  tokens : List Token
  stop : Position
deriving DecidableEq, Repr

namespace TokenBuffer

def ofList (tokens : List Token) : TokenBuffer where
  tokens := tokens
  stop := (tokens.getLast?.map fun t => t.span.stop).getD Position.null

def next (b : TokenBuffer) : Token × TokenBuffer :=
  match b.tokens with
  | [] => (Token.eof b.stop, b)
  | t :: ts => (t, ⟨ts, b.stop⟩)

end TokenBuffer

inductive TokenSource
  | text (lexer : Lexer)
  | buffer (tokens : TokenBuffer)

namespace TokenSource

def next : TokenSource → Token × TokenSource
  | text l => (l.next.1, text l.next.2)
  | buffer b => (b.next.1, buffer b.next.2)

/-- A bound on the tokens that are still to come before the end. -/
def size : TokenSource → Nat
  | text l => l.left
  | buffer b => b.tokens.length

end TokenSource

end FrontEnd
