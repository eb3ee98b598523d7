import FrontEnd.Parser.Expr

/-!
Programs.
-/

namespace FrontEnd

namespace Parse

def program : Parse Program := do
  let statements ← stmtsUntil expr fun k => k == .eof
  return ⟨statements.toList⟩

end Parse

/-- The program that a parser still has before it, and the parser behind it. -/
def Parser.program (p : Parser) : Program × Parser :=
  match Parse.program p with
  | (program, q) => (program.getD ⟨[]⟩, q)

/-- Where there are diagnostics, the program is what could be made of the rest. -/
def parse (source : String) (file : Option String) : Program × List Diagnostic :=
  match (Parser.ofString source file).program with
  | (program, p) => (program, p.diagnostics.toList)

def parseTokens (tokens : List Token) : Program × List Diagnostic :=
  match (Parser.ofTokens tokens).program with
  | (program, p) => (program, p.diagnostics.toList)

end FrontEnd
