import FrontEnd.Lexer.Cursor
import FrontEnd.Main
import FrontEnd.Proofs.Grammar
import FrontEnd.Proofs.Parser.Phrase
import FrontEnd.Proofs.Parser.Statement
import FrontEnd.Proofs.Parser.Listing
import FrontEnd.Proofs.Parser.Operand
import FrontEnd.Proofs.Parser.Expr
import FrontEnd.Proofs.Parser.Program
import FrontEnd.Proofs.Parser.Lockstep
import FrontEnd.Proofs.Parser.Traversal
import FrontEnd.Proofs.Parser.Height
import FrontEnd.Proofs.Parser.Tower
import FrontEnd.Proofs.Parser.Limit
import FrontEnd.Proofs.Parser.Turn
import FrontEnd.Proofs.Parser.Recursion
import FrontEnd.Proofs.Parser.Confinement
import FrontEnd.Proofs.Lexer.Lexeme
import FrontEnd.Proofs.Lexer.Piece
import FrontEnd.Proofs.Lexer.Tiling
import FrontEnd.Proofs.Parser.Supply
import FrontEnd.Proofs.Parser.Halting
import FrontEnd.Proofs.Parser.Text
import FrontEnd.Proofs.Parser.Shared
import FrontEnd.Proofs.Parser.Boundary
import FrontEnd.Proofs.Parser.Transparency
import FrontEnd.Proofs.Parser.Onward
import FrontEnd.Proofs.Parser.Landing
import FrontEnd.Proofs.Parser.Brace
import FrontEnd.Proofs.Parser.Closing
import FrontEnd.Proofs.Parser.Nesting
import FrontEnd.Proofs.Print.Unplaced
import FrontEnd.Proofs.Print.Moved
import FrontEnd.Proofs.Parser.Layout
import FrontEnd.Proofs.Print.Lexing
import FrontEnd.Proofs.Print.Legible
import FrontEnd.Proofs.Print.Rereading
import FrontEnd.Proofs.Print.Statement
import FrontEnd.Proofs.Print.Apart
import FrontEnd.Proofs.Print.Nesting
import FrontEnd.Proofs.Print.Unambiguous
import FrontEnd.Proofs.Parser.Reported
import FrontEnd.Proofs.Parser.Balance
import FrontEnd.Proofs.Parser.Order
import FrontEnd.Proofs.Parser.Once
import FrontEnd.Proofs.Parser.Stray
import FrontEnd.Proofs.Parser.Tally
import FrontEnd.Proofs.Diagnostic.Rendering
import FrontEnd.Proofs.Text.Line
import FrontEnd.Proofs.Parser.Regard
import FrontEnd.Proofs.Text.Literal
import FrontEnd.Proofs.Lexer.Pattern
import FrontEnd.Proofs.Lexer.Munch
import FrontEnd.Proofs.Lexer.StringToken
import FrontEnd.Proofs.Lexer.Shift
import FrontEnd.Proofs.Lexer.LineBreak
import FrontEnd.Proofs.Command.Dump
import FrontEnd.Proofs.Text.Bytes
import FrontEnd.Proofs.Text.Lookup
import FrontEnd.Proofs.Print.OneLine
import FrontEnd.Proofs.Command.Session
import FrontEnd.Proofs.Numeral
