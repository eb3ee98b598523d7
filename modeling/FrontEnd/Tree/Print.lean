import FrontEnd.Text.Literal
import FrontEnd.Tree.Basic

/-!
Printing trees. Operators come out fully parenthesised; numbers and truth values come out as they were written.
-/

namespace FrontEnd

mutual

def Expr.print : Expr → String
  | .ident id => id.name
  | .int token _ => token.value
  | .str _ value => Literal.print value
  | .bool token _ => token.value
  | .unary _ operator right => "(" ++ operator ++ right.print ++ ")"
  | .binary _ left operator right => "(" ++ left.print ++ " " ++ operator ++ " " ++ right.print ++ ")"
  | .cond _ condition consequence alternative =>
    "if" ++ condition.print ++ " " ++ consequence.print ++ printElse alternative
  | .fn token parameters body _ =>
    token.value ++ "(" ++ ", ".intercalate (parameters.map Ident.name) ++ ") " ++ body.print
  | .call _ callee arguments => callee.print ++ "(" ++ ", ".intercalate (printExprs arguments) ++ ")"
  | .array _ elements => "[" ++ ", ".intercalate (printExprs elements) ++ "]"
  | .index _ collection index => "(" ++ collection.print ++ "[" ++ index.print ++ "])"
  | .hash _ entries => "\x7b" ++ ", ".intercalate (printEntries entries) ++ "\x7d"

def Entry.print : Entry → String
  | .mk key value => key.print ++ ": " ++ value.print

def Stmt.print : Stmt → String
  | .bind token name value => token.value ++ " " ++ name.name ++ " = " ++ printValue value ++ ";"
  | .ret token value => token.value ++ " " ++ printValue value ++ ";"
  | .expr _ value => value.print
  | .block body => body.print

def Block.print : Block → String
  | .mk _ body => String.join (printStmts body)

def printElse : Option Block → String
  | none => ""
  | some alternative => "else " ++ alternative.print

def printValue : Option Expr → String
  | none => ""
  | some value => value.print

def printExprs : List Expr → List String
  | [] => []
  | e :: es => e.print :: printExprs es

def printEntries : List Entry → List String
  | [] => []
  | e :: es => e.print :: printEntries es

def printStmts : List Stmt → List String
  | [] => []
  | s :: ss => s.print :: printStmts ss

end

theorem printExprs_eq_map (es : List Expr) : printExprs es = es.map Expr.print := by
  induction es with
  | nil => rfl
  | cons e es ih => rw [printExprs, ih, List.map_cons]

theorem printEntries_eq_map (es : List Entry) : printEntries es = es.map Entry.print := by
  induction es with
  | nil => rfl
  | cons e es ih => rw [printEntries, ih, List.map_cons]

theorem printStmts_eq_map (ss : List Stmt) : printStmts ss = ss.map Stmt.print := by
  induction ss with
  | nil => rfl
  | cons s ss ih => rw [printStmts, ih, List.map_cons]

def Program.print (p : Program) : String :=
  String.join (printStmts p.statements)

end FrontEnd
