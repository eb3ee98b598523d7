import FrontEnd.Tree.Print

/-!
Trees without their places in a text.
-/

namespace FrontEnd

def Token.unplaced (t : Token) : Token :=
  ⟨t.kind, t.value, ⟨Position.null, Position.null⟩⟩

def Ident.unplaced (id : Ident) : Ident :=
  ⟨id.token.unplaced, id.name⟩

mutual

/-- The tree without spans, and without the tokens that expression statements keep on top of their expression. -/
def Expr.unplaced : Expr → Expr
  | .ident id => .ident id.unplaced
  | .int token value => .int token.unplaced value
  | .str token value => .str token.unplaced value
  | .bool token value => .bool token.unplaced value
  | .unary token operator right => .unary token.unplaced operator right.unplaced
  | .binary token left operator right => .binary token.unplaced left.unplaced operator right.unplaced
  | .cond token condition consequence alternative =>
    .cond token.unplaced condition.unplaced consequence.unplaced (unplacedElse alternative)
  | .fn token parameters body name => .fn token.unplaced (parameters.map Ident.unplaced) body.unplaced name
  | .call token callee arguments => .call token.unplaced callee.unplaced (unplacedExprs arguments)
  | .array token elements => .array token.unplaced (unplacedExprs elements)
  | .index token collection index => .index token.unplaced collection.unplaced index.unplaced
  | .hash token entries => .hash token.unplaced (unplacedEntries entries)

def Entry.unplaced : Entry → Entry
  | .mk key value => .mk key.unplaced value.unplaced

def Stmt.unplaced : Stmt → Stmt
  | .bind token name value => .bind token.unplaced name.unplaced (unplacedValue value)
  | .ret token value => .ret token.unplaced (unplacedValue value)
  | .expr _ value => .expr (Token.eof Position.null) value.unplaced
  | .block body => .block body.unplaced

def Block.unplaced : Block → Block
  | .mk token body => .mk token.unplaced (unplacedStmts body)

def unplacedElse : Option Block → Option Block
  | none => none
  | some alternative => some alternative.unplaced

def unplacedValue : Option Expr → Option Expr
  | none => none
  | some value => some value.unplaced

def unplacedExprs : List Expr → List Expr
  | [] => []
  | e :: es => e.unplaced :: unplacedExprs es

def unplacedEntries : List Entry → List Entry
  | [] => []
  | e :: es => e.unplaced :: unplacedEntries es

def unplacedStmts : List Stmt → List Stmt
  | [] => []
  | s :: ss => s.unplaced :: unplacedStmts ss

end

def Program.unplaced (p : Program) : Program :=
  ⟨unplacedStmts p.statements⟩

theorem unplacedExprs_eq_map (es : List Expr) : unplacedExprs es = es.map Expr.unplaced := by
  induction es with
  | nil => rfl
  | cons e es ih => rw [unplacedExprs, ih, List.map_cons]

theorem unplacedEntries_eq_map (es : List Entry) : unplacedEntries es = es.map Entry.unplaced := by
  induction es with
  | nil => rfl
  | cons e es ih => rw [unplacedEntries, ih, List.map_cons]

theorem unplacedStmts_eq_map (ss : List Stmt) : unplacedStmts ss = ss.map Stmt.unplaced := by
  induction ss with
  | nil => rfl
  | cons s ss ih => rw [unplacedStmts, ih, List.map_cons]

mutual

/-- Printing does not look at places. -/
theorem Expr.print_unplaced : ∀ e : Expr, e.unplaced.print = e.print
  | .ident _ | .int _ _ | .str _ _ | .bool _ _ => rfl
  | .unary _ _ right => by rw [Expr.unplaced, Expr.print, Expr.print, right.print_unplaced]
  | .binary _ left _ right => by
    rw [Expr.unplaced, Expr.print, Expr.print, left.print_unplaced, right.print_unplaced]
  | .cond _ condition consequence alternative => by
    rw [Expr.unplaced, Expr.print, Expr.print, condition.print_unplaced, consequence.print_unplaced,
      printElse_unplaced alternative]
  | .fn token parameters body _ => by
    have hnames : (parameters.map Ident.unplaced).map Ident.name = parameters.map Ident.name := by
      rw [List.map_map]
      rfl
    rw [Expr.unplaced, Expr.print, Expr.print, body.print_unplaced, hnames]
    rfl
  | .call _ callee arguments => by
    rw [Expr.unplaced, Expr.print, Expr.print, callee.print_unplaced, printExprs_unplaced arguments]
  | .array _ elements => by rw [Expr.unplaced, Expr.print, Expr.print, printExprs_unplaced elements]
  | .index _ collection index => by
    rw [Expr.unplaced, Expr.print, Expr.print, collection.print_unplaced, index.print_unplaced]
  | .hash _ entries => by rw [Expr.unplaced, Expr.print, Expr.print, printEntries_unplaced entries]

theorem Entry.print_unplaced : ∀ entry : Entry, entry.unplaced.print = entry.print
  | .mk key value => by rw [Entry.unplaced, Entry.print, Entry.print, key.print_unplaced, value.print_unplaced]

theorem Stmt.print_unplaced : ∀ s : Stmt, s.unplaced.print = s.print
  | .bind _ _ value => by rw [Stmt.unplaced, Stmt.print, Stmt.print, printValue_unplaced value]; rfl
  | .ret _ value => by rw [Stmt.unplaced, Stmt.print, Stmt.print, printValue_unplaced value]; rfl
  | .expr _ value => by rw [Stmt.unplaced, Stmt.print, Stmt.print, value.print_unplaced]
  | .block body => by rw [Stmt.unplaced, Stmt.print, Stmt.print, body.print_unplaced]

theorem Block.print_unplaced : ∀ b : Block, b.unplaced.print = b.print
  | .mk _ body => by rw [Block.unplaced, Block.print, Block.print, printStmts_unplaced body]

theorem printElse_unplaced : ∀ o : Option Block, printElse (unplacedElse o) = printElse o
  | none => rfl
  | some alternative => by rw [unplacedElse, printElse, printElse, alternative.print_unplaced]

theorem printValue_unplaced : ∀ o : Option Expr, printValue (unplacedValue o) = printValue o
  | none => rfl
  | some value => by rw [unplacedValue, printValue, printValue, value.print_unplaced]

theorem printExprs_unplaced : ∀ es : List Expr, printExprs (unplacedExprs es) = printExprs es
  | [] => rfl
  | e :: es => by rw [unplacedExprs, printExprs, printExprs, e.print_unplaced, printExprs_unplaced es]

theorem printEntries_unplaced : ∀ es : List Entry, printEntries (unplacedEntries es) = printEntries es
  | [] => rfl
  | e :: es => by rw [unplacedEntries, printEntries, printEntries, e.print_unplaced, printEntries_unplaced es]

theorem printStmts_unplaced : ∀ ss : List Stmt, printStmts (unplacedStmts ss) = printStmts ss
  | [] => rfl
  | s :: ss => by rw [unplacedStmts, printStmts, printStmts, s.print_unplaced, printStmts_unplaced ss]

end

theorem Expr.print_eq_of_unplaced_eq {e e' : Expr} (h : e.unplaced = e'.unplaced) : e.print = e'.print := by
  rw [← e.print_unplaced, h, e'.print_unplaced]

/-- Programs that differ in places only are printed alike, statement by statement. -/
theorem Program.map_print_eq_of_unplaced_eq {p q : Program} (h : p.unplaced = q.unplaced) :
    p.statements.map Stmt.print = q.statements.map Stmt.print := by
  have hprint : ∀ p : Program, printStmts p.unplaced.statements = p.statements.map Stmt.print := by
    intro p
    rw [← printStmts_eq_map]
    exact printStmts_unplaced p.statements
  rw [← hprint, h, hprint]

theorem Program.print_eq_of_unplaced_eq {p q : Program} (h : p.unplaced = q.unplaced) : p.print = q.print := by
  unfold Program.print
  rw [printStmts_eq_map, printStmts_eq_map, map_print_eq_of_unplaced_eq h]

end FrontEnd
