import FrontEnd.Diagnostic.Basic
import FrontEnd.Proofs.Print.Unplaced

/-!
Trees and diagnostics whose places in the text are other ones.
-/

namespace FrontEnd

variable (move : Position → Position)

def Token.moved (t : Token) : Token :=
  ⟨t.kind, t.value, ⟨move t.span.start, move t.span.stop⟩⟩

@[simp] theorem Token.moved_kind (t : Token) : (t.moved move).kind = t.kind := rfl

@[simp] theorem Token.moved_value (t : Token) : (t.moved move).value = t.value := rfl

def Ident.moved (id : Ident) : Ident :=
  ⟨id.token.moved move, id.name⟩

def Diagnostic.moved (d : Diagnostic) : Diagnostic :=
  ⟨d.fault, move d.position⟩

mutual

/-- The tree with the spans of all its tokens moved. -/
def Expr.moved : Expr → Expr
  | .ident id => .ident (id.moved move)
  | .int token value => .int (token.moved move) value
  | .str token value => .str (token.moved move) value
  | .bool token value => .bool (token.moved move) value
  | .unary token operator right => .unary (token.moved move) operator right.moved
  | .binary token left operator right => .binary (token.moved move) left.moved operator right.moved
  | .cond token condition consequence alternative =>
    .cond (token.moved move) condition.moved consequence.moved (movedElse alternative)
  | .fn token parameters body name => .fn (token.moved move) (parameters.map (Ident.moved move)) body.moved name
  | .call token callee arguments => .call (token.moved move) callee.moved (movedExprs arguments)
  | .array token elements => .array (token.moved move) (movedExprs elements)
  | .index token collection index => .index (token.moved move) collection.moved index.moved
  | .hash token entries => .hash (token.moved move) (movedEntries entries)

def Entry.moved : Entry → Entry
  | .mk key value => .mk key.moved value.moved

def Stmt.moved : Stmt → Stmt
  | .bind token name value => .bind (token.moved move) (name.moved move) (movedValue value)
  | .ret token value => .ret (token.moved move) (movedValue value)
  | .expr token value => .expr (token.moved move) value.moved
  | .block body => .block body.moved

def Block.moved : Block → Block
  | .mk token body => .mk (token.moved move) (movedStmts body)

def movedElse : Option Block → Option Block
  | none => none
  | some alternative => some alternative.moved

def movedValue : Option Expr → Option Expr
  | none => none
  | some value => some value.moved

def movedExprs : List Expr → List Expr
  | [] => []
  | e :: es => e.moved :: movedExprs es

def movedEntries : List Entry → List Entry
  | [] => []
  | e :: es => e.moved :: movedEntries es

def movedStmts : List Stmt → List Stmt
  | [] => []
  | s :: ss => s.moved :: movedStmts ss

end

def Program.moved (p : Program) : Program :=
  ⟨movedStmts move p.statements⟩

/-- Where no place differs from any other. -/
def Position.erased (_ : Position) : Position :=
  Position.null

theorem movedElse_eq_map (o : Option Block) : movedElse move o = o.map (Block.moved move) := by
  cases o <;> rfl

theorem movedValue_eq_map (o : Option Expr) : movedValue move o = o.map (Expr.moved move) := by
  cases o <;> rfl

theorem movedExprs_eq_map (es : List Expr) : movedExprs move es = es.map (Expr.moved move) := by
  induction es with
  | nil => rfl
  | cons e es ih => rw [movedExprs, ih, List.map_cons]

theorem movedEntries_eq_map (es : List Entry) : movedEntries move es = es.map (Entry.moved move) := by
  induction es with
  | nil => rfl
  | cons e es ih => rw [movedEntries, ih, List.map_cons]

theorem movedStmts_eq_map (ss : List Stmt) : movedStmts move ss = ss.map (Stmt.moved move) := by
  induction ss with
  | nil => rfl
  | cons s ss ih => rw [movedStmts, ih, List.map_cons]

theorem Expr.labelled_moved (label : String) (e : Expr) :
    (e.labelled label).moved move = (e.moved move).labelled label := by
  cases e <;> rfl

mutual

/-- Where a tree has been moved to no longer shows once it has no places. -/
theorem Expr.unplaced_moved : ∀ e : Expr, (e.moved move).unplaced = e.unplaced
  | .ident _ | .int _ _ | .str _ _ | .bool _ _ => rfl
  | .unary _ _ right => by rw [Expr.moved, Expr.unplaced, Expr.unplaced, right.unplaced_moved]; rfl
  | .binary _ left _ right => by
    rw [Expr.moved, Expr.unplaced, Expr.unplaced, left.unplaced_moved, right.unplaced_moved]
    rfl
  | .cond _ condition consequence alternative => by
    rw [Expr.moved, Expr.unplaced, Expr.unplaced, condition.unplaced_moved, consequence.unplaced_moved,
      unplacedElse_moved alternative]
    rfl
  | .fn _ parameters body _ => by
    have hparameters : (parameters.map (Ident.moved move)).map Ident.unplaced = parameters.map Ident.unplaced := by
      rw [List.map_map]
      rfl
    rw [Expr.moved, Expr.unplaced, Expr.unplaced, body.unplaced_moved, hparameters]
    rfl
  | .call _ callee arguments => by
    rw [Expr.moved, Expr.unplaced, Expr.unplaced, callee.unplaced_moved, unplacedExprs_moved arguments]
    rfl
  | .array _ elements => by rw [Expr.moved, Expr.unplaced, Expr.unplaced, unplacedExprs_moved elements]; rfl
  | .index _ collection index => by
    rw [Expr.moved, Expr.unplaced, Expr.unplaced, collection.unplaced_moved, index.unplaced_moved]
    rfl
  | .hash _ entries => by rw [Expr.moved, Expr.unplaced, Expr.unplaced, unplacedEntries_moved entries]; rfl

theorem Entry.unplaced_moved : ∀ entry : Entry, (entry.moved move).unplaced = entry.unplaced
  | .mk key value => by
    rw [Entry.moved, Entry.unplaced, Entry.unplaced, key.unplaced_moved, value.unplaced_moved]

theorem Stmt.unplaced_moved : ∀ s : Stmt, (s.moved move).unplaced = s.unplaced
  | .bind _ _ value => by rw [Stmt.moved, Stmt.unplaced, Stmt.unplaced, unplacedValue_moved value]; rfl
  | .ret _ value => by rw [Stmt.moved, Stmt.unplaced, Stmt.unplaced, unplacedValue_moved value]; rfl
  | .expr _ value => by rw [Stmt.moved, Stmt.unplaced, Stmt.unplaced, value.unplaced_moved]
  | .block body => by rw [Stmt.moved, Stmt.unplaced, Stmt.unplaced, body.unplaced_moved]

theorem Block.unplaced_moved : ∀ b : Block, (b.moved move).unplaced = b.unplaced
  | .mk _ body => by rw [Block.moved, Block.unplaced, Block.unplaced, unplacedStmts_moved body]; rfl

theorem unplacedElse_moved : ∀ o : Option Block, unplacedElse (movedElse move o) = unplacedElse o
  | none => rfl
  | some alternative => by rw [movedElse, unplacedElse, unplacedElse, alternative.unplaced_moved]

theorem unplacedValue_moved : ∀ o : Option Expr, unplacedValue (movedValue move o) = unplacedValue o
  | none => rfl
  | some value => by rw [movedValue, unplacedValue, unplacedValue, value.unplaced_moved]

theorem unplacedExprs_moved : ∀ es : List Expr, unplacedExprs (movedExprs move es) = unplacedExprs es
  | [] => rfl
  | e :: es => by rw [movedExprs, unplacedExprs, unplacedExprs, e.unplaced_moved, unplacedExprs_moved es]

theorem unplacedEntries_moved : ∀ es : List Entry, unplacedEntries (movedEntries move es) = unplacedEntries es
  | [] => rfl
  | e :: es => by rw [movedEntries, unplacedEntries, unplacedEntries, e.unplaced_moved, unplacedEntries_moved es]

theorem unplacedStmts_moved : ∀ ss : List Stmt, unplacedStmts (movedStmts move ss) = unplacedStmts ss
  | [] => rfl
  | s :: ss => by rw [movedStmts, unplacedStmts, unplacedStmts, s.unplaced_moved, unplacedStmts_moved ss]

end

theorem Program.unplaced_moved (p : Program) : (p.moved move).unplaced = p.unplaced :=
  congrArg Program.mk (unplacedStmts_moved move p.statements)

variable {move}

theorem Program.print_eq_of_moved_eq {p q : Program} (h : p.moved move = q.moved move) : p.print = q.print := by
  apply print_eq_of_unplaced_eq
  rw [← p.unplaced_moved move, h, q.unplaced_moved]

end FrontEnd
