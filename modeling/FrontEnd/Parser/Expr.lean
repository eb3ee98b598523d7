import FrontEnd.Parser.Operand

/-!
Expressions: an operand, and operators folded onto it from the left. Each expression and each fold is one level of
nesting, so expressions inside one another never go deeper than the limit and one.
-/

namespace FrontEnd

namespace Parse

/-- Whether the lookahead is an operator that binds tighter. -/
def bindsTighter (power : BindingPower) (p : Parser) : Bool :=
  match p.peek.kind.operator? with
  | some (next, _) => power < next
  | none => false

/-- Folds the operator that this token is onto the expression to its left. -/
def foldAt (sub : SubExpr) (left : Expr) (token : Token) : Parse Expr :=
  match token.kind.operator? with
  | some (power, .binary) => binary sub left power
  | some (_, .call) => call sub left
  | some (_, .index) => index sub left
  | none => return left

/-- Folds the operator that is next, one level deeper. -/
def fold (sub : SubExpr) (left : Expr) : Parse Expr := do
  descend
  advance
  foldAt sub left (← current)

def exprStep (sub : SubExpr) : SubExpr := fun power =>
  nested do
    descend
    let left ← operand sub
    repeatWhile (bindsTighter power) (fold sub) left

/-- Expressions with at most so many others around each; `beyond` stands for those further inside. -/
def exprWithin (beyond : SubExpr) : Nat → SubExpr
  | 0, power, p => beyond power p
  | n + 1, power, p => exprStep (exprWithin beyond n) power p

/-- Past the limit `descend` fails, so no expression is ever parsed by the one that stands beyond. -/
def expr : SubExpr := fun power p =>
  exprWithin (fun _ => fail) (p.limit + 1) power p

end Parse

end FrontEnd
