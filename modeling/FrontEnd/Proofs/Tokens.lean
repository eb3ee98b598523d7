import FrontEnd.Tree.Basic

/-!
The tokens kept in a tree, in the order in which they stand in the text. An expression statement has no token of its own
beyond those of its expression; separators and closing brackets are kept nowhere.
-/

namespace FrontEnd

mutual

/-- What is to the left of an operator comes before the operator, and everything else behind the token of its node. -/
def Expr.tokens : Expr → List Token
  | .ident id => [id.token]
  | .int token _ => [token]
  | .str token _ => [token]
  | .bool token _ => [token]
  | .unary token _ right => token :: right.tokens
  | .binary token left _ right => left.tokens ++ token :: right.tokens
  | .cond token condition consequence alternative =>
    token :: (condition.tokens ++ consequence.tokens ++ elseTokens alternative)
  | .fn token parameters body _ => token :: (parameters.map Ident.token ++ body.tokens)
  | .call token callee arguments => callee.tokens ++ token :: exprsTokens arguments
  | .array token elements => token :: exprsTokens elements
  | .index token collection index => collection.tokens ++ token :: index.tokens
  | .hash token entries => token :: entriesTokens entries

def Entry.tokens : Entry → List Token
  | .mk key value => key.tokens ++ value.tokens

def Stmt.tokens : Stmt → List Token
  | .bind token name value => token :: name.token :: valueTokens value
  | .ret token value => token :: valueTokens value
  | .expr _ value => value.tokens
  | .block body => body.tokens

def Block.tokens : Block → List Token
  | .mk token body => token :: stmtsTokens body

def elseTokens : Option Block → List Token
  | none => []
  | some alternative => alternative.tokens

def valueTokens : Option Expr → List Token
  | none => []
  | some value => value.tokens

def exprsTokens : List Expr → List Token
  | [] => []
  | e :: es => e.tokens ++ exprsTokens es

def entriesTokens : List Entry → List Token
  | [] => []
  | e :: es => e.tokens ++ entriesTokens es

def stmtsTokens : List Stmt → List Token
  | [] => []
  | s :: ss => s.tokens ++ stmtsTokens ss

end

def Program.tokens (p : Program) : List Token :=
  stmtsTokens p.statements

/-- The tokens of an entry, if there is one. -/
def entryTokens (entry : Option Entry) : List Token :=
  (entry.map Entry.tokens).getD []

theorem exprsTokens_eq_flatMap (es : List Expr) : exprsTokens es = es.flatMap Expr.tokens := by
  induction es with
  | nil => rfl
  | cons e es ih => rw [exprsTokens, ih, List.flatMap_cons]

theorem entriesTokens_eq_flatMap (es : List Entry) : entriesTokens es = es.flatMap Entry.tokens := by
  induction es with
  | nil => rfl
  | cons e es ih => rw [entriesTokens, ih, List.flatMap_cons]

theorem stmtsTokens_eq_flatMap (ss : List Stmt) : stmtsTokens ss = ss.flatMap Stmt.tokens := by
  induction ss with
  | nil => rfl
  | cons s ss ih => rw [stmtsTokens, ih, List.flatMap_cons]

theorem flatMap_valueTokens_map_some (es : List Expr) : (es.map some).flatMap valueTokens = exprsTokens es := by
  rw [exprsTokens_eq_flatMap, List.flatMap_map]
  rfl

theorem flatMap_entryTokens_map_some (es : List Entry) : (es.map some).flatMap entryTokens = entriesTokens es := by
  rw [entriesTokens_eq_flatMap, List.flatMap_map]
  rfl

theorem valueTokens_map_labelled (label : String) (value : Option Expr) :
    valueTokens (value.map (Expr.labelled label)) = valueTokens value := by
  rcases value with _ | e
  · rfl
  · cases e <;> rfl

end FrontEnd
