import FrontEnd.Token.Basic

/-!
Syntax trees. Every node keeps the token that introduced it.
-/

namespace FrontEnd

structure Ident where
  token : Token
  name : String
deriving DecidableEq, Repr

mutual

/-- `fn` carries the name it is bound to, if it is the value of a binding; a group leaves no node. -/
inductive Expr
  | ident (id : Ident)
  | int (token : Token) (value : Int)
  | str (token : Token) (value : String)
  | bool (token : Token) (value : Bool)
  | unary (token : Token) (operator : String) (right : Expr)
  | binary (token : Token) (left : Expr) (operator : String) (right : Expr)
  | cond (token : Token) (condition : Expr) (consequence : Block) (alternative : Option Block)
  | fn (token : Token) (parameters : List Ident) (body : Block) (name : Option String)
  | call (token : Token) (callee : Expr) (arguments : List Expr)
  | array (token : Token) (elements : List Expr)
  | index (token : Token) (collection index : Expr)
  | hash (token : Token) (entries : List Entry)

/-- A key and its value. Keys are expressions, so equal keys may repeat. -/
inductive Entry
  | mk (key value : Expr)

/-- A binding or a return lacks its value where the value was malformed. -/
inductive Stmt
  | bind (token : Token) (name : Ident) (value : Option Expr)
  | ret (token : Token) (value : Option Expr)
  | expr (token : Token) (value : Expr)
  | block (body : Block)

inductive Block
  | mk (token : Token) (body : List Stmt)

end

structure Program where
  statements : List Stmt

def Entry.key : Entry → Expr
  | mk key _ => key

def Entry.value : Entry → Expr
  | mk _ value => value

namespace Block

def token : Block → Token
  | mk token _ => token

def body : Block → List Stmt
  | mk _ body => body

/-- The text of the token that introduced the block. -/
def leading (b : Block) : String :=
  b.token.value

end Block

namespace Expr

def token : Expr → Token
  | ident id => id.token
  | int token _ | str token _ | bool token _ | unary token _ _ | binary token _ _ _ | cond token _ _ _ | fn token _ _ _
  | call token _ _ | array token _ | index token _ _ | hash token _ => token

def leading (e : Expr) : String :=
  e.token.value

/-- A function takes the name it is bound to. -/
def labelled (label : String) : Expr → Expr
  | fn token parameters body _ => fn token parameters body (some label)
  | e => e

end Expr

namespace Stmt

def token : Stmt → Token
  | bind token _ _ | ret token _ | expr token _ => token
  | block body => body.token

def leading (s : Stmt) : String :=
  s.token.value

end Stmt

def Program.leading (p : Program) : String :=
  match p.statements with
  | [] => ""
  | s :: _ => s.leading

end FrontEnd
