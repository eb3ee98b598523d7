import FrontEnd.Token.Kind

/-!
The tables of the grammar: how tightly operators bind, and which kinds begin an operand, continue an expression or begin
a statement of their own.
-/

namespace FrontEnd

/-- From the loosest to the tightest. -/
inductive BindingPower
  | lowest | equality | comparison | sum | product | unary | call | index
deriving DecidableEq, Repr

namespace BindingPower

def rank : BindingPower → Nat
  | lowest => 0
  | equality => 1
  | comparison => 2
  | sum => 3
  | product => 4
  | unary => 5
  | call => 6
  | index => 7

instance : LT BindingPower := ⟨fun a b => a.rank < b.rank⟩

instance (a b : BindingPower) : Decidable (a < b) :=
  inferInstanceAs (Decidable (a.rank < b.rank))

end BindingPower

/-- How an expression goes on behind a finished operand. -/
inductive OperatorForm
  | binary | call | index
deriving DecidableEq, Repr

/-- How an operand begins. -/
inductive OperandForm
  | atom | unary | group | cond | fn | array | hash
deriving DecidableEq, Repr

/-- Statements other than a bare expression. -/
inductive StatementForm
  | bind | ret
deriving DecidableEq, Repr

namespace Kind

def operator? : Kind → Option (BindingPower × OperatorForm)
  | equal | notEqual => some (.equality, .binary)
  | less | greater => some (.comparison, .binary)
  | plus | dash => some (.sum, .binary)
  | star | slash => some (.product, .binary)
  | openParen => some (.call, .call)
  | openBracket => some (.index, .index)
  | _ => none

def operand? : Kind → Option OperandForm
  | identifier | number | string | trueWord | falseWord => some .atom
  | bang | dash => some .unary
  | openParen => some .group
  | ifWord => some .cond
  | fnWord => some .fn
  | openBracket => some .array
  | openCurly => some .hash
  | _ => none

def statement? : Kind → Option StatementForm
  | letWord => some .bind
  | returnWord => some .ret
  | _ => none

def bindingPower? (k : Kind) : Option BindingPower :=
  k.operator?.map Prod.fst

/-- Kinds that are no operator bind as loosely as possible. -/
def bindingPower (k : Kind) : BindingPower :=
  k.bindingPower?.getD .lowest

end Kind

end FrontEnd
