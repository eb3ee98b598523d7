import FrontEnd.Numeral
import FrontEnd.Tree.Basic

/-!
The grammar of programs, told apart from any way of parsing it: which token lists spell which trees. Every category is
stated over the expressions `E` inside it, and `Expression` ties the knot.
-/

namespace FrontEnd.Grammar

/-- The binary operators, level by level from the loosest to the tightest. -/
def levels : List (List Kind) :=
  [[.equal, .notEqual], [.less, .greater], [.plus, .dash], [.star, .slash]]

/-- What cannot follow a statement that has no semicolon: it would still belong to it. -/
def continuing : List Kind :=
  [.semicolon, .equal, .notEqual, .less, .greater, .plus, .dash, .star, .slash, .openParen, .openBracket]

/-- At least one phrase of `D`, with a comma between every two. -/
inductive Separated {α : Type} (D : List Token → α → Prop) : List Token → List α → Prop
  | one {ts a} : D ts a → Separated D ts [a]
  | more {ts a comma us as} : D ts a → comma.kind = .comma → Separated D us as →
    Separated D (ts ++ comma :: us) (a :: as)

inductive Listing {α : Type} (D : List Token → α → Prop) : List Token → List α → Prop
  | none : Listing D [] []
  | some {ts as} : Separated D ts as → Listing D ts as

inductive Name : List Token → Ident → Prop
  | mk {t} : t.kind = .identifier → Name [t] ⟨t, t.value⟩

inductive Atom : Token → Expr → Prop
  | ident {t} : t.kind = .identifier → Atom t (.ident ⟨t, t.value⟩)
  | int {t v} : t.kind = .number → Numeral.value? t.value = some v → Atom t (.int t v)
  | str {t} : t.kind = .string → Atom t (.str t t.value)
  | trueWord {t} : t.kind = .trueWord → Atom t (.bool t true)
  | falseWord {t} : t.kind = .falseWord → Atom t (.bool t false)

section Categories

variable (E : List Token → Expr → Prop)

inductive Pair : List Token → Entry → Prop
  | mk {ks k colon vs v} : E ks k → colon.kind = .colon → E vs v → Pair (ks ++ colon :: vs) (.mk k v)

/-- At least one pair, with a comma between every two and perhaps one behind the last. -/
inductive Pairs : List Token → List Entry → Prop
  | one {ts e} : Pair E ts e → Pairs ts [e]
  | trailing {ts e comma} : Pair E ts e → comma.kind = .comma → Pairs (ts ++ [comma]) [e]
  | more {ts e comma us es} : Pair E ts e → comma.kind = .comma → Pairs us es → Pairs (ts ++ comma :: us) (e :: es)

inductive PairListing : List Token → List Entry → Prop
  | none : PairListing [] []
  | some {ts es} : Pairs E ts es → PairListing ts es

/-- A statement less its semicolon. A function takes the name it is bound to. -/
inductive Clause : List Token → Stmt → Prop
  | bind {word name assign ts e} : word.kind = .letWord → name.kind = .identifier → assign.kind = .assign → E ts e →
    Clause (word :: name :: assign :: ts) (.bind word ⟨name, name.value⟩ (some (e.labelled name.value)))
  | ret {word ts e} : word.kind = .returnWord → E ts e → Clause (word :: ts) (.ret word (some e))
  | expr {t ts e} : E (t :: ts) e → Clause (t :: ts) (.expr t e)

inductive Stmts : List Token → List Stmt → Prop
  | nil : Stmts [] []
  | ended {ts s semicolon us ss} : Clause E ts s → semicolon.kind = .semicolon → Stmts us ss →
    Stmts (ts ++ semicolon :: us) (s :: ss)
  | bare {ts s us ss} : Clause E ts s → (∀ t ∈ us.head?, t.kind ∉ continuing) → Stmts us ss →
    Stmts (ts ++ us) (s :: ss)

inductive Braced : List Token → Block → Prop
  | mk {left ts ss right} : left.kind = .openCurly → Stmts E ts ss → right.kind = .closeCurly →
    Braced (left :: (ts ++ [right])) (.mk left ss)

inductive Otherwise : List Token → Option Block → Prop
  | none : Otherwise [] none
  | some {word ts b} : word.kind = .elseWord → Braced E ts b → Otherwise (word :: ts) (some b)

/-- A group leaves no node. -/
inductive Primary : List Token → Expr → Prop
  | atom {t e} : Atom t e → Primary [t] e
  | group {left ts e right} : left.kind = .openParen → E ts e → right.kind = .closeParen →
    Primary (left :: (ts ++ [right])) e
  | cond {word left ts c right us b vs o} : word.kind = .ifWord → left.kind = .openParen → E ts c →
    right.kind = .closeParen → Braced E us b → Otherwise E vs o →
    Primary (word :: left :: (ts ++ right :: (us ++ vs))) (.cond word c b o)
  | fn {word left ts ids right us b} : word.kind = .fnWord → left.kind = .openParen → Listing Name ts ids →
    right.kind = .closeParen → Braced E us b →
    Primary (word :: left :: (ts ++ right :: us)) (.fn word ids b none)
  | array {left ts es right} : left.kind = .openBracket → Listing E ts es → right.kind = .closeBracket →
    Primary (left :: (ts ++ [right])) (.array left es)
  | hash {left ts es right} : left.kind = .openCurly → PairListing E ts es → right.kind = .closeCurly →
    Primary (left :: (ts ++ [right])) (.hash left es)

/-- Calls and indexing, folded onto a primary from the left. -/
inductive Applied : List Token → Expr → Prop
  | primary {ts e} : Primary E ts e → Applied ts e
  | call {ts c left us es right} : Applied ts c → left.kind = .openParen → Listing E us es → right.kind = .closeParen →
    Applied (ts ++ left :: (us ++ [right])) (.call left c es)
  | index {ts c left us i right} : Applied ts c → left.kind = .openBracket → E us i → right.kind = .closeBracket →
    Applied (ts ++ left :: (us ++ [right])) (.index left c i)

inductive Unary : List Token → Expr → Prop
  | applied {ts e} : Applied E ts e → Unary ts e
  | op {t ts e} : t.kind = .bang ∨ t.kind = .dash → Unary ts e → Unary (t :: ts) (.unary t t.value e)

/-- Binary operators of the given levels, which group to the left within a level. -/
inductive Level : List (List Kind) → List Token → Expr → Prop
  | unary {ts e} : Unary E ts e → Level [] ts e
  | tighter {ops ls ts e} : Level ls ts e → Level (ops :: ls) ts e
  | op {ops ls ts l t us r} : Level (ops :: ls) ts l → t.kind ∈ ops → Level ls us r →
    Level (ops :: ls) (ts ++ t :: us) (.binary t l t.value r)

end Categories

inductive Expression : List Token → Expr → Prop
  | mk {ts e} : Level Expression levels ts e → Expression ts e

/-- `Expression` is the least solution of its rule. -/
theorem Expression.least {P : List Token → Expr → Prop} (h : ∀ ts e, Level P levels ts e → P ts e) {ts : List Token}
    {e : Expr} (he : Expression ts e) : P ts e :=
  -- What is inside a phrase of any category is a phrase of `P`, so each rule leads to itself.
  @Expression.rec (fun ts e _ => P ts e) (fun ls ts e _ => Level P ls ts e) (fun ts e _ => Unary P ts e)
    (fun ts e _ => Applied P ts e) (fun ts e _ => Primary P ts e) (fun ts es _ => Listing P ts es)
    (fun ts b _ => Braced P ts b) (fun ts o _ => Otherwise P ts o) (fun ts es _ => PairListing P ts es)
    (fun ts es _ => Separated P ts es) (fun ts ss _ => Stmts P ts ss) (fun ts es _ => Pairs P ts es)
    (fun ts s _ => Clause P ts s) (fun ts entry _ => Pair P ts entry)
    (fun _ => h _ _)
    (fun _ => .unary) (fun _ => .tighter) (fun _ ht _ hl hr => .op hl ht hr)
    (fun _ => .applied) (fun ht _ => .op ht)
    (fun _ => .primary) (fun _ hleft _ hright hc hes => .call hc hleft hes hright)
    (fun _ hleft _ hright hc hi => .index hc hleft hi hright)
    .atom (fun hleft _ hright he => .group hleft he hright)
    (fun hword hleft _ hright _ _ hc hb ho => .cond hword hleft hc hright hb ho)
    (fun hword hleft hids hright _ hb => .fn hword hleft hids hright hb)
    (fun hleft _ hright hes => .array hleft hes hright) (fun hleft _ hright hes => .hash hleft hes hright)
    .none (fun _ => .some)
    (fun hleft _ hright hss => .mk hleft hss hright)
    .none (fun hword _ => .some hword)
    .none (fun _ => .some)
    (fun _ => .one) (fun _ hcomma _ he hes => .more he hcomma hes)
    .nil (fun _ hend _ hs hss => .ended hs hend hss) (fun _ hnext _ hs hss => .bare hs hnext hss)
    (fun _ => .one) (fun _ hcomma he => .trailing he hcomma) (fun _ hcomma _ he hes => .more he hcomma hes)
    (fun hword hname hassign _ => .bind hword hname hassign) (fun hword _ => .ret hword) (fun _ => .expr)
    (fun _ hcolon _ hk hv => .mk hk hcolon hv)
    ts e he

/-- The tokens spell the program. -/
def Derives (ts : List Token) (p : Program) : Prop :=
  Stmts Expression ts p.statements

/-- A single expression is a whole program. -/
theorem derives_of_expression {t : Token} {ts : List Token} {e : Expr} (h : Expression (t :: ts) e) :
    Derives (t :: ts) ⟨[.expr t e]⟩ := by
  have hend : ∀ t ∈ ([] : List Token).head?, t.kind ∉ continuing := fun _ ht => nomatch ht
  have hstmts := Stmts.bare (.expr h) hend .nil
  rwa [List.append_nil] at hstmts

end FrontEnd.Grammar
