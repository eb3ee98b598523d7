import FrontEnd.Text.Blank
import FrontEnd.Text.Literal
import FrontEnd.Token.Kind

/-!
Lexical rules in the order in which they are tried: how far each reaches into a text, and what it makes of the
characters it takes.
-/

namespace FrontEnd

def isWordStart (c : Char) : Bool :=
  c.isAlpha || c == '_'

def isWordPart (c : Char) : Bool :=
  c.isAlphanum || c == '_'

inductive Rule
  | word | number | blank | string | comment
  | symbol (kind : Kind)
deriving DecidableEq, Repr

namespace Rule

/-- Length of the longest run of such characters at the head of the text, if there is one. -/
def run? (p : Char → Bool) (cs : List Char) : Option Nat :=
  match cs.takeWhile p with
  | [] => none
  | run => some run.length

/-- How many characters the rule takes from the head of the text. -/
def length? : Rule → List Char → Option Nat
  | word, c :: cs => if isWordStart c then some (1 + (cs.takeWhile isWordPart).length) else none
  | number, cs => run? Char.isDigit cs
  | blank, cs => run? isBlank cs
  | string, '"' :: cs => some (1 + Literal.bodyLength cs)
  | comment, '/' :: '/' :: cs => some (2 + (cs.takeWhile (· ≠ '\n')).length)
  | symbol kind, cs =>
    if kind.spelling ≠ [] ∧ kind.spelling.isPrefixOf cs then some kind.spelling.length else none
  | _, _ => none

/-- The kind and the value of the token that the taken characters make; blanks and comments make none. -/
def token? : Rule → List Char → Option (Kind × String)
  | word, text => some ((Kind.keyword? text).getD .identifier, String.ofList text)
  | number, text => some (.number, String.ofList text)
  | blank, _ => none
  | string, text => some (.string, Literal.decode text.tail)
  | comment, _ => none
  | symbol kind, text => some (kind, String.ofList text)

def all : List Rule :=
  [word, number, blank, string, comment] ++ Kind.symbols.map symbol

/-- The first rule that takes anything from the text, with the number of characters it takes. -/
def first? (cs : List Char) : Option (Rule × Nat) :=
  all.findSome? fun r => (r.length? cs).map fun n => (r, n)

theorem length?_pos {r : Rule} {cs : List Char} {n : Nat} (h : r.length? cs = some n) : 0 < n := by
  unfold length? run? at h
  split at h
  · split at h <;> simp only [Option.some.injEq, reduceCtorEq] at h; omega
  · split at h <;> simp only [Option.some.injEq, reduceCtorEq] at h
    next hne => rw [← h]; exact List.length_pos_iff.2 hne
  · split at h <;> simp only [Option.some.injEq, reduceCtorEq] at h
    next hne => rw [← h]; exact List.length_pos_iff.2 hne
  · simp only [Option.some.injEq] at h; omega
  · simp only [Option.some.injEq] at h; omega
  · split at h <;> simp only [Option.some.injEq, reduceCtorEq] at h
    next hne => rw [← h]; exact List.length_pos_iff.2 hne.1
  · simp at h

theorem first?_pos {cs : List Char} {r : Rule} {n : Nat} (h : first? cs = some (r, n)) : 0 < n := by
  obtain ⟨r', _, hr⟩ := List.exists_of_findSome?_eq_some h
  obtain ⟨m, hm, he⟩ := Option.map_eq_some_iff.1 hr
  cases he
  exact length?_pos hm

end Rule

end FrontEnd
