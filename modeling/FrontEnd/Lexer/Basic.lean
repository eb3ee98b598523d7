import FrontEnd.Lexer.Rule
import FrontEnd.Text.Width
import FrontEnd.Token.Basic

/-!
Lexers. A lexer is the unread part of a named text; `Lexer.next` gives its next token and the lexer behind it.
-/

namespace FrontEnd

/-- `offset` counts the bytes read, however many there are. `left` keeps the number of unread characters, so that asking
for it costs nothing. -/
structure Lexer where
  file : String
  offset : Nat
  rest : List Char
  left : Nat
  left_eq : left = rest.length

namespace Lexer

/-- A text without a name was typed at the prompt. -/
def ofString (source : String) (file : Option String) : Lexer where
  file := file.getD "shell"
  offset := 0
  rest := source.toList
  left := source.toList.length
  left_eq := rfl

def position (l : Lexer) : Position :=
  .behind l.offset l.file

/-- The span of the next `n` bytes. -/
def spanOf (l : Lexer) (n : Nat) : Span :=
  ⟨l.position, .behind (l.offset + n) l.file⟩

/-- The lexer behind the next `n` characters. -/
def drop (l : Lexer) (n : Nat) : Lexer where
  file := l.file
  offset := l.offset + byteLength (l.rest.take n)
  rest := l.rest.drop n
  left := l.left - n
  left_eq := by rw [List.length_drop, l.left_eq]

theorem left_drop_lt {l : Lexer} {n : Nat} (hn : 0 < n) (h : l.rest ≠ []) : (l.drop n).left < l.left := by
  have := List.length_pos_iff.2 h
  simp only [drop, l.left_eq]
  omega

/-- The token of these characters at the head of the text, and the lexer behind them. -/
def take (l : Lexer) (kind : Kind) (value : String) (n : Nat) : Token × Lexer :=
  (⟨kind, value, l.spanOf (byteLength (l.rest.take n))⟩, l.drop n)

/-- The next token. A character that no rule takes is a token of its own; at the end every further token is an empty
one. -/
def next (l : Lexer) : Token × Lexer :=
  match _hl : l.rest with
  | [] => (Token.eof l.position, l)
  | c :: cs =>
    match _hm : Rule.first? (c :: cs) with
    | none => l.take .illegal (String.singleton c) 1
    | some (rule, n) =>
      match rule.token? (l.rest.take n) with
      | some (kind, value) => l.take kind value n
      | none => next (l.drop n)
termination_by l.left
decreasing_by exact left_drop_lt (Rule.first?_pos _hm) (by simp [_hl])

/-- A token other than the last takes at least one character. -/
theorem left_next_lt {l : Lexer} (h : l.next.1.kind ≠ .eof) : l.next.2.left < l.left := by
  fun_induction next l with
  | case1 => exact absurd rfl h
  | case2 l c cs hl _ => exact left_drop_lt Nat.one_pos (by simp [hl])
  | case3 l c cs hl _ _ hm _ _ _ => exact left_drop_lt (Rule.first?_pos hm) (by simp [hl])
  | case4 l _ _ _ _ _ _ _ ih => exact Nat.lt_of_lt_of_le (ih h) (Nat.sub_le _ _)

/-- All tokens from here on, the empty one at the end included, onto `acc`. -/
def tokensOnto (acc : Array Token) (l : Lexer) : Array Token :=
  if _h : l.next.1.kind = .eof then acc.push l.next.1
  else tokensOnto (acc.push l.next.1) l.next.2
termination_by l.left
decreasing_by exact left_next_lt _h

def tokens (l : Lexer) : List Token :=
  (tokensOnto #[] l).toList

end Lexer

/-- The tokens of a whole text; the last one is the empty token at its end. -/
def tokenize (source : String) (file : Option String) : List Token :=
  (Lexer.ofString source file).tokens

end FrontEnd
