import FrontEnd.Proofs.Lexer.Munch
import FrontEnd.Proofs.Lexer.Tiling
import FrontEnd.Proofs.Print.Moved
import FrontEnd.Tree.Print

/-!
A text that stands further on: it has the same tokens, further on too. So what is printed of a string in front of a text
leaves the tokens of the text as they are.
-/

namespace FrontEnd

namespace Lexer

/-- The lexer of the same text so many bytes further on. -/
def shifted (n : Nat) (l : Lexer) : Lexer :=
  { l with offset := l.offset + n }

variable (n : Nat) (l : Lexer)

theorem drop_shifted (k : Nat) : (l.shifted n).drop k = (l.drop k).shifted n :=
  ext rfl (Nat.add_right_comm _ _ _) rfl

theorem position_shifted : (l.shifted n).position = l.position.shifted n :=
  (Position.shifted_behind _ _ _).symm

theorem spanOf_shifted (k : Nat) :
    (l.shifted n).spanOf k = ⟨(l.spanOf k).start.shifted n, (l.spanOf k).stop.shifted n⟩ := by
  simp only [spanOf, position, shifted, Position.shifted_behind, Nat.add_right_comm]

theorem Munches.shifted {l l' : Lexer} {t : Token} (h : Munches l t l') :
    Munches (l.shifted n) (t.moved (Position.shifted n)) (l'.shifted n) := by
  induction h with
  | @eof l hl =>
    have hmunches := Munches.eof (l := l.shifted n) hl
    rwa [position_shifted] at hmunches
  | @token l rule text kind value hrule hmem hlongest ht =>
    have hmunches := Munches.token (l := l.shifted n) hrule hmem hlongest ht
    rwa [spanOf_shifted, drop_shifted] at hmunches
  | @skip l l' t rule text hrule hmem hlongest ht _ ih =>
    rw [← drop_shifted] at ih
    exact Munches.skip (l := l.shifted n) hrule hmem hlongest ht ih
  | @illegal l c cs hl hfree =>
    have hmunches := Munches.illegal (l := l.shifted n) hl hfree
    rwa [spanOf_shifted, drop_shifted] at hmunches

theorem next_shifted : (l.shifted n).next = (l.next.1.moved (Position.shifted n), l.next.2.shifted n) :=
  (l.munches_next.shifted n).next_eq

theorem tokens_shifted : (l.shifted n).tokens = l.tokens.map (Token.moved (Position.shifted n)) := by
  induction hleft : l.left using Nat.strongRecOn generalizing l with
  | ind k ih =>
    have hnext := next_shifted n l
    by_cases hkind : l.next.1.kind = .eof
    · have hkind' : (l.shifted n).next.1.kind = .eof := by rw [hnext]; exact hkind
      rw [tokens_of_eof hkind, tokens_of_eof hkind', hnext]
      rfl
    · have hkind' : (l.shifted n).next.1.kind ≠ .eof := by rw [hnext]; exact hkind
      rw [tokens_of_ne_eof hkind, tokens_of_ne_eof hkind', hnext, ih _ (hleft ▸ l.left_next_lt hkind) _ rfl]
      rfl

end Lexer

/-- The second token says what the first does, so many bytes further on. -/
structure Token.Raised (n : Nat) (t u : Token) : Prop where
  lexeme_eq : u.lexeme = t.lexeme
  start_eq : u.span.start.offset.toNat = t.span.start.offset.toNat + n ∧ u.span.start.file = t.span.start.file
  stop_eq : u.span.stop.offset.toNat = t.span.stop.offset.toNat + n ∧ u.span.stop.file = t.span.stop.file

variable {source : String} {file : Option String} {n : Nat}

/-- As long as all offsets fit, shifting the tokens of a text raises their offsets. -/
theorem raised_of_shifted (hsize : source.utf8ByteSize + n < 2 ^ 32) :
    List.Forall₂ (Token.Raised n) (tokenize source file)
      ((tokenize source file).map (Token.moved (Position.shifted n))) := by
  rw [List.forall₂_map_right_iff, List.forall₂_same]
  intro t ht
  obtain ⟨pre, text, post, hcovers, -⟩ := exists_spells_of_mem_tokenize ht
  obtain ⟨hstart, hstop⟩ := hcovers.offset_le
  exact ⟨rfl, ⟨Position.toNat_shifted (by omega), rfl⟩, Position.toNat_shifted (by omega), rfl⟩

/-- Where the offset of the end does not fit, it is not raised. -/
theorem size_add_lt_of_raised {S : List Token} (h : List.Forall₂ (Token.Raised n) (tokenize source file) S) :
    source.utf8ByteSize % 2 ^ 32 + n < 2 ^ 32 := by
  obtain ⟨T, hT, -⟩ := (Lexer.ofString source file).tokens_tiled.exists_ended
  have hbytes : (Lexer.ofString source file).offset + byteLength (Lexer.ofString source file).rest =
      source.utf8ByteSize := (Nat.zero_add _).trans (byteLength_toList source)
  rw [tokenize, hT, hbytes, ← List.forall₂_reverse_iff, List.reverse_append] at h
  obtain ⟨u, us, hraised, -, -⟩ := List.forall₂_cons_left_iff.mp h
  have hstart := hraised.start_eq.1
  have hoffset := u.span.start.offset.toNat_lt
  rw [Token.eof, Position.toNat_behind] at hstart
  omega

/-! Printed strings -/

/-- What is printed of a string is read back as one token, and what stands behind it is read as it is by itself. -/
theorem tokenize_print_append (value rest : String) (file : Option String) :
    tokenize (Literal.print value ++ rest) file =
      ⟨.string, value, ⟨.behind 0 (file.getD "shell"), .behind (Literal.print value).utf8ByteSize (file.getD "shell")⟩⟩ ::
        (tokenize rest file).map (Token.moved (Position.shifted (Literal.print value).utf8ByteSize)) := by
  have hsize := byteLength_toList (Literal.print value)
  have hrest : (Lexer.ofString (Literal.print value ++ rest) file).rest =
      (Literal.print value).toList ++ rest.toList := by
    simp only [Lexer.ofString, String.toList_append]
  have hbehind : (Lexer.ofString (Literal.print value ++ rest) file).drop (Literal.print value).toList.length =
      (Lexer.ofString rest file).shifted (Literal.print value).utf8ByteSize := by
    refine Lexer.ext rfl ?_ (Lexer.rest_drop hrest)
    rw [Lexer.offset_drop hrest, hsize]
    rfl
  have hfirst : Rule.first? (Lexer.ofString (Literal.print value ++ rest) file).rest =
      some (.string, (Literal.print value).toList.length) := by
    rw [hrest, Rule.first?_print]
  have hnext := Lexer.next_of_token hrest hfirst (Rule.token?_print value)
  have hkind : (Lexer.ofString (Literal.print value ++ rest) file).next.1.kind ≠ .eof := by simp [hnext]
  rw [tokenize, Lexer.tokens_of_ne_eof hkind, hnext, hbehind, Lexer.tokens_shifted, hsize, tokenize]
  simp [Lexer.spanOf, Lexer.position, Lexer.ofString]

/-- What is printed of a string is read back as one token with its value, and what stands behind it is read as it is by
itself, with its places shifted. In a text of which each byte has an offset of its own, the token ends where the literal
does, and all tokens behind it are raised by its length. -/
theorem tokenize_print_str (token : Token) (value rest : String) (file : Option String) :
    ∃ span S, tokenize ((Expr.str token value).print ++ rest) file = ⟨.string, value, span⟩ :: S ∧
      span = ⟨.behind 0 (file.getD "shell"), .behind (Expr.str token value).print.utf8ByteSize (file.getD "shell")⟩ ∧
      S = (tokenize rest file).map (Token.moved (Position.shifted (Expr.str token value).print.utf8ByteSize)) ∧
      (((Expr.str token value).print ++ rest).utf8ByteSize < 2 ^ 32 →
        span.stop.offset.toNat = (Expr.str token value).print.utf8ByteSize ∧
          List.Forall₂ (Token.Raised (Expr.str token value).print.utf8ByteSize) (tokenize rest file) S) := by
  have hprint : (Expr.str token value).print = Literal.print value := rfl
  rw [hprint]
  refine ⟨_, _, tokenize_print_append value rest file, rfl, rfl, fun hsize => ?_⟩
  rw [String.utf8ByteSize_append] at hsize
  exact ⟨Position.toNat_behind_of_lt _ (by omega), raised_of_shifted (by omega)⟩

/-- The tokens behind a printed string of three bytes are raised by so many. -/
theorem tokenize_print_str_plus :
    ((Expr.str ⟨.string, "a", ⟨.null, .null⟩⟩ "a").print ++ " + b").utf8ByteSize < 2 ^ 32 ∧
      ∃ span S, tokenize ((Expr.str ⟨.string, "a", ⟨.null, .null⟩⟩ "a").print ++ " + b") none =
          ⟨.string, "a", span⟩ :: S ∧
        span.stop.offset.toNat = 3 ∧ List.Forall₂ (Token.Raised 3) (tokenize " + b" none) S := by
  have hprint : (Expr.str ⟨.string, "a", ⟨.null, .null⟩⟩ "a").print.utf8ByteSize = 3 := by decide
  have hsize : ((Expr.str ⟨.string, "a", ⟨.null, .null⟩⟩ "a").print ++ " + b").utf8ByteSize < 2 ^ 32 := by
    rw [String.utf8ByteSize_append, hprint]
    decide
  obtain ⟨span, S, htokens, -, -, hraised⟩ :=
    tokenize_print_str ⟨.string, "a", ⟨.null, .null⟩⟩ "a" " + b" none
  rw [hprint] at hraised
  exact ⟨hsize, span, S, htokens, hraised hsize⟩

def blanks (n : Nat) : List Char :=
  List.replicate n ' '

theorem length_blanks : (blanks n).length = n :=
  List.length_replicate

theorem byteLength_blanks : byteLength (blanks n) = n := by
  induction n with
  | zero => rfl
  | succ n ih => rw [blanks, List.replicate_succ, byteLength_cons, ← blanks, ih, Nat.add_comm]; rfl

theorem isBlank_of_mem_blanks : ∀ c ∈ blanks n, isBlank c = true := by
  intro c hc
  rw [List.eq_of_mem_replicate hc]
  decide

/-- Blanks up to `2 ^ 32` bytes from the start of a literal of three bytes. -/
def blanksBehindLiteral : String :=
  String.ofList (blanks (2 ^ 32 - 3))

/-- The end behind a literal and so many blanks is not raised by the length of the literal, but at the first offset
again. -/
theorem tokenize_blanksBehindLiteral :
    ¬∃ span S, tokenize ((Expr.str ⟨.string, "a", ⟨.null, .null⟩⟩ "a").print ++ blanksBehindLiteral) none =
        ⟨.string, "a", span⟩ :: S ∧
      List.Forall₂ (Token.Raised (Expr.str ⟨.string, "a", ⟨.null, .null⟩⟩ "a").print.utf8ByteSize)
        (tokenize blanksBehindLiteral none) S := by
  rintro ⟨span, S, -, hraised⟩
  have hprint : (Expr.str ⟨.string, "a", ⟨.null, .null⟩⟩ "a").print.utf8ByteSize = 3 := by decide
  have hsize : blanksBehindLiteral.utf8ByteSize = 2 ^ 32 - 3 := (byteLength_eq _).symm.trans byteLength_blanks
  have hlt := size_add_lt_of_raised hraised
  rw [hprint, hsize] at hlt
  exact absurd hlt (by decide)

end FrontEnd
