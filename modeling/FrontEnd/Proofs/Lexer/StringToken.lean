import FrontEnd.Proofs.Lexer.Munch
import FrontEnd.Proofs.Lexer.Tiling

/-!
String tokens: what they take of a text and the value that they have are those of one scan, and where they end.
-/

namespace FrontEnd

open scoped Computability

namespace Lexer

variable {l l' : Lexer} {t : Token} {cs : List Char}

/-- Behind a quote, a token is what a scan takes, and has the value that the scan makes of it. -/
theorem next_of_quote (hl : l.rest = '"' :: cs) :
    l.next =
      (⟨.string, String.ofList (Literal.scan cs).value, l.spanOf (byteLength ('"' :: (Literal.scan cs).text))⟩,
        l.drop ('"' :: (Literal.scan cs).text).length) := by
  obtain ⟨rest, hrest⟩ := Literal.text_scan_isPrefix cs
  have htext : l.rest = ('"' :: (Literal.scan cs).text) ++ rest := by rw [hl, List.cons_append, hrest]
  have hfirst : Rule.first? l.rest = some (.string, ('"' :: (Literal.scan cs).text).length) := by
    rw [hl, Rule.first?_string, Literal.bodyLength_eq, List.length_cons, Nat.add_comm]
  apply next_of_token htext hfirst
  rw [Rule.token?, List.tail_cons, Literal.decode_scan]

/-- The extent that the pattern gives to a string token and the value that is decoded from it are those of one scan. -/
theorem string_scanned (hl : l.rest = '"' :: cs) :
    Longest Literal.pattern l.rest ('"' :: (Literal.scan cs).text) ∧
      l.next =
        (⟨.string, String.ofList (Literal.scan cs).value, l.spanOf (byteLength ('"' :: (Literal.scan cs).text))⟩,
          l.drop ('"' :: (Literal.scan cs).text).length) := by
  refine ⟨?_, next_of_quote hl⟩
  rw [hl]
  exact Literal.longest_scan cs

/-- An escaped quote, and a backslash at the end of its line. -/
def escapedBody : List Char :=
  ['é', '\\', '"', '\\', '\n', '"']

theorem string_scanned_escape :
    (ofString (String.ofList ('"' :: escapedBody)) none).rest = '"' :: escapedBody ∧
      (ofString (String.ofList ('"' :: escapedBody)) none).next.1 =
        ⟨.string, "é\"", ⟨⟨0, "shell"⟩, ⟨5, "shell"⟩⟩⟩ := by
  have hl : (ofString (String.ofList ('"' :: escapedBody)) none).rest = '"' :: escapedBody := String.toList_ofList
  exact ⟨hl, (congrArg Prod.fst (string_scanned hl).2).trans (by decide +kernel)⟩

theorem Munches.exists_drop (h : Munches l t l') : ∃ n, l' = l.drop n := by
  induction h with
  | eof => exact ⟨0, (drop_zero _).symm⟩
  | token | illegal => exact ⟨_, rfl⟩
  | skip _ _ _ _ _ ih =>
    obtain ⟨n, hn⟩ := ih
    exact ⟨_, hn.trans (drop_drop _ _ n)⟩

/-- A string token stands at a quote. -/
theorem Munches.exists_quote (h : Munches l t l') (hkind : t.kind = .string) :
    ∃ n cs, (l.drop n).rest = '"' :: cs ∧ (l.drop n).next = (t, l') := by
  induction h with
  | eof | illegal => exact nomatch hkind
  | skip _ _ _ _ _ ih =>
    obtain ⟨n, cs, hquote, hnext⟩ := ih hkind
    rw [drop_drop] at hquote hnext
    exact ⟨_, cs, hquote, hnext⟩
  | @token l rule text kind value hrule hmem hlongest ht =>
    obtain rfl : kind = .string := hkind
    obtain rfl : rule = .string := Rule.eq_ofKind hrule ht
    obtain ⟨rest, hrest⟩ := hlongest.isPrefix
    have hnext := (Munches.token hrule hmem hlongest ht).next_eq
    obtain ⟨body, -, rfl | rfl⟩ := Literal.mem_pattern.mp hmem
    · exact ⟨0, body ++ rest, by rw [drop_zero, ← hrest, List.cons_append], by rw [drop_zero, hnext]⟩
    · exact ⟨0, body ++ ['"'] ++ rest, by rw [drop_zero, ← hrest, List.cons_append], by rw [drop_zero, hnext]⟩

theorem exists_quote {T U : List Token} (h : l.tokens = T ++ t :: U) (hkind : t.kind = .string) :
    ∃ n cs, (l.drop n).rest = '"' :: cs ∧ (l.drop n).next.1 = t ∧ (l.drop n).next.2.tokens = U := by
  induction T generalizing l with
  | nil =>
    by_cases heof : l.next.1.kind = .eof
    · rw [tokens_of_eof heof, List.nil_append] at h
      rw [(List.cons.inj h).1, hkind] at heof
      exact nomatch heof
    · rw [tokens_of_ne_eof heof, List.nil_append] at h
      obtain ⟨rfl, rfl⟩ := List.cons.inj h
      obtain ⟨n, cs, hquote, hnext⟩ := l.munches_next.exists_quote hkind
      exact ⟨n, cs, hquote, by rw [hnext], by rw [hnext]⟩
  | cons u T ih =>
    by_cases heof : l.next.1.kind = .eof
    · rw [tokens_of_eof heof, List.cons_append] at h
      exact absurd (List.cons.inj h).2.symm (by simp)
    · rw [tokens_of_ne_eof heof, List.cons_append] at h
      obtain ⟨m, hm⟩ := l.munches_next.exists_drop
      obtain ⟨n, cs, hquote, hnext⟩ := ih (List.cons.inj h).2
      rw [hm, drop_drop] at hquote hnext
      exact ⟨_, cs, hquote, hnext⟩

/-- A backslash with nothing to escape is an illegal token. -/
theorem head?_tokens_of_dangling (h : Literal.Dangling l.rest) :
    l.tokens.head? = some ⟨.illegal, "\\", l.spanOf 1⟩ := by
  obtain ⟨below, hl, -⟩ := h
  have hfirst : Rule.first? l.rest = none := by
    rw [hl]
    rfl
  have hnext := next_of_illegal hl hfirst
  have hkind : l.next.1.kind ≠ .eof := by simp [hnext]
  rw [tokens_of_ne_eof hkind, hnext]
  rfl

/-- The next bytes of a text behind so many of its characters. -/
theorem covers_spanOf {source : String} {file : Option String} {n : Nat} {text rest : List Char}
    (h : ((ofString source file).drop n).rest = text ++ rest) :
    (((ofString source file).drop n).spanOf (byteLength text)).Covers source (file.getD "shell") (source.toList.take n)
      text rest := by
  have hdrop : source.toList.drop n = text ++ rest := h
  have hoffset : ((ofString source file).drop n).offset = byteLength (source.toList.take n) := Nat.zero_add _
  refine ⟨?_, ?_⟩
  · rw [List.append_assoc, ← hdrop, List.take_append_drop, String.ofList_toList]
  · rw [spanOf, position, hoffset]
    rfl

end Lexer

namespace Literal

/-- The text is a literal up to the quote that closes it. -/
def Closed (text : List Char) : Prop :=
  ∃ body ∈ unit∗, text = '"' :: (body ++ ['"'])

/-- The text is a literal without a closing quote. -/
def Unclosed (text : List Char) : Prop :=
  ∃ body ∈ unit∗, text = '"' :: body

/-- A literal without a closing quote stops in front of a backslash that has nothing to escape. -/
def BrokenOff (text behind : List Char) : Prop :=
  Unclosed text ∧ Dangling behind

theorem Unclosed.not_closed {text : List Char} (h : Unclosed text) : ¬Closed text := by
  obtain ⟨body, hbody, rfl⟩ := h
  rintro ⟨body', hbody', htext⟩
  obtain rfl : body = body' ++ ['"'] := (List.cons.inj htext).2
  exact append_quote_notMem_body hbody' hbody

theorem Dangling.ne_nil {cs : List Char} (h : Dangling cs) : cs ≠ [] := by
  obtain ⟨below, rfl, -⟩ := h
  exact List.cons_ne_nil _ _

end Literal

variable {source : String} {file : Option String} {T U : List Token} {t : Token}

/-- A string token is a literal with its closing quote, or one without that goes on to the end or to a backslash. -/
theorem exists_literal (htokens : tokenize source file = T ++ t :: U) (hkind : t.kind = .string) :
    ∃ pre, ∃ body ∈ Literal.unit∗, ∃ l : Lexer, l.position = t.span.stop ∧ l.tokens = U ∧
      (t.span.Covers source (file.getD "shell") pre ('"' :: (body ++ ['"'])) l.rest ∨
        t.span.Covers source (file.getD "shell") pre ('"' :: body) l.rest ∧
          (l.rest = [] ∨ Literal.Dangling l.rest)) := by
  obtain ⟨n, cs, hquote, rfl, hU⟩ := Lexer.exists_quote htokens hkind
  obtain ⟨body, hbody, rest, hscan⟩ := Literal.exists_scan cs
  have htext : ((Lexer.ofString source file).drop n).rest = ('"' :: (Literal.scan cs).text) ++ rest := by
    rw [hquote]
    rcases hscan with ⟨htext, hcs⟩ | ⟨htext, hcs, -⟩
    · rw [htext, hcs]
      simp
    · rw [htext, hcs, List.cons_append]
  rw [Lexer.next_of_quote hquote] at hU ⊢
  refine ⟨source.toList.take n, body, hbody, _, Lexer.position_drop htext, hU, ?_⟩
  rw [Lexer.rest_drop htext]
  have hcovers := Lexer.covers_spanOf htext
  -- what the span covers is what the scan took, and says itself whether a quote closes it
  rcases hscan with ⟨htext, -⟩ | ⟨htext, -, hrest⟩
  · exact .inl (htext ▸ hcovers)
  · exact .inr ⟨htext ▸ hcovers, hrest⟩

/-- A string token ends with its closing quote or with the text, unless a backslash with nothing to escape breaks it off;
that backslash is then the next token, an illegal one. -/
theorem string_ends_iff (htokens : tokenize source file = T ++ t :: U) (hkind : t.kind = .string) :
    ∃ pre text post, t.span.Covers source (file.getD "shell") pre text post ∧
      (Literal.Closed text ∨ post = [] ↔ ¬Literal.BrokenOff text post) ∧
      (Literal.BrokenOff text post →
        U.head? = some ⟨.illegal, "\\", ⟨t.span.stop, t.span.stop.shifted 1⟩⟩) := by
  obtain ⟨pre, body, hbody, l, hposition, rfl, hcovers | ⟨hcovers, hrest⟩⟩ := exists_literal htokens hkind
  · have hclosed : Literal.Closed ('"' :: (body ++ ['"'])) := ⟨body, hbody, rfl⟩
    have hwhole : ¬Literal.BrokenOff ('"' :: (body ++ ['"'])) l.rest := fun h => h.1.not_closed hclosed
    exact ⟨_, _, _, hcovers, iff_of_true (.inl hclosed) hwhole, fun h => absurd h hwhole⟩
  · have hopen : Literal.Unclosed ('"' :: body) := ⟨body, hbody, rfl⟩
    refine ⟨_, _, _, hcovers, ?_, fun hbroken => ?_⟩
    · rcases hrest with hrest | hdangling
      · exact iff_of_true (.inr hrest) fun h => h.2.ne_nil hrest
      · exact iff_of_false (not_or.mpr ⟨hopen.not_closed, hdangling.ne_nil⟩) (not_not.mpr ⟨hopen, hdangling⟩)
    · rw [Lexer.head?_tokens_of_dangling hbroken.2, Lexer.spanOf_eq, hposition]

/-- A string that is not closed, with a backslash as the last character of the text. -/
def brokenText : String :=
  "\"a\\"

def brokenToken : Token :=
  ⟨.string, "a", ⟨⟨0, "shell"⟩, ⟨2, "shell"⟩⟩⟩

theorem string_ends_iff_backslash :
    tokenize brokenText none =
        [] ++ brokenToken :: [⟨.illegal, "\\", ⟨⟨2, "shell"⟩, ⟨3, "shell"⟩⟩⟩, Token.eof ⟨3, "shell"⟩] ∧
      brokenToken.kind = .string ∧ brokenToken.span.Covers brokenText "shell" [] ['"', 'a'] ['\\'] ∧
      Literal.BrokenOff ['"', 'a'] ['\\'] ∧ ¬(Literal.Closed ['"', 'a'] ∨ ['\\'] = []) := by
  have htokens : tokenize brokenText none =
      [] ++ brokenToken :: [⟨.illegal, "\\", ⟨⟨2, "shell"⟩, ⟨3, "shell"⟩⟩⟩, Token.eof ⟨3, "shell"⟩] := by decide +kernel
  have hbody : ['a'] ∈ Literal.unit∗ :=
    Literal.append_mem_body (Literal.mem_unit.mpr (.inr ⟨'a', by decide, rfl⟩)) (Language.nil_mem_kstar _)
  have hbroken : Literal.BrokenOff ['"', 'a'] ['\\'] := ⟨⟨['a'], hbody, rfl⟩, [], rfl, by simp⟩
  have hcovers : brokenToken.span.Covers brokenText "shell" [] ['"', 'a'] ['\\'] := ⟨by decide, rfl⟩
  obtain ⟨pre, text, post, hcovers', hiff, -⟩ := string_ends_iff htokens rfl
  obtain ⟨rfl, rfl, rfl⟩ := hcovers'.unique (by decide +kernel) hcovers
  exact ⟨htokens, rfl, hcovers, hbroken, fun h => hiff.mp h hbroken⟩

end FrontEnd
