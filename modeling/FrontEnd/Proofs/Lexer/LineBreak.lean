import FrontEnd.Proofs.Lexer.Shift
import FrontEnd.Proofs.Lexer.StringToken

/-!
Line breaks keep tokens apart: what stands above a line break and what stands below it are lexed as texts of their own,
unless a string is open there.
-/

namespace FrontEnd

open scoped Computability

/-- A scan that does not come to the end of the text does not come to what is below it either. -/
theorem Literal.text_scan_append_newline {cs : List Char} (hopen : cs ∉ unit∗) (below : List Char) :
    (scan (cs ++ '\n' :: below)).text = (scan cs).text := by
  obtain ⟨body, hbody, rest, ⟨htext, rfl⟩ | ⟨htext, rfl, rfl | ⟨tail, rfl, htail⟩⟩⟩ := exists_scan cs
  · rw [htext, List.append_assoc, text_scan_append hbody]
    rfl
  · exact absurd hbody (by rwa [List.append_nil] at hopen)
  · have hdangling : Dangling ('\\' :: (tail ++ '\n' :: below)) := by
      refine ⟨_, rfl, fun c hc => ?_⟩
      cases tail with
      | nil => exact (Option.some.inj hc).symm
      | cons d ds => exact htail c hc
    rw [htext, List.append_assoc, text_scan_append hbody, List.cons_append, scan_dangling hdangling, List.append_nil]

namespace Rule

variable {cs text below : List Char} {rule : Rule}

theorem newline_notMem_of_mem_run {p q : Char → Bool} (hp : p '\n' = false) (hq : q '\n' = false)
    (h : text ∈ run p q) : '\n' ∉ text := by
  obtain ⟨c, ds, rfl, hc, hds⟩ := mem_run.mp h
  intro hmem
  rcases List.mem_cons.mp hmem with rfl | hmem
  · exact Bool.false_ne_true (hp.symm.trans hc)
  · exact Bool.false_ne_true (hq.symm.trans (hds _ hmem))

/-- Only blanks and strings are of more than one line. -/
theorem blank_or_string_of_newline_mem (hrule : rule ∈ all) (h : text ∈ rule.language) (hmem : '\n' ∈ text) :
    rule = blank ∨ rule = string := by
  cases rule with
  | blank => exact .inl rfl
  | string => exact .inr rfl
  | word => exact absurd hmem (newline_notMem_of_mem_run (by decide) (by decide) h)
  | number => exact absurd hmem (newline_notMem_of_mem_run (by decide) (by decide) h)
  | comment =>
    obtain ⟨body, rfl, hbody⟩ := mem_language_comment.mp h
    have hmem : '\n' ∈ body := by simpa using hmem
    exact absurd rfl (hbody _ hmem)
  | symbol kind =>
    have hkind : kind ∈ Kind.symbols := by simpa [all] using hrule
    have hfree : ∀ k ∈ Kind.symbols, '\n' ∉ k.spelling := by decide
    obtain rfl : text = kind.spelling := h
    exact absurd hmem (hfree kind hkind)

/-- What a rule takes at the head of a line ends on that line, unless all of the line is blank or an open string. -/
theorem isPrefix_of_isPrefix_append_newline (hblank : ¬∀ c ∈ cs, isBlank c = true)
    (hopen : ∀ body ∈ Literal.unit∗, cs ≠ '"' :: body) (hmem : text ∈ vocabulary)
    (hpre : text <+: cs ++ '\n' :: below) : text <+: cs := by
  obtain ⟨rule, hrule, hmem⟩ := hmem
  have hline : cs ++ ['\n'] <+: cs ++ '\n' :: below := ⟨below, by simp⟩
  by_contra hnot
  obtain ⟨rest, rfl⟩ : cs ++ ['\n'] <+: text := by
    rcases List.prefix_or_prefix_of_prefix hpre hline with hpre | hpre
    · rcases List.prefix_concat_iff.mp hpre with rfl | hpre
      · exact List.prefix_refl _
      · exact absurd hpre hnot
    · exact hpre
  rcases blank_or_string_of_newline_mem hrule hmem (by simp) with rfl | rfl
  · obtain ⟨c, ds, heq, hc, hds⟩ := mem_run.mp hmem
    have hblanks : ∀ c ∈ cs ++ ['\n'] ++ rest, isBlank c = true := heq ▸ List.forall_mem_cons.mpr ⟨hc, hds⟩
    exact hblank fun c hc => hblanks c (by simp [hc])
  · obtain ⟨ds, rfl⟩ : ∃ ds, cs = '"' :: ds := by
      cases cs with
      | nil => exact absurd (List.forall_mem_nil _) hblank
      | cons c ds =>
        obtain ⟨body, -, heq | heq⟩ := Literal.mem_pattern.mp hmem
        · exact ⟨ds, by rw [(List.cons.inj heq).1]⟩
        · exact ⟨ds, by rw [(List.cons.inj heq).1]⟩
    have hscan := Literal.text_scan_append_newline (fun hbody => hopen ds hbody rfl) below
    have hlength : ('"' :: ds ++ ['\n'] ++ rest).length ≤ 1 + (Literal.scan (ds ++ '\n' :: below)).text.length :=
      Literal.length_le_of_mem_pattern hmem hpre
    have hle := (Literal.text_scan_isPrefix ds).length_le
    rw [hscan] at hlength
    simp only [List.length_append, List.length_cons] at hlength
    omega

end Rule

namespace Lexer

variable {l l' : Lexer} {below gap rest : List Char} {n : Nat}

/-- The lexer of the same text with another behind it. -/
def followed (below : List Char) (l : Lexer) : Lexer where
  file := l.file
  offset := l.offset
  rest := l.rest ++ below
  left := (l.rest ++ below).length
  left_eq := rfl

/-- The lexer of another text, behind the end of this one and a line break. -/
def lineBelow (below : List Char) (l : Lexer) : Lexer where
  file := l.file
  offset := l.offset + byteLength l.rest + 1
  rest := below
  left := below.length
  left_eq := rfl

@[simp] theorem rest_followed (below : List Char) (l : Lexer) : (l.followed below).rest = l.rest ++ below := rfl

theorem drop_followed (h : n ≤ l.rest.length) : (l.followed below).drop n = (l.drop n).followed below := by
  refine ext rfl ?_ ?_
  · simp only [drop, followed, List.take_append_of_le_length h]
  · simp only [drop, followed, List.drop_append_of_le_length h]

theorem lineBelow_drop (l : Lexer) (n : Nat) : (l.drop n).lineBelow below = l.lineBelow below := by
  refine ext rfl ?_ rfl
  show l.offset + byteLength (l.rest.take n) + byteLength (l.rest.drop n) + 1 = l.offset + byteLength l.rest + 1
  rw [Nat.add_assoc l.offset, ← byteLength_append, List.take_append_drop]

theorem drop_newline (l : Lexer) : (l.followed ('\n' :: below)).drop (l.rest.length + 1) = l.lineBelow below := by
  have hrest : (l.followed ('\n' :: below)).rest = (l.rest ++ ['\n']) ++ below := by simp
  have hlength : l.rest.length + 1 = (l.rest ++ ['\n']).length := by simp
  rw [hlength]
  refine ext rfl ?_ (rest_drop hrest)
  rw [offset_drop hrest, byteLength_append]
  exact (Nat.add_assoc _ _ _).symm

theorem tokens_congr (h : l.next = l'.next) : l.tokens = l'.tokens := by
  by_cases hkind : l.next.1.kind = .eof
  · have hkind' : l'.next.1.kind = .eof := h ▸ hkind
    rw [tokens_of_eof hkind, tokens_of_eof hkind', h]
  · have hkind' : l'.next.1.kind ≠ .eof := h ▸ hkind
    rw [tokens_of_ne_eof hkind, tokens_of_ne_eof hkind', h]

theorem next_takeWhile_isBlank (l : Lexer) : l.next = (l.drop (l.rest.takeWhile isBlank).length).next := by
  cases hl : l.rest with
  | nil => rw [List.takeWhile_nil, List.length_nil, drop_zero]
  | cons c cs =>
    cases hc : isBlank c with
    | false => rw [List.takeWhile_cons, hc, if_neg Bool.false_ne_true, List.length_nil, drop_zero]
    | true =>
      rw [List.takeWhile_cons, if_pos hc]
      have hsplit : l.rest = (c :: cs.takeWhile isBlank) ++ cs.dropWhile isBlank := by
        rw [hl, List.cons_append, List.takeWhile_append_dropWhile]
      have hfirst : Rule.first? l.rest = some (.blank, (c :: cs.takeWhile isBlank).length) :=
        hl ▸ Rule.first?_of_isBlank hc
      exact next_of_skip hsplit hfirst rfl

/-- Blanks make no difference to the next token but for its place. -/
theorem next_of_blanks (hl : l.rest = gap ++ rest) (hgap : ∀ c ∈ gap, isBlank c = true) :
    l.next = (l.drop gap.length).next := by
  rw [l.next_takeWhile_isBlank, (l.drop gap.length).next_takeWhile_isBlank, drop_drop, rest_drop hl, hl,
    List.takeWhile_append_of_pos hgap, List.length_append]

/-- A lexer takes the same token, or passes over the same characters, whatever is below the line. -/
theorem next_followed (hblank : ¬∀ c ∈ l.rest, isBlank c = true)
    (hopen : ∀ body ∈ Literal.unit∗, l.rest ≠ '"' :: body) (below : List Char) :
    ∃ n, 0 < n ∧ n ≤ l.rest.length ∧
      ((∃ t, t.kind ≠ .eof ∧ l.next = (t, l.drop n) ∧
          (l.followed ('\n' :: below)).next = (t, (l.followed ('\n' :: below)).drop n)) ∨
        l.next = (l.drop n).next ∧
          (l.followed ('\n' :: below)).next = ((l.followed ('\n' :: below)).drop n).next) := by
  have hshared : ∀ {text}, text ∈ Rule.vocabulary → text <+: (l.followed ('\n' :: below)).rest → text <+: l.rest :=
    fun hmem hpre => Rule.isPrefix_of_isPrefix_append_newline hblank hopen hmem hpre
  rcases Rule.first?_cases l.rest with ⟨hnone, hfree⟩ | ⟨rule, hrule, text, hfirst, hmem, hlongest⟩
  · obtain ⟨c, cs, hl⟩ : ∃ c cs, l.rest = c :: cs := by
      apply List.exists_cons_of_ne_nil
      intro hnil
      exact hblank (hnil ▸ List.forall_mem_nil _)
    have hl' : (l.followed ('\n' :: below)).rest = c :: (cs ++ '\n' :: below) := by
      rw [rest_followed, hl, List.cons_append]
    have hnone' : Rule.first? (l.followed ('\n' :: below)).rest = none :=
      Rule.first?_eq_none fun text hpre hmem => hfree text (hshared hmem hpre) hmem
    have hlength : 1 ≤ l.rest.length := by simp [hl]
    exact ⟨1, Nat.one_pos, hlength, .inl ⟨_, by simp, next_of_illegal hl hnone, next_of_illegal hl' hnone'⟩⟩
  · have hlongest' : Longest Rule.vocabulary (l.followed ('\n' :: below)).rest text :=
      ⟨hlongest.isPrefix.trans (List.prefix_append _ _), hlongest.mem,
        fun other hpre hother => hlongest.length_le other (hshared hother hpre) hother⟩
    have hfirst' := Rule.first?_of_longest hrule hmem hlongest'
    obtain ⟨rest, hl⟩ := hlongest.isPrefix
    obtain ⟨rest', hl'⟩ := hlongest'.isPrefix
    refine ⟨text.length, Rule.first?_pos hfirst, hlongest.isPrefix.length_le, ?_⟩
    rcases ht : rule.token? text with _ | ⟨kind, value⟩
    · exact .inr ⟨next_of_skip hl.symm hfirst ht, next_of_skip hl'.symm hfirst' ht⟩
    · have hkind : kind ≠ .eof := by
        rintro rfl
        have htake : l.rest.take text.length = text := by rw [← hl, List.take_left]
        exact Rule.genuine_of_token? hfirst (htake.symm ▸ ht)
      exact .inl ⟨_, hkind, next_of_token hl.symm hfirst ht, next_of_token hl'.symm hfirst' ht⟩

theorem tokens_ne_nil (l : Lexer) : l.tokens ≠ [] := by
  obtain ⟨T, stop, htokens, -⟩ := l.exists_tokens
  simp [htokens]

/-- Behind nothing but blanks there is only the end. -/
theorem next_of_blank (hblank : ∀ c ∈ l.rest, isBlank c = true) : l.next.1.kind = .eof := by
  have hend : l.next = (l.drop l.rest.length).next := next_of_blanks (List.append_nil _).symm hblank
  rw [hend, next_of_rest_eq_nil List.drop_length]
  rfl

theorem tokens_followed_of_blank (hblank : ∀ c ∈ l.rest, isBlank c = true) (below : List Char) :
    (l.followed ('\n' :: below)).tokens = l.tokens.dropLast ++ (l.lineBelow below).tokens := by
  have hsplit : (l.followed ('\n' :: below)).rest = (l.rest ++ ['\n']) ++ below := by simp
  have hbreak : ∀ c ∈ ['\n'], isBlank c = true := List.forall_mem_singleton.mpr rfl
  have hbelow := next_of_blanks hsplit (List.forall_mem_append.mpr ⟨hblank, hbreak⟩)
  rw [List.length_append, List.length_singleton, drop_newline] at hbelow
  rw [tokens_congr hbelow, tokens_of_eof (next_of_blank hblank), List.dropLast_singleton, List.nil_append]

/-- A text with a line below has its own tokens and then those of the line, or its last token is a string that is open
where the line begins. -/
theorem tokens_followed (below : List Char) (l : Lexer) :
    (l.followed ('\n' :: below)).tokens = l.tokens.dropLast ++ (l.lineBelow below).tokens ∨
      ∃ T n, ∃ body ∈ Literal.unit∗, l.tokens = T ++ (l.drop n).tokens ∧ (l.drop n).rest = '"' :: body := by
  induction hleft : l.left using Nat.strongRecOn generalizing l with
  | ind k ih =>
    by_cases hblank : ∀ c ∈ l.rest, isBlank c = true
    · exact .inl (tokens_followed_of_blank hblank below)
    by_cases hopen : ∃ body ∈ Literal.unit∗, l.rest = '"' :: body
    · obtain ⟨body, hbody, hl⟩ := hopen
      exact .inr ⟨[], 0, body, hbody, by rw [drop_zero, List.nil_append], by rw [drop_zero, hl]⟩
    obtain ⟨n, hpos, hle, hnext⟩ := next_followed hblank (fun body hbody hl => hopen ⟨body, hbody, hl⟩) below
    have hne : l.rest ≠ [] := fun hnil => hblank (hnil ▸ List.forall_mem_nil _)
    have htail := ih _ (hleft ▸ left_drop_lt hpos hne) (l.drop n) rfl
    rw [← drop_followed hle, lineBelow_drop] at htail
    -- what the step adds to the tokens of the rest, a token or nothing, it adds in both texts
    obtain ⟨S, htokens, htokens'⟩ : ∃ S, l.tokens = S ++ (l.drop n).tokens ∧
        (l.followed ('\n' :: below)).tokens = S ++ ((l.followed ('\n' :: below)).drop n).tokens := by
      rcases hnext with ⟨t, hkind, hnext, hnext'⟩ | ⟨hnext, hnext'⟩
      · refine ⟨[t], ?_, ?_⟩
        · rw [tokens_of_ne_eof (by rwa [hnext]), hnext, List.singleton_append]
        · rw [tokens_of_ne_eof (by rwa [hnext']), hnext', List.singleton_append]
      · exact ⟨[], tokens_congr hnext, tokens_congr hnext'⟩
    rcases htail with htail | ⟨T, m, body, hbody, htail, hl⟩
    · left
      rw [htokens', htail, htokens, List.dropLast_append_of_ne_nil (tokens_ne_nil _), List.append_assoc]
    · refine .inr ⟨S ++ T, n + m, body, hbody, ?_, ?_⟩
      · rw [htokens, htail, drop_drop, List.append_assoc]
      · rw [← drop_drop, hl]

end Lexer

/-- The last token of the text is a string that has come to the end of the text without a closing quote. -/
def EndsInString (source : String) (file : Option String) : Prop :=
  ∃ t ∈ (tokenize source file).dropLast.getLast?, t.kind = .string ∧
    ∃ pre text, t.span.Covers source (file.getD "shell") pre text [] ∧ Literal.Unclosed text

variable {source below : String} {file : Option String} {T : List Token} {n : Nat} {body : List Char}

theorem endsInString_of_rest (hbody : body ∈ Literal.unit∗)
    (htokens : tokenize source file = T ++ ((Lexer.ofString source file).drop n).tokens)
    (hrest : ((Lexer.ofString source file).drop n).rest = '"' :: body) : EndsInString source file := by
  have hscan : (Literal.scan body).text = body := by
    have happend := Literal.text_scan_append hbody []
    rwa [List.append_nil, Literal.scan, List.append_nil] at happend
  have hwhole : ((Lexer.ofString source file).drop n).rest = ('"' :: body) ++ [] := by rw [hrest, List.append_nil]
  have hnext := Lexer.next_of_quote hrest
  rw [hscan] at hnext
  have hkind : (((Lexer.ofString source file).drop n).drop ('"' :: body).length).next.1.kind = .eof := by
    rw [Lexer.next_of_rest_eq_nil (Lexer.rest_drop hwhole)]
    rfl
  rw [Lexer.tokens_of_ne_eof (by simp [hnext]), hnext, Lexer.tokens_of_eof hkind] at htokens
  refine ⟨⟨.string, String.ofList (Literal.scan body).value, _⟩, ?_, rfl, _, _, Lexer.covers_spanOf hwhole, body, hbody,
    rfl⟩
  rw [htokens, List.append_cons, List.dropLast_concat, List.getLast?_concat]
  rfl

/-- A part of the text above the line break is one of the whole text too. -/
theorem Span.Covers.append_newline {s : Span} {label : String} {pre text post : List Char}
    (h : s.Covers source label pre text post) (below : String) :
    s.Covers (source ++ "\n" ++ below) label pre text (post ++ '\n' :: below.toList) := by
  refine ⟨String.toList_inj.mp ?_, h.eq⟩
  rw [h.source_eq]
  simp

/-- The open string goes on below the line. -/
theorem EndsInString.tokenize_append_ne (h : EndsInString source file)
    (hsize : (source ++ "\n" ++ below).utf8ByteSize < 2 ^ 32) (U : List Token) :
    tokenize (source ++ "\n" ++ below) file ≠ (tokenize source file).dropLast ++ U := by
  obtain ⟨t, hlast, hkind, pre, text, hcovers, hopen⟩ := h
  obtain ⟨T, hT⟩ := List.getLast?_eq_some_iff.mp hlast
  intro htokens
  rw [hT, List.append_assoc, List.singleton_append] at htokens
  have habove := hcovers.append_newline below
  obtain ⟨pre', body, hbody, l, -, -, hwhole | ⟨hwhole, hrest⟩⟩ := exists_literal htokens hkind
  · obtain ⟨-, rfl, -⟩ := habove.unique hsize hwhole
    exact hopen.not_closed ⟨body, hbody, rfl⟩
  · obtain ⟨-, -, hl⟩ := habove.unique hsize hwhole
    rcases hrest with hrest | ⟨tail, hrest, -⟩
    · exact absurd (hl.trans hrest) (List.cons_ne_nil _ _)
    · exact absurd (List.cons.inj (hl.trans hrest)).1 (by decide)

/-- A text, a line break and another text have the tokens of the first, less the one at its end, and then those of the
second, as far on as it stands, unless the first ends in an open string. -/
theorem tokenize_append_newline (below : String) (hopen : ¬EndsInString source file) :
    tokenize (source ++ "\n" ++ below) file =
      (tokenize source file).dropLast ++
        (tokenize below file).map (Token.moved (Position.shifted (source.utf8ByteSize + 1))) := by
  have hfollowed : Lexer.ofString (source ++ "\n" ++ below) file =
      (Lexer.ofString source file).followed ('\n' :: below.toList) := by
    refine Lexer.ext rfl rfl ?_
    simp [Lexer.ofString]
  have hbelow : (Lexer.ofString source file).lineBelow below.toList =
      (Lexer.ofString below file).shifted (source.utf8ByteSize + 1) := by
    refine Lexer.ext rfl ?_ rfl
    simp [Lexer.lineBelow, Lexer.shifted, Lexer.ofString, byteLength_toList]
  rcases (Lexer.ofString source file).tokens_followed below.toList with htokens | ⟨T, n, body, hbody, htokens, hrest⟩
  · rw [tokenize, hfollowed, htokens, hbelow, Lexer.tokens_shifted]
    rfl
  · exact absurd (endsInString_of_rest hbody htokens hrest) hopen

/-- As long as all offsets fit, a text, a line break and another text have the tokens of the first, less the one at its
end, and then those of the second, raised by what stands before it, if and only if the first does not end in an open
string. -/
theorem tokenize_append_newline_iff (file : Option String) (hsize : (source ++ "\n" ++ below).utf8ByteSize < 2 ^ 32) :
    (∃ S, tokenize (source ++ "\n" ++ below) file = (tokenize source file).dropLast ++ S ∧
        List.Forall₂ (Token.Raised (source.utf8ByteSize + 1)) (tokenize below file) S) ↔
      ¬EndsInString source file := by
  constructor
  · rintro ⟨S, htokens, -⟩ hopen
    exact hopen.tokenize_append_ne hsize S htokens
  · intro hopen
    have hbreak : "\n".utf8ByteSize = 1 := rfl
    rw [String.utf8ByteSize_append, String.utf8ByteSize_append, hbreak] at hsize
    exact ⟨_, tokenize_append_newline below hopen, raised_of_shifted (by omega)⟩

/-- The string goes on over the line break. -/
theorem tokenize_append_newline_iff_open : ("\"a" ++ "\n" ++ "b").utf8ByteSize < 2 ^ 32 ∧ EndsInString "\"a" none ∧
    ¬∃ S, tokenize ("\"a" ++ "\n" ++ "b") none = (tokenize "\"a" none).dropLast ++ S ∧
      List.Forall₂ (Token.Raised ("\"a".utf8ByteSize + 1)) (tokenize "b" none) S := by
  have hsize : ("\"a" ++ "\n" ++ "b").utf8ByteSize < 2 ^ 32 := by decide +kernel
  have hbody : ['a'] ∈ Literal.unit∗ :=
    Literal.append_mem_body (Literal.mem_unit.mpr (.inr ⟨'a', by decide, rfl⟩)) (Language.nil_mem_kstar _)
  have hopen : EndsInString "\"a" none :=
    ⟨⟨.string, "a", ⟨⟨0, "shell"⟩, ⟨2, "shell"⟩⟩⟩, by decide +kernel, rfl, [], ['"', 'a'], ⟨by decide, rfl⟩, ['a'], hbody,
      rfl⟩
  exact ⟨hsize, hopen, fun h => (tokenize_append_newline_iff none hsize).mp h hopen⟩

theorem tokenize_blanks (n : Nat) (file : Option String) : (tokenize (String.ofList (blanks n)) file).dropLast = [] := by
  have hrest : (Lexer.ofString (String.ofList (blanks n)) file).rest = blanks n := String.toList_ofList
  have hblank : ∀ c ∈ (Lexer.ofString (String.ofList (blanks n)) file).rest, isBlank c = true := by
    rw [hrest]
    exact isBlank_of_mem_blanks
  rw [tokenize, Lexer.tokens_of_eof (Lexer.next_of_blank hblank), List.dropLast_singleton]

/-- Blanks up to the last offset there is. -/
def manyBlanks : String :=
  String.ofList (blanks (2 ^ 32 - 1))

/-- A name behind so many blanks is not raised by their number, though no string is open there. -/
theorem tokenize_manyBlanks :
    ¬EndsInString manyBlanks none ∧
      ¬∃ S, tokenize (manyBlanks ++ "\n" ++ "x") none = (tokenize manyBlanks none).dropLast ++ S ∧
        List.Forall₂ (Token.Raised (manyBlanks.utf8ByteSize + 1)) (tokenize "x" none) S := by
  constructor
  · rintro ⟨t, hlast, -⟩
    rw [manyBlanks, tokenize_blanks] at hlast
    exact nomatch hlast
  · rintro ⟨S, -, hraised⟩
    have hsize : manyBlanks.utf8ByteSize = 2 ^ 32 - 1 := (byteLength_eq _).symm.trans byteLength_blanks
    have hlt := size_add_lt_of_raised hraised
    rw [hsize] at hlt
    exact absurd hlt (by decide)

end FrontEnd
