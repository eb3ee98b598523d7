import FrontEnd.Proofs.Parser.Program
import FrontEnd.Proofs.Parser.Supply

/-!
Texts against the grammar: what is parsed of a text is what its tokens spell.
-/

namespace FrontEnd

open Grammar

variable {source : String} {file : Option String} {T : List Token} {stop : Position}

/-- Parsing a text is parsing the tokens `T`. -/
structure Tokenizes (source : String) (file : Option String) (T : List Token) (stop : Position) : Prop where
  tokenize_eq : tokenize source file = T ++ [Token.eof stop]
  lexes : Lexes source.toList (T.map Token.lexeme)
  nth_eq : ∀ k, (TokenSource.text (Lexer.ofString source file)).nth k = (TokenSource.buffer ⟨T, stop⟩).nth k

theorem exists_tokenizes (source : String) (file : Option String) : ∃ T stop, Tokenizes source file T stop := by
  obtain ⟨T, stop, htokens, -, hlexes, hnth⟩ := (Lexer.ofString source file).exists_tokens
  refine ⟨T, stop, htokens, hlexes, fun k => ?_⟩
  rw [hnth, TokenSource.nth_buffer]

/-- Once a buffer of tokens is empty, it goes on giving the end that came last in it. -/
theorem TokenSource.nth_ofList (T : List Token) (stop : Position) (k : Nat) :
    (buffer (TokenBuffer.ofList (T ++ [Token.eof stop]))).nth k = (buffer ⟨T, stop⟩).nth k := by
  have hbuffer : TokenBuffer.ofList (T ++ [Token.eof stop]) = ⟨T ++ [Token.eof stop], stop⟩ := by
    unfold TokenBuffer.ofList
    rw [List.getLast?_concat]
    rfl
  rw [hbuffer, nth_buffer, nth_buffer]
  exact getElem?_append_replicate_getD T _ 1 k

namespace Tokenizes

theorem genuine (h : Tokenizes source file T stop) : ∀ t ∈ T, t.lexeme.Genuine :=
  fun _ ht => h.lexes.genuine _ (List.mem_map_of_mem ht)

theorem free (h : Tokenizes source file T stop) : ∀ t ∈ T, t.kind ≠ .eof :=
  fun t ht => Token.kind_ne_eof (h.genuine t ht)

theorem parse_eq (h : Tokenizes source file T stop) : parse source file =
    ((Parse.program (Parser.withLimit maxNestingDepth (.buffer ⟨T, stop⟩))).1.getD ⟨[]⟩,
      (Parse.program (Parser.withLimit maxNestingDepth (.buffer ⟨T, stop⟩))).2.diagnostics.toList) := by
  obtain ⟨hvalue, htwins⟩ := program_twins maxNestingDepth h.nth_eq
  rw [← hvalue, ← htwins.diagnostics_eq]
  rfl

theorem reads (h : Tokenizes source file T stop) (limit : Nat) :
    (Parser.withLimit limit (.buffer ⟨T, stop⟩)).Reads stop T := by
  rcases T with _ | ⟨t, _ | ⟨u, ts⟩⟩ <;> exact ⟨rfl, rfl, rfl, h.free⟩

/-- Made ahead of time, the tokens of a text come as they do when it is lexed on demand. -/
theorem nth_tokenize (h : Tokenizes source file T stop) (k : Nat) :
    (TokenSource.text (Lexer.ofString source file)).nth k =
      (TokenSource.buffer (TokenBuffer.ofList (tokenize source file))).nth k := by
  rw [h.nth_eq, h.tokenize_eq, TokenSource.nth_ofList]

theorem derives (h : Tokenizes source file T stop) (hclean : (parse source file).2 = []) :
    Derives T (parse source file).1 := by
  rw [h.parse_eq] at hclean ⊢
  obtain ⟨p, hp, hderives⟩ := (h.reads maxNestingDepth).exists_derives (Array.toList_inj.mp hclean)
  rw [hp]
  exact hderives

theorem parse_of_derives {p : Program} (h : Tokenizes source file T stop) (hderives : Derives T p) :
    (∃ d ∈ (parse source file).2, ∃ limit, d.fault = .nestingTooDeep limit) ∨ parse source file = (p, []) := by
  rw [h.parse_eq]
  rcases (h.reads maxNestingDepth).program_of_derives hderives with hdeep | ⟨hp, hd⟩
  · exact .inl hdeep
  · right
    rw [hp, hd]
    rfl

end Tokenizes

/-- Lexing a text on demand or ahead of time gives the same program and the same diagnostics, positions included. -/
theorem parse_eq_parseTokens (source : String) (file : Option String) :
    parse source file = parseTokens (tokenize source file) := by
  obtain ⟨T, stop, h⟩ := exists_tokenizes source file
  obtain ⟨hvalue, htwins⟩ := program_twins maxNestingDepth h.nth_tokenize
  apply Prod.ext
  · show (Parse.program _).1.getD ⟨[]⟩ = (Parse.program _).1.getD ⟨[]⟩
    exact congrArg (Option.getD · ⟨[]⟩) hvalue
  · show (Parse.program _).2.diagnostics.toList = (Parse.program _).2.diagnostics.toList
    exact congrArg Array.toList htwins.diagnostics_eq

end FrontEnd
