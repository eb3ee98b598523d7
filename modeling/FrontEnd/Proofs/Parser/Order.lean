import FrontEnd.Proofs.Lexer.LineBreak
import FrontEnd.Proofs.Parser.Ledger
import FrontEnd.Proofs.Parser.Text

/-!
The order of the reports about a text. Whatever is reported of a token in view is reported no further ahead than where
the parser goes on, and it never goes back. Only a block that is not closed is reported behind its start, at the end of
the text, and there the blocks are left from the innermost one outwards.
-/

namespace FrontEnd

/-- Where the token starts. -/
def Token.offset (t : Token) : Nat :=
  t.span.start.offset.toNat

/-- The reports of blocks that are not closed go back in the text, and all others go on. -/
structure InOrder (D : List Diagnostic) : Prop where
  onward : (D.filter fun d => !d.fault.unclosed).Pairwise fun d e => d.position.offset.toNat ≤ e.position.offset.toNat
  outward : (D.filter fun d => d.fault.unclosed).Pairwise fun d e => e.position.offset.toNat < d.position.offset.toNat

namespace InOrder

variable {D : List Diagnostic} {d : Diagnostic}

theorem concat_of_closed (h : InOrder D) (hd : d.fault.unclosed = false)
    (hle : ∀ e ∈ D, e.fault.unclosed = false → e.position.offset.toNat ≤ d.position.offset.toNat) :
    InOrder (D ++ [d]) := by
  constructor
  · rw [List.filter_append, List.filter_singleton, hd, Bool.not_false, cond_true]
    refine List.pairwise_append.mpr ⟨h.onward, List.pairwise_singleton _ d, fun e he e' he' => ?_⟩
    obtain rfl := List.mem_singleton.mp he'
    obtain ⟨hmem, hclosed⟩ := List.mem_filter.mp he
    exact hle e hmem (by simpa using hclosed)
  · rw [List.filter_append, List.filter_singleton, hd, cond_false, List.append_nil]
    exact h.outward

theorem concat_of_unclosed (h : InOrder D) (hd : d.fault.unclosed = true)
    (hlt : ∀ e ∈ D, e.fault.unclosed = true → d.position.offset.toNat < e.position.offset.toNat) :
    InOrder (D ++ [d]) := by
  constructor
  · rw [List.filter_append, List.filter_singleton, hd, Bool.not_true, cond_false, List.append_nil]
    exact h.onward
  · rw [List.filter_append, List.filter_singleton, hd, cond_true]
    refine List.pairwise_append.mpr ⟨h.outward, List.pairwise_singleton _ d, fun e he e' he' => ?_⟩
    obtain rfl := List.mem_singleton.mp he'
    obtain ⟨hmem, hunclosed⟩ := List.mem_filter.mp he
    exact hlt e hmem hunclosed

end InOrder

namespace Parser

/-- Each of the tokens starts behind the one before, up to the end, which is repeated. -/
structure Rising (p : Parser) : Prop where
  lt : ∀ k, (p.ahead k).kind ≠ .eof → (p.ahead k).offset < (p.ahead (k + 1)).offset
  again : ∀ k, (p.ahead k).kind = .eof → p.ahead (k + 1) = p.ahead k

/-- What has been reported is in order, with nothing reported of tokens beyond the bound. The braces are those of open
blocks, and once one of the blocks inside them has not been closed, the tokens have come to an end. -/
structure Ordered (braces : List Token) (bound : Nat) (p : Parser) : Prop where
  rising : p.Rising
  reports : InOrder p.diagnostics.toList
  bounded : ∀ d ∈ p.diagnostics.toList, d.fault.unclosed = false → d.position.offset.toNat ≤ bound
  braces_nested : braces.Pairwise fun t u => u.offset < t.offset
  braces_lt : ∀ t ∈ braces, t.offset < p.current.offset
  inside : ∀ d ∈ p.diagnostics.toList, d.fault.unclosed = true →
    p.current.kind = .eof ∧ ∀ t ∈ braces, t.offset < d.position.offset.toNat

variable {p q : Parser} {braces : List Token} {bound : Nat} {brace : Token} {d : Diagnostic}

theorem ahead_of_window (hcurrent : p.current = q.current) (hpeek : p.peek = q.peek) (hsource : p.source = q.source)
    (k : Nat) : p.ahead k = q.ahead k := by
  rcases k with _ | _ | k
  · exact hcurrent
  · exact hpeek
  · exact congrArg (·.nth k) hsource

theorem Rising.of_ahead (h : q.Rising) (hahead : ∀ k, p.ahead k = q.ahead k) : p.Rising where
  lt k := by
    rw [hahead, hahead]
    exact h.lt k
  again k := by
    rw [hahead, hahead]
    exact h.again k

theorem Rising.advance (h : p.Rising) : p.advance.Rising where
  lt k := by
    rw [ahead_advance, ahead_advance]
    exact h.lt (k + 1)
  again k := by
    rw [ahead_advance, ahead_advance]
    exact h.again (k + 1)

theorem Rising.current_le_peek (h : p.Rising) : p.current.offset ≤ p.peek.offset := by
  by_cases heof : p.current.kind = .eof
  · exact Nat.le_of_eq (congrArg Token.offset (h.again 0 heof)).symm
  · exact Nat.le_of_lt (h.lt 0 heof)

namespace Ordered

theorem of_window (h : q.Ordered braces bound) (hcurrent : p.current = q.current) (hpeek : p.peek = q.peek)
    (hsource : p.source = q.source) (hdiagnostics : p.diagnostics = q.diagnostics) : p.Ordered braces bound where
  rising := h.rising.of_ahead (ahead_of_window hcurrent hpeek hsource)
  reports := hdiagnostics ▸ h.reports
  bounded := hdiagnostics ▸ h.bounded
  braces_nested := h.braces_nested
  braces_lt := hcurrent ▸ h.braces_lt
  inside := hdiagnostics ▸ hcurrent ▸ h.inside

theorem mono {bound' : Nat} (h : p.Ordered braces bound) (hle : bound ≤ bound') : p.Ordered braces bound' :=
  { h with bounded := fun d hd hclosed => Nat.le_trans (h.bounded d hd hclosed) hle }

theorem advance (h : p.Ordered braces bound) : p.advance.Ordered braces bound where
  rising := h.rising.advance
  reports := h.reports
  bounded := h.bounded
  braces_nested := h.braces_nested
  braces_lt t ht := Nat.lt_of_lt_of_le (h.braces_lt t ht) h.rising.current_le_peek
  inside d hd hunclosed := by
    obtain ⟨heof, hbraces⟩ := h.inside d hd hunclosed
    exact ⟨(congrArg Token.kind (h.rising.again 0 heof)).trans heof, hbraces⟩

/-- What is reported at the bound is in order. -/
theorem report (d : Diagnostic) (h : p.Ordered braces d.position.offset.toNat) (hd : d.fault.unclosed = false) :
    (p.report d).Ordered braces d.position.offset.toNat := by
  unfold Parser.report
  split
  · exact h
  · have hpush : (p.diagnostics.push d).toList = p.diagnostics.toList ++ [d] := Array.toList_push
    constructor
    · exact h.rising.of_ahead (ahead_of_window rfl rfl rfl)
    · exact hpush ▸ h.reports.concat_of_closed hd h.bounded
    · rw [hpush]
      exact List.forall_mem_append.mpr ⟨h.bounded, List.forall_mem_singleton.mpr fun _ => Nat.le_refl _⟩
    · exact h.braces_nested
    · exact h.braces_lt
    · rw [hpush]
      refine List.forall_mem_append.mpr ⟨h.inside, List.forall_mem_singleton.mpr fun hunclosed => ?_⟩
      exact nomatch hd.symm.trans hunclosed

/-- On an opening brace no block inside has been left yet. -/
theorem enter (h : p.Ordered braces p.current.offset) (hkind : p.current.kind = .openCurly) :
    p.advance.Ordered (p.current :: braces) p.advance.current.offset := by
  have hne : p.current.kind ≠ .eof := by
    rw [hkind]
    decide
  have hadvance := (h.mono h.rising.current_le_peek).advance
  refine { hadvance with braces_nested := ?_, braces_lt := ?_, inside := fun d hd hunclosed => ?_ }
  · exact List.pairwise_cons.mpr ⟨h.braces_lt, h.braces_nested⟩
  · exact List.forall_mem_cons.mpr ⟨h.rising.lt 0 hne, hadvance.braces_lt⟩
  · exact absurd (h.inside d hd hunclosed).1 hne

theorem leave (h : p.Ordered (brace :: braces) bound) : p.Ordered braces bound :=
  { h with
    braces_nested := (List.pairwise_cons.mp h.braces_nested).2
    braces_lt := fun t ht => h.braces_lt t (List.mem_cons_of_mem _ ht)
    inside := fun d hd hunclosed =>
      ⟨(h.inside d hd hunclosed).1, fun t ht => (h.inside d hd hunclosed).2 t (List.mem_cons_of_mem _ ht)⟩ }

/-- A block that is not closed stands inside all that are still open, and around all that have not been closed. -/
theorem leaveUnclosed (h : p.Ordered (brace :: braces) bound) (heof : p.current.kind = .eof) :
    (p.report ⟨.unterminatedBlock brace.value, brace.span.start⟩).Ordered braces bound := by
  unfold Parser.report
  split
  · exact h.leave
  · have hpush : (p.diagnostics.push ⟨.unterminatedBlock brace.value, brace.span.start⟩).toList =
        p.diagnostics.toList ++ [⟨.unterminatedBlock brace.value, brace.span.start⟩] := Array.toList_push
    constructor
    · exact h.rising.of_ahead (ahead_of_window rfl rfl rfl)
    · exact hpush ▸ h.reports.concat_of_unclosed rfl fun e he hunclosed =>
        (h.inside e he hunclosed).2 brace List.mem_cons_self
    · rw [hpush]
      refine List.forall_mem_append.mpr ⟨h.bounded, List.forall_mem_singleton.mpr fun hclosed => ?_⟩
      exact nomatch hclosed
    · exact h.leave.braces_nested
    · exact h.leave.braces_lt
    · rw [hpush]
      refine List.forall_mem_append.mpr ⟨h.leave.inside, List.forall_mem_singleton.mpr fun _ => ?_⟩
      exact ⟨heof, (List.pairwise_cons.mp h.braces_nested).1⟩

end Ordered

end Parser

namespace Parse

/-- The last place of which something may have been reported. -/
def Stage.bound : Stage → Parser → Nat
  | .fresh, p | .taken, p => p.current.offset
  | .failed, p => p.peek.offset

theorem Stage.bound_of_window {p q : Parser} (stage : Stage) (hcurrent : p.current = q.current)
    (hpeek : p.peek = q.peek) : stage.bound p = stage.bound q := by
  cases stage with
  | fresh | taken => exact congrArg Token.offset hcurrent
  | failed => exact congrArg Token.offset hpeek

theorem Stage.bound_report (stage : Stage) (d : Diagnostic) (p : Parser) :
    stage.bound (p.report d) = stage.bound p := by
  unfold Parser.report
  split
  · rfl
  · exact stage.bound_of_window rfl rfl

/-- The tokens that are kept are of no account for the order of reports. -/
def orderLedger : Ledger where
  holds stage braces _ p := p.Ordered braces (stage.bound p)
  window {stage} _ _ _ _ h hcurrent hpeek hsource hdiagnostics := by
    rw [stage.bound_of_window hcurrent hpeek]
    exact h.of_window hcurrent hpeek hsource hdiagnostics
  use h := h
  fail h := h.mono h.rising.current_le_peek
  forget h := h
  advance h := h.advance
  keep h _ := h
  reportCurrent fault hfault _ h := by
    rw [Stage.bound_report]
    exact Parser.Ordered.report ⟨fault, _⟩ h hfault
  reportPeek fault hfault _ h := by
    rw [Stage.bound_report]
    exact Parser.Ordered.report ⟨fault, _⟩ h hfault
  enter h hkind := h.enter hkind
  leave h _ := h.leave
  leaveUnclosed h heof := by
    rw [Stage.bound_report]
    exact h.leaveUnclosed heof

end Parse

namespace Parser

variable {p : Parser} {T : List Token} {stop : Position}

theorem rising_of_ahead (hahead : ∀ k, p.ahead k = (T[k]?).getD (Token.eof stop)) (hfree : ∀ t ∈ T, t.kind ≠ .eof)
    (hstarts : (T ++ [Token.eof stop]).Pairwise fun t u => t.kind ≠ .eof → t.offset < u.offset) : p.Rising := by
  have hend : ∀ k, T.length ≤ k → p.ahead k = Token.eof stop := by
    intro k hk
    rw [hahead, List.getElem?_eq_none hk]
    rfl
  have hlist : ∀ (k : Nat) (hk : k < (T ++ [Token.eof stop]).length), p.ahead k = (T ++ [Token.eof stop])[k] := by
    intro k hk
    by_cases hlt : k < T.length
    · rw [hahead, List.getElem?_eq_getElem hlt, List.getElem_append_left hlt]
      rfl
    · rw [hend k (Nat.le_of_not_lt hlt), List.getElem_append_right (Nat.le_of_not_lt hlt), List.getElem_singleton]
  have hlength : (T ++ [Token.eof stop]).length = T.length + 1 := List.length_append
  constructor
  · intro k hkind
    have hlt : k < T.length := by
      by_contra hle
      exact hkind (congrArg Token.kind (hend k (Nat.le_of_not_lt hle)))
    have hk : k < (T ++ [Token.eof stop]).length := by omega
    have hnext : k + 1 < (T ++ [Token.eof stop]).length := by omega
    rw [hlist k hk] at hkind ⊢
    rw [hlist (k + 1) hnext]
    exact List.pairwise_iff_getElem.mp hstarts k (k + 1) hk hnext (Nat.lt_succ_self k) hkind
  · intro k hkind
    have hle : T.length ≤ k := by
      by_contra hlt
      rw [hahead, List.getElem?_eq_getElem (Nat.lt_of_not_le hlt)] at hkind
      exact hfree _ (List.getElem_mem _) hkind
    rw [hend k hle, hend (k + 1) (Nat.le_succ_of_le hle)]

variable {source : String}

/-- The tokens of a text stand apart from each other, and none of them but the end is empty. -/
theorem rising_ofString (file : Option String) (hsize : source.utf8ByteSize < 2 ^ 32) :
    (ofString source file).Rising := by
  have htiles : Tiles source (file.getD "shell") (Lexer.ofString source file).tokens :=
    Tiled.tiles (Lexer.ofString source file).tokens_tiled hsize
  obtain ⟨T, stop, htokens, -, -, hnth⟩ := (Lexer.ofString source file).exists_tokens
  rw [htokens] at htiles
  obtain ⟨T', hended, hfree⟩ := htiles.ended
  obtain rfl := (List.append_inj' hended rfl).1
  refine rising_of_ahead (fun k => ?_) hfree (htiles.apart.imp_of_mem fun ht _ hle hkind => ?_)
  · rw [← hnth]
    rcases k with _ | _ | k <;> rfl
  · exact Nat.lt_of_lt_of_le (htiles.nonempty _ ht hkind) hle

theorem ordered_ofString (file : Option String) (hsize : source.utf8ByteSize < 2 ^ 32) :
    (ofString source file).Ordered [] (ofString source file).current.offset where
  rising := rising_ofString file hsize
  reports := ⟨.nil, .nil⟩
  bounded _ hd := nomatch hd
  braces_nested := .nil
  braces_lt _ ht := nomatch ht
  inside _ hd := nomatch hd

end Parser

variable {source : String}

/-- The reports about a text are in order if each of its bytes has an offset of its own. -/
theorem inOrder_parse (file : Option String) (hsize : source.utf8ByteSize < 2 ^ 32) :
    InOrder (parse source file).2 :=
  (Parse.Ledger.program (L := Parse.orderLedger) (Parser.ordered_ofString file hsize)).reports

/-- Three blocks that are not closed. -/
def unclosedText : String :=
  "if (a) \x7b [1 ; if (b) \x7b let 2; fn(x) \x7b @"

theorem inOrder_parse_unclosed :
    unclosedText.utf8ByteSize < 2 ^ 32 ∧ InOrder (parse unclosedText none).2 ∧
      (parse unclosedText none).2.map (fun d => d.position.offset) = [12, 27, 38, 36, 21, 7] := by
  have hsize : unclosedText.utf8ByteSize < 2 ^ 32 := by decide +kernel
  exact ⟨hsize, inOrder_parse none hsize, by decide +kernel⟩

/-! A text with more bytes than offsets -/

/-- Blanks and a character that starts no token: the character is the next token, and stands behind the blanks. -/
theorem Lexer.tokens_of_blanks {l : Lexer} {n : Nat} {rest : List Char} (hl : l.rest = blanks n ++ '@' :: rest) :
    ∃ l' : Lexer, l'.rest = rest ∧ l'.offset = l.offset + n + 1 ∧ l'.file = l.file ∧
      l.tokens =
        ⟨.illegal, "@", ⟨.behind (l.offset + n) l.file, .behind (l.offset + n + 1) l.file⟩⟩ :: l'.tokens := by
  have hrest : (l.drop n).rest = '@' :: rest := by
    have hdrop := rest_drop hl
    rwa [length_blanks] at hdrop
  have hoffset : (l.drop n).offset = l.offset + n := by
    have hdrop := offset_drop hl
    rwa [length_blanks, byteLength_blanks] at hdrop
  have hfirst : Rule.first? (l.drop n).rest = none := by
    rw [hrest]
    rfl
  have hnext := next_of_blanks hl isBlank_of_mem_blanks
  rw [length_blanks, next_of_illegal hrest hfirst] at hnext
  have hone : (l.drop n).rest = ['@'] ++ rest := hrest
  have hbehind : ((l.drop n).drop 1).offset = l.offset + n + 1 := (offset_drop hone).trans (congrArg (· + 1) hoffset)
  refine ⟨(l.drop n).drop 1, rest_drop hone, hbehind, rfl, ?_⟩
  rw [tokens_of_ne_eof (by simp [hnext]), hnext, spanOf, position, hoffset]
  rfl

/-- Two characters that start no token, so many bytes apart. -/
def farApart (n : Nat) : String :=
  String.ofList (blanks 5 ++ '@' :: (blanks n ++ ['@']))

theorem tokenize_farApart (n : Nat) : tokenize (farApart n) none =
    [⟨.illegal, "@", ⟨.behind 5 "shell", .behind 6 "shell"⟩⟩,
      ⟨.illegal, "@", ⟨.behind (6 + n) "shell", .behind (6 + n + 1) "shell"⟩⟩,
      Token.eof (.behind (6 + n + 1) "shell")] := by
  have hl : (Lexer.ofString (farApart n) none).rest = blanks 5 ++ '@' :: (blanks n ++ ['@']) := String.toList_ofList
  obtain ⟨l, hrest, hoffset, hfile, htokens⟩ := Lexer.tokens_of_blanks hl
  obtain ⟨l', hrest', hoffset', hfile', htokens'⟩ := Lexer.tokens_of_blanks hrest
  have hend := Lexer.next_of_rest_eq_nil hrest'
  rw [tokenize, htokens, htokens', Lexer.tokens_of_eof (by rw [hend]; rfl), hend, Lexer.position, hoffset', hfile',
    hoffset, hfile]
  rfl

/-- The second of the two stands at the first offset again, and is reported behind the first one all the same. -/
theorem disordered_farApart :
    (parse (farApart (2 ^ 32 - 6)) none).2 =
        [⟨.noOperand .illegal "@", ⟨5, "shell"⟩⟩, ⟨.noOperand .illegal "@", ⟨0, "shell"⟩⟩] ∧
      ¬InOrder (parse (farApart (2 ^ 32 - 6)) none).2 := by
  have htokens : tokenize (farApart (2 ^ 32 - 6)) none =
      [⟨.illegal, "@", ⟨⟨5, "shell"⟩, ⟨6, "shell"⟩⟩⟩, ⟨.illegal, "@", ⟨⟨0, "shell"⟩, ⟨1, "shell"⟩⟩⟩,
        Token.eof ⟨1, "shell"⟩] := tokenize_farApart (2 ^ 32 - 6)
  have hreports : (parse (farApart (2 ^ 32 - 6)) none).2 =
      [⟨.noOperand .illegal "@", ⟨5, "shell"⟩⟩, ⟨.noOperand .illegal "@", ⟨0, "shell"⟩⟩] := by
    rw [parse_eq_parseTokens, htokens]
    decide +kernel
  refine ⟨hreports, fun h => ?_⟩
  rw [hreports] at h
  exact absurd ((List.pairwise_cons.mp h.onward).1 _ (List.mem_singleton.mpr rfl)) (by decide)

end FrontEnd
