import FrontEnd.Proofs.Parser.Order
import FrontEnd.Proofs.Parser.Text

/-!
What the reports are about: each of them regards a token of the text, or its end, and stands where that one starts.
-/

namespace FrontEnd

/-- The report is about this token and stands where it starts. -/
structure Diagnostic.Regards (d : Diagnostic) (t : Token) : Prop where
  position_eq : d.position = t.span.start
  fault : d.fault.Regards t

namespace Parser

/-- All tokens that the parser still comes to are among `S`, as are the braces of the open blocks, and so is what has
been reported of. -/
structure Grounded (S braces : List Token) (p : Parser) : Prop where
  ahead : ∀ k, p.ahead k ∈ S
  opened : ∀ t ∈ braces, t ∈ S ∧ t.kind = .openCurly
  reports : ∀ d ∈ p.diagnostics.toList, ∃ t ∈ S, d.Regards t

variable {p q : Parser} {S braces : List Token} {brace t : Token} {d : Diagnostic}

namespace Grounded

theorem of_window (h : q.Grounded S braces) (hcurrent : p.current = q.current) (hpeek : p.peek = q.peek)
    (hsource : p.source = q.source) (hdiagnostics : p.diagnostics = q.diagnostics) : p.Grounded S braces where
  ahead k := ahead_of_window hcurrent hpeek hsource k ▸ h.ahead k
  opened := h.opened
  reports := hdiagnostics ▸ h.reports

theorem advance (h : p.Grounded S braces) : p.advance.Grounded S braces where
  ahead k := p.ahead_advance k ▸ h.ahead (k + 1)
  opened := h.opened
  reports := h.reports

theorem report (h : p.Grounded S braces) (ht : t ∈ S) (hregards : d.Regards t) : (p.report d).Grounded S braces := by
  unfold Parser.report
  split
  · exact h
  · refine ⟨fun k => ahead_of_window rfl rfl rfl k ▸ h.ahead k, h.opened, ?_⟩
    rw [Array.toList_push]
    exact List.forall_mem_append.mpr ⟨h.reports, List.forall_mem_singleton.mpr ⟨t, ht, hregards⟩⟩

theorem enter (h : p.Grounded S braces) (hkind : p.current.kind = .openCurly) :
    p.advance.Grounded S (p.current :: braces) :=
  { h.advance with opened := List.forall_mem_cons.mpr ⟨⟨h.ahead 0, hkind⟩, h.opened⟩ }

theorem leave (h : p.Grounded S (brace :: braces)) : p.Grounded S braces :=
  { h with opened := fun t ht => h.opened t (List.mem_cons_of_mem brace ht) }

end Grounded

end Parser

/-- It makes no difference to what is reported of which tokens are kept, or how far the parser is done with those in
view. -/
def Parse.regardLedger (S : List Token) : Ledger where
  holds _ braces _ p := p.Grounded S braces
  window h hcurrent hpeek hsource hdiagnostics := h.of_window hcurrent hpeek hsource hdiagnostics
  use h := h
  fail h := h
  forget h := h
  advance h := h.advance
  keep h _ := h
  reportCurrent _ _ hregards h := h.report (h.ahead 0) ⟨rfl, hregards⟩
  reportPeek _ _ hregards h := h.report (h.ahead 1) ⟨rfl, hregards⟩
  enter h hkind := h.enter hkind
  leave h _ := h.leave
  leaveUnclosed {brace} _ _ _ h _ := by
    obtain ⟨hbrace, hkind⟩ := h.opened brace List.mem_cons_self
    exact h.leave.report hbrace ⟨rfl, hkind, rfl⟩

/-- Each report about a text regards one of its tokens, the end among them. -/
theorem exists_regards_of_mem_parse {source : String} {file : Option String} {d : Diagnostic}
    (hd : d ∈ (parse source file).2) : ∃ t ∈ tokenize source file, d.Regards t := by
  obtain ⟨T, stop, h⟩ := exists_tokenizes source file
  have hahead : ∀ k, (Parser.ofString source file).ahead k ∈ tokenize source file := by
    intro k
    rw [h.tokenize_eq, Parser.ofString, Parser.ofSource, Parser.ahead_withLimit, h.nth_eq, TokenSource.nth_buffer]
    cases hk : T[k]? with
    | none => exact List.mem_append_right T List.mem_cons_self
    | some t => exact List.mem_append_left _ (List.mem_of_getElem? hk)
  have hstart : (Parser.ofString source file).Grounded (tokenize source file) [] :=
    ⟨hahead, fun _ ht => (nomatch ht), fun _ hd => nomatch hd⟩
  exact (Parse.Ledger.program (L := Parse.regardLedger (tokenize source file)) hstart).reports d hd

end FrontEnd
