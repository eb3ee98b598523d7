import FrontEnd.Proofs.Parser.Ledger
import FrontEnd.Proofs.Parser.Program

/-!
Where the tokens of a program come from. Wherever the parser gives up and goes on from, it keeps a token only while it
is on it, and it never goes back. So no token is kept twice, and those that are kept stay in their order.
-/

open scoped List

namespace FrontEnd

namespace Parse

/-- The tokens that nothing has been made of: the current one is among them only while it is fresh. -/
def Stage.unused : Stage → List Token → List Token
  | .fresh, ts => ts
  | .taken, ts | .failed, ts => ts.tail

/-- The tokens kept so far, and behind them those that nothing has been made of, stand at different places of `T`, in
their order. No end is kept. -/
structure Drawn (T : List Token) (stage : Stage) (kept : List Token) (p : Parser) : Prop where
  sublist : ∃ stop ts, p.Sees stop ts ∧ kept ++ stage.unused ts <+ T
  genuine : ∀ t ∈ kept, t.kind ≠ .eof

namespace Drawn

variable {T kept more : List Token} {stage : Stage} {p q : Parser}

theorem of_window (h : Drawn T stage kept q) (hcurrent : p.current = q.current) (hpeek : p.peek = q.peek)
    (hsource : p.source = q.source) : Drawn T stage kept p := by
  obtain ⟨⟨stop, ts, hsees, hsublist⟩, hgenuine⟩ := h
  exact ⟨⟨stop, ts, hsees.of_window hcurrent hpeek hsource, hsublist⟩, hgenuine⟩

theorem report (h : Drawn T stage kept p) (d : Diagnostic) : Drawn T stage kept (p.report d) := by
  obtain ⟨⟨stop, ts, hsees, hsublist⟩, hgenuine⟩ := h
  exact ⟨⟨stop, ts, hsees.report d, hsublist⟩, hgenuine⟩

theorem use (h : Drawn T .fresh kept p) (stage : Stage) : Drawn T stage kept p := by
  obtain ⟨⟨stop, ts, hsees, hsublist⟩, hgenuine⟩ := h
  refine ⟨⟨stop, ts, hsees, List.Sublist.trans ?_ hsublist⟩, hgenuine⟩
  apply (List.Sublist.refl kept).append
  cases stage with
  | fresh => exact List.Sublist.refl ts
  | taken | failed => exact List.tail_sublist ts

theorem forget (h : Drawn T stage (kept ++ more) p) : Drawn T stage kept p := by
  obtain ⟨⟨stop, ts, hsees, hsublist⟩, hgenuine⟩ := h
  refine ⟨⟨stop, ts, hsees, List.Sublist.trans ?_ hsublist⟩, fun t ht => hgenuine t (List.mem_append_left _ ht)⟩
  exact (List.sublist_append_left kept more).append (List.Sublist.refl _)

theorem advance (h : Drawn T .failed kept p) : Drawn T .fresh kept p.advance := by
  obtain ⟨⟨stop, ts, hsees, hsublist⟩, hgenuine⟩ := h
  exact ⟨⟨stop, ts.tail, hsees.advance, hsublist⟩, hgenuine⟩

/-- Only the end that stands behind all tokens is not one of them. -/
theorem keep (h : Drawn T .fresh kept p) (hkind : p.current.kind ≠ .eof) :
    Drawn T .taken (kept ++ [p.current]) p := by
  obtain ⟨⟨stop, ts, hsees, hsublist⟩, hgenuine⟩ := h
  cases ts with
  | nil => exact absurd hsees.current_kind hkind
  | cons t ts =>
    refine ⟨⟨stop, t :: ts, hsees, ?_⟩, List.forall_mem_append.mpr ⟨hgenuine, List.forall_mem_singleton.mpr hkind⟩⟩
    rw [List.append_assoc, hsees.current_eq]
    exact hsublist

end Drawn

/-- The blocks that are open are of no account for the tokens that are kept. -/
def tokenLedger (T : List Token) : Ledger where
  holds stage _ kept p := Drawn T stage kept p
  window h hcurrent hpeek hsource _ := h.of_window hcurrent hpeek hsource
  use h := h.use .taken
  fail h := ⟨h.sublist, h.genuine⟩
  forget h := h.forget
  advance h := h.advance
  keep h hkind := h.keep hkind
  reportCurrent _ _ _ h := h.report _
  reportPeek _ _ _ h := h.report _
  enter h hkind := by
    obtain ⟨hsublist, hgenuine⟩ := h.keep (by rw [hkind]; decide)
    exact Drawn.advance ⟨hsublist, hgenuine⟩
  leave h _ := h.use .taken
  leaveUnclosed h _ := (h.use .taken).report _

end Parse

/-- Whatever the tokens are, the nodes of the program keep some of them, each at its own place of the list and in their
order, and none of those is an end. -/
theorem tokens_parseTokens_sublist (T : List Token) :
    (parseTokens T).1.tokens <+ T ∧ ∀ t ∈ (parseTokens T).1.tokens, t.kind ≠ .eof := by
  have hstart : Parse.Drawn T .fresh [] (Parser.ofTokens T) :=
    ⟨⟨_, T, Parser.sees_withLimit maxNestingDepth T, List.Sublist.refl T⟩, fun _ ht => nomatch ht⟩
  obtain ⟨⟨stop, ts, -, hsublist⟩, hgenuine⟩ := Parse.Ledger.program (L := Parse.tokenLedger T) hstart
  exact ⟨(List.sublist_append_left _ ts).trans hsublist, hgenuine⟩

/-- The closing parenthesis begins no statement and is passed over. -/
example : (parseTokens [.loose .identifier "x", .loose .closeParen ")", .loose .identifier "y"]).1.tokens =
    [.loose .identifier "x", .loose .identifier "y"] := by decide

end FrontEnd
