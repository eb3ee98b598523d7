import FrontEnd.Proofs.Parser.Brace
import FrontEnd.Proofs.Parser.Triple
import FrontEnd.Proofs.Parser.Turn
import FrontEnd.Proofs.Tokens

/-!
What a run through malformed text keeps of it. A ledger tells what holds of a parser, given the blocks that are open
around it and the tokens that its tree is made of so far. One that goes along with the primitive steps goes along with
every routine, whichever way it ends: with a tree, whose tokens are entered behind those before them, or in a failure,
which leaves the entries as they were.
-/

namespace FrontEnd

/-- The report is about this token: what it says was found is what the token is. -/
def Fault.Regards : Fault → Token → Prop
  | .unexpectedToken _ found text, t => found = t.kind ∧ text = t.value
  | .unterminatedBlock opened, t => t.kind = .openCurly ∧ opened = t.value
  | .nestingTooDeep _, _ => True
  | .noOperand kind text, t => kind = t.kind ∧ text = t.value
  | .badNumber text, t => t.kind = .number ∧ text = t.value

namespace Parse

/-- How far a parser is done with the two tokens in view: with none of them, with the current one, or with that one and
complaints about the lookahead. -/
inductive Stage
  | fresh | taken | failed

/-- What holds at a stage with these blocks open, given by their braces from the innermost one on, and these tokens
kept. It is about the tokens that the parser has before it and what it has reported, and the steps of the parser move
it on. -/
structure Ledger where
  holds : Stage → List Token → List Token → Parser → Prop
  window {stage braces kept p q} : holds stage braces kept q → p.current = q.current → p.peek = q.peek →
    p.source = q.source → p.diagnostics = q.diagnostics → holds stage braces kept p
  use {braces kept p} : holds .fresh braces kept p → holds .taken braces kept p
  fail {braces kept p} : holds .taken braces kept p → holds .failed braces kept p
  forget {braces kept more p} : holds .failed braces (kept ++ more) p → holds .failed braces kept p
  advance {braces kept p} : holds .failed braces kept p → holds .fresh braces kept p.advance
  keep {braces kept p} : holds .fresh braces kept p → p.current.kind ≠ .eof →
    holds .taken braces (kept ++ [p.current]) p
  reportCurrent {braces kept p} (fault : Fault) : fault.unclosed = false → fault.Regards p.current →
    holds .taken braces kept p → holds .taken braces kept (p.report ⟨fault, p.current.span.start⟩)
  reportPeek {braces kept p} (fault : Fault) : fault.unclosed = false → fault.Regards p.peek →
    holds .failed braces kept p → holds .failed braces kept (p.report ⟨fault, p.peek.span.start⟩)
  enter {braces kept p} : holds .fresh braces kept p → p.current.kind = .openCurly →
    holds .fresh (p.current :: braces) (kept ++ [p.current]) p.advance
  leave {brace braces kept p} : holds .fresh (brace :: braces) kept p → p.current.kind ≠ .eof →
    holds .taken braces kept p
  leaveUnclosed {brace braces kept p} : holds .fresh (brace :: braces) kept p → p.current.kind = .eof →
    holds .taken braces kept (p.report ⟨.unterminatedBlock brace.value, brace.span.start⟩)

namespace Ledger

variable {α : Type} {L : Ledger} {stage : Stage} {braces kept more : List Token} {p : Parser}

/-- On a token of this kind, which nothing has been made of. -/
def On (L : Ledger) (kind : Kind) (braces kept : List Token) (p : Parser) : Prop :=
  L.holds .fresh braces kept p ∧ p.current.kind = kind

/-- On a token that may be kept. -/
def Begun (L : Ledger) (braces kept : List Token) (p : Parser) : Prop :=
  L.holds .fresh braces kept p ∧ p.current.kind ≠ .eof

/-- From where `I` holds the step gets to where `J` holds with the tokens of its value entered. If it fails, no tokens
are. -/
def Keeps (L : Ledger) (I J : List Token → List Token → Parser → Prop) (x : Parse α) (tokens : α → List Token) :
    Prop :=
  ∀ braces kept, Triple (I braces kept) x (fun a => J braces (kept ++ tokens a)) (L.holds .failed braces kept)

theorem of_fresh (h : L.holds .fresh braces kept p) : L.holds stage braces kept p := by
  cases stage with
  | fresh => exact h
  | taken => exact L.use h
  | failed => exact L.fail (L.use h)

theorem failed (h : L.holds stage braces kept p) : L.holds .failed braces kept p := by
  cases stage with
  | fresh => exact of_fresh h
  | taken => exact L.fail h
  | failed => exact h

/-- Each token that is skipped is fresh for a moment. -/
theorem unwind (h : L.holds stage braces kept p) (depth : Nat) : L.holds stage braces kept (p.unwind depth) :=
  unwind_of_advance (fun _ h => of_fresh (L.advance (failed h)))
    (fun _ _ hcurrent hpeek hsource hdiagnostics h => L.window h hcurrent hpeek hsource hdiagnostics) depth h

theorem gaveUp (h : L.holds .taken braces kept p) (ho : p.overflowed = false) :
    L.holds .taken braces kept p.gaveUp := by
  -- But for the level and the mark, giving up is a report of the current token.
  have hreport := L.reportCurrent (.nestingTooDeep p.limit) rfl trivial h
  have hcalm : ∀ d, p.report d = { p with diagnostics := p.diagnostics.push d } := fun _ => if_neg (by simp [ho])
  rw [hcalm] at hreport
  exact L.window hreport rfl rfl rfl rfl

/-! Primitive steps -/

variable {I K : Parser → Prop} {J : α → Parser → Prop}

/-- A step that begins with more tokens entered gives those up too when it fails. -/
theorem forgetting {x : Parse α} (h : Triple I x J (L.holds .failed braces (kept ++ more))) :
    Triple I x J (L.holds .failed braces kept) :=
  h.failing fun _ hp => L.forget hp

theorem Keeps.onto {I J : List Token → List Token → Parser → Prop} {x : Parse α} {tokens : α → List Token}
    (h : L.Keeps I J x tokens) (more : List Token) : Triple (I braces (kept ++ more)) x
      (fun a => J braces (kept ++ (more ++ tokens a))) (L.holds .failed braces kept) := by
  refine forgetting ((h braces (kept ++ more)).post fun a p hp => ?_)
  rwa [List.append_assoc] at hp

theorem advance_triple : Triple (L.holds stage braces kept) Parse.advance (fun _ => L.holds .fresh braces kept) K :=
  Triple.modify fun _ h => L.advance (failed h)

theorem advance_on {kind : Kind} :
    Triple (L.On kind braces kept) Parse.advance (fun _ => L.holds .fresh braces kept) K :=
  advance_triple.pre fun _ h => h.1

theorem expect (kind : Kind) : Triple (L.holds stage braces kept) (Parse.expect kind) (fun _ => L.On kind braces kept)
    (L.holds .failed braces kept) :=
  Triple.expect (fun _ h hkind => ⟨L.advance (failed h), hkind⟩) fun _ h => L.reportPeek _ rfl ⟨rfl, rfl⟩ (failed h)

theorem ofOption (o : Option α) : Triple (L.holds stage braces kept) (Parse.ofOption o)
    (fun a p => L.holds stage braces kept p ∧ o = some a) (L.holds .failed braces kept) :=
  Triple.ofOption (fun _ ha _ h => ⟨h, ha⟩) fun _ _ h => failed h

theorem begun_of_form {β : Type} {form : Kind → Option β} {b : β} {t : Token} (hform : form t.kind = some b)
    (heof : form .eof = none) (p : Parser) (h : L.holds .fresh braces kept p ∧ p.current = t) :
    L.Begun braces kept p := by
  obtain ⟨hfresh, rfl⟩ := h
  exact ⟨hfresh, Kind.ne_eof_of_form hform heof⟩

/-- Reading the current token enters it. -/
theorem keep_bind {f : Token → Parse α} (hf : ∀ t, Triple (L.holds .taken braces (kept ++ [t])) (f t) J K) :
    Triple (L.Begun braces kept) (Parse.current >>= f) J K := by
  refine Triple.current_bind fun t => (hf t).pre fun p h => ?_
  obtain ⟨⟨hfresh, hkind⟩, rfl⟩ := h
  exact L.keep hfresh hkind

theorem ident : L.Keeps (L.holds stage) (L.holds .taken) Parse.ident fun id => [id.token] := by
  refine fun braces kept => (expect .identifier).bind fun _ => Triple.current_bind fun t => Triple.pure fun p h => ?_
  obtain ⟨⟨hfresh, hkind⟩, rfl⟩ := h
  exact L.keep hfresh (by rw [hkind]; decide)

theorem skipSemicolon : Triple (L.holds .failed braces kept) Parse.skipSemicolon
    (fun _ => L.holds .failed braces kept) K := by
  refine Triple.peekIs_bind fun more => ?_
  cases more with
  | false => exact Triple.pure fun _ h => h
  | true => exact Triple.modify fun _ h => failed (L.advance h)

/-- What is said of the current token is said where it has been taken. -/
theorem report_current {fault : Fault} {t : Token} (hfault : fault.unclosed = false) (hregards : fault.Regards t) :
    Triple (fun p => L.holds .fresh braces kept p ∧ p.current = t)
      (Parse.report ⟨fault, t.span.start⟩ >>= fun _ => Parse.fail) J (L.holds .failed braces kept) := by
  have hreport : ∀ p, L.holds .fresh braces kept p ∧ p.current = t →
      L.holds .taken braces kept (p.report ⟨fault, t.span.start⟩) := by
    rintro p ⟨hfresh, rfl⟩
    exact L.reportCurrent _ hfault hregards (L.use hfresh)
  exact (Triple.modify hreport).bind fun _ => Triple.fail fun _ h => L.fail h

theorem noOperand {J : Expr → Parser → Prop} (t : Token) :
    Triple (fun p => L.holds .fresh braces kept p ∧ p.current = t) (Parse.noOperand t) J
      (L.holds .failed braces kept) :=
  report_current rfl ⟨rfl, rfl⟩

/-! Operands -/

theorem int (t : Token) (ht : t.kind = .number) : Triple (fun p => L.holds .fresh braces kept p ∧ p.current = t)
    (Parse.int t) (fun e => L.holds .taken braces (kept ++ e.tokens)) (L.holds .failed braces kept) := by
  unfold Parse.int
  split
  · refine Triple.pure fun p h => ?_
    obtain ⟨hfresh, rfl⟩ := h
    exact L.keep hfresh (by rw [ht]; decide)
  · exact report_current rfl ⟨ht, rfl⟩

theorem atom : L.Keeps L.Begun (L.holds .taken) Parse.atom Expr.tokens := by
  refine fun braces kept => Triple.current_bind fun t => ?_
  have hkeep : ∀ p, L.Begun braces kept p ∧ p.current = t → L.holds .taken braces (kept ++ [t]) p := by
    rintro p ⟨⟨hfresh, hkind⟩, rfl⟩
    exact L.keep hfresh hkind
  split
  · rename_i hkind
    exact (int t hkind).pre fun _ h => ⟨h.1.1, h.2⟩
  · exact Triple.pure hkeep
  · exact Triple.pure hkeep
  · exact Triple.pure hkeep
  · exact Triple.pure hkeep
  · exact (noOperand t).pre fun _ h => ⟨h.1.1, h.2⟩

theorem parameters : L.Keeps (L.holds stage) (L.holds .fresh) Parse.parameters (List.map Ident.token) := by
  refine fun braces kept => Triple.peekIs_bind fun close => ?_
  cases close with
  | true =>
    refine advance_triple.bind fun _ => Triple.pure fun p h => ?_
    rwa [List.map_nil, List.append_nil]
  | false =>
    have hstep : ∀ found : Array Ident, Triple (L.holds .taken braces (kept ++ found.toList.map Ident.token))
        (Parse.advance >>= fun _ => Parse.ident >>= fun id => Pure.pure (found.push id))
        (fun found => L.holds .taken braces (kept ++ found.toList.map Ident.token)) (L.holds .failed braces kept) := by
      refine fun found => advance_triple.bind fun _ => (ident.onto _).bind fun id => Triple.pure fun p h => ?_
      rwa [Array.toList_push, List.map_append]
    exact (ident braces kept).bind fun first => (Triple.repeatWhile hstep #[first]).bind fun found =>
      (forgetting (expect _)).bind fun _ => Triple.pure fun _ h => h.1

section Expressions

variable {sub : SubExpr} (hsub : ∀ power, L.Keeps (L.holds .fresh) (L.holds .taken) (sub power) Expr.tokens)

include hsub

/-- An expression that may fail. -/
theorem value : L.Keeps (L.holds .fresh) (L.holds .failed) (Parse.attempt (sub .lowest)) valueTokens := by
  refine fun braces kept => Triple.attempt (((hsub .lowest braces kept).post fun _ _ h => L.fail h).failing ?_)
  intro p h
  rwa [valueTokens, List.append_nil]

theorem unary : L.Keeps L.Begun (L.holds .taken) (Parse.unary sub) Expr.tokens :=
  fun _ _ => keep_bind fun _ => advance_triple.bind fun _ => ((hsub .unary).onto _).bind fun _ =>
    Triple.pure fun _ h => h

theorem group : L.Keeps L.Begun (L.holds .taken) (Parse.group sub) Expr.tokens := by
  refine fun braces kept => (advance_triple.pre fun _ h => h.1).bind fun _ => (value hsub braces kept).bind fun value =>
    (forgetting (expect _)).bind fun _ => ?_
  refine ((forgetting (ofOption value)).pre fun _ h => h.1).post fun e p h => ?_
  obtain ⟨hfresh, rfl⟩ := h
  exact L.use hfresh

theorem items (close : Kind) : L.Keeps (L.holds stage) (L.holds .fresh) (Parse.items sub close) exprsTokens := by
  refine fun braces kept => Triple.peekIs_bind fun empty => ?_
  cases empty with
  | true =>
    refine advance_triple.bind fun _ => Triple.pure fun p h => ?_
    rwa [exprsTokens, List.append_nil]
  | false =>
    have hstep : ∀ found : Array (Option Expr),
        Triple (L.holds .failed braces (kept ++ found.toList.flatMap valueTokens))
          (Parse.advance >>= fun _ => Parse.advance >>= fun _ => Parse.attempt (sub .lowest) >>= fun e =>
            Pure.pure (found.push e))
          (fun found => L.holds .failed braces (kept ++ found.toList.flatMap valueTokens))
          (L.holds .failed braces kept) := by
      refine fun found => advance_triple.bind fun _ => advance_triple.bind fun _ =>
        ((value hsub).onto _).bind fun e => Triple.pure fun p h => ?_
      rwa [Array.toList_push, List.flatMap_append, List.flatMap_singleton]
    refine advance_triple.bind fun _ => (value hsub braces kept).bind fun first => ?_
    refine ((Triple.repeatWhile hstep #[first]).pre fun p h => ?_).bind fun found =>
      (forgetting (expect _)).bind fun _ => ?_
    · rwa [List.flatMap_singleton]
    · refine ((forgetting (ofOption _)).pre fun _ h => h.1).post fun es p h => ?_
      obtain ⟨hfresh, hes⟩ := h
      rwa [eq_map_some_of_mapM_id hes, flatMap_valueTokens_map_some] at hfresh

theorem array : L.Keeps L.Begun (L.holds .taken) (Parse.array sub) Expr.tokens :=
  fun _ _ => keep_bind fun _ => ((items hsub _).onto _).bind fun _ => Triple.pure fun _ h => L.use h

theorem entry : L.Keeps (L.holds stage) (L.holds .failed) (Parse.entry sub) entryTokens := by
  intro braces kept
  refine advance_triple.bind fun _ => (value hsub braces kept).bind fun key => (forgetting (expect _)).bind fun _ => ?_
  refine advance_on.bind fun _ => ((value hsub).onto _).bind fun value => ?_
  have hentry : ∀ p, L.holds .failed braces (kept ++ (valueTokens key ++ valueTokens value)) p →
      L.holds .failed braces (kept ++ entryTokens (Entry.mk <$> key <*> value)) p := by
    intro p h
    cases key with
    | none => exact (List.append_nil kept).symm ▸ L.forget h
    | some k =>
      cases value with
      | none => exact (List.append_nil kept).symm ▸ L.forget h
      | some v => exact h
  refine Triple.peekIs_bind fun last => ?_
  cases last with
  | true => exact Triple.pure hentry
  | false => exact (forgetting (expect _)).bind fun _ => Triple.pure fun p h => hentry p (failed h.1)

theorem hash : L.Keeps L.Begun (L.holds .taken) (Parse.hash sub) Expr.tokens := by
  refine fun braces kept => keep_bind fun t => ?_
  have hstep : ∀ found : Array (Option Entry),
      Triple (L.holds .failed braces (kept ++ ([t] ++ found.toList.flatMap entryTokens)))
        (Parse.entry sub >>= fun entry => Pure.pure (found.push entry))
        (fun found => L.holds .failed braces (kept ++ ([t] ++ found.toList.flatMap entryTokens)))
        (L.holds .failed braces kept) := by
    refine fun found => ((entry hsub).onto _).bind fun entry => Triple.pure fun p h => ?_
    rwa [Array.toList_push, List.flatMap_append, List.flatMap_singleton, ← List.append_assoc [t]]
  refine ((Triple.repeatWhile hstep #[]).pre fun _ h => failed h).bind fun found =>
    (forgetting (expect _)).bind fun _ => ?_
  refine Triple.bind ((forgetting (ofOption _)).pre fun _ h => h.1) fun entries => ?_
  refine Triple.pure fun p h => ?_
  obtain ⟨hfresh, hentries⟩ := h
  rw [eq_map_some_of_mapM_id hentries, flatMap_entryTokens_map_some] at hfresh
  exact L.use hfresh

/-! Statements and blocks -/

theorem bindStmt : L.Keeps L.Begun (L.holds .failed) (Parse.bindStmt sub) Stmt.tokens := by
  refine fun braces kept => keep_bind fun t => (ident.onto _).bind fun name => (forgetting (expect _)).bind fun _ => ?_
  refine advance_on.bind fun _ => ((value hsub).onto _).bind fun value => ?_
  refine skipSemicolon.bind fun _ => Triple.pure fun p h => ?_
  rwa [Stmt.tokens, valueTokens_map_labelled]

theorem retStmt : L.Keeps L.Begun (L.holds .failed) (Parse.retStmt sub) Stmt.tokens :=
  fun _ _ => keep_bind fun _ => advance_triple.bind fun _ => ((value hsub).onto _).bind fun _ =>
    skipSemicolon.bind fun _ => Triple.pure fun _ h => h

/-- Its own token is the first one of its expression, which enters it itself. -/
theorem exprStmt : L.Keeps (L.holds .fresh) (L.holds .failed) (Parse.exprStmt sub) Stmt.tokens := by
  refine fun braces kept => Triple.current_bind fun t => ?_
  refine ((value hsub braces kept).pre fun _ h => h.1).bind fun value => skipSemicolon.bind fun _ => ?_
  refine (forgetting (ofOption value)).bind fun e => Triple.pure fun p h => ?_
  obtain ⟨hfailed, rfl⟩ := h
  exact hfailed

theorem stmt : L.Keeps (L.holds .fresh) (L.holds .failed) (Parse.stmt sub) Stmt.tokens := by
  refine fun braces kept => Triple.current_bind fun t => ?_
  split <;> rename_i hform
  · exact (bindStmt hsub braces kept).pre (begun_of_form hform rfl)
  · exact (retStmt hsub braces kept).pre (begun_of_form hform rfl)
  · exact (exprStmt hsub braces kept).pre fun _ h => h.1

/-- Statements that fail leave nothing behind, and the list of them goes on. -/
theorem stmtsUntil (stop : Kind → Bool) : Triple (L.holds .fresh braces kept) (Parse.stmtsUntil sub stop)
    (fun found => L.holds .fresh braces (kept ++ found.toList.flatMap Stmt.tokens)) K := by
  have hstep : ∀ found : Array Stmt, Triple (L.holds .fresh braces (kept ++ found.toList.flatMap Stmt.tokens))
      (collect sub found) (fun found => L.holds .fresh braces (kept ++ found.toList.flatMap Stmt.tokens)) K := by
    intro found
    have hstmt : Triple (L.holds .fresh braces (kept ++ found.toList.flatMap Stmt.tokens))
        (Parse.attempt (Parse.stmt sub))
        (fun o => L.holds .failed braces (kept ++ (found.toList ++ o.toList).flatMap Stmt.tokens)) K := by
      have hfound := stmt hsub braces (kept ++ found.toList.flatMap Stmt.tokens)
      refine Triple.attempt ((hfound.post fun s p h => ?_).failing fun p h => ?_)
      · rwa [Option.toList_some, List.flatMap_append, List.flatMap_singleton, ← List.append_assoc]
      · rwa [Option.toList_none, List.append_nil]
    refine hstmt.bind fun o => advance_triple.bind fun _ => Triple.pure fun p h => ?_
    cases o with
    | none => rwa [Option.toList_none, List.append_nil] at h
    | some s => rwa [Array.toList_push]
  exact (Triple.repeatWhile hstep #[]).pre fun p h => (List.append_nil kept).symm ▸ h

theorem block : L.Keeps (L.On .openCurly) (L.holds .taken) (Parse.block sub) Block.tokens := by
  refine fun braces kept => Triple.current_bind fun t => ?_
  have henter : ∀ p, L.On .openCurly braces kept p ∧ p.current = t →
      L.holds .fresh (t :: braces) (kept ++ [t]) p.advance := by
    rintro p ⟨⟨hfresh, hkind⟩, rfl⟩
    exact L.enter hfresh hkind
  have hbody : ∀ stop, Triple (L.holds .fresh (t :: braces) (kept ++ [t])) (Parse.stmtsUntil sub stop)
      (fun body => L.holds .fresh (t :: braces) (kept ++ (Block.mk t body.toList).tokens))
      (L.holds .failed braces kept) := by
    refine fun stop => (stmtsUntil hsub stop).post fun body p h => ?_
    rwa [Block.tokens, stmtsTokens_eq_flatMap, List.append_cons]
  refine (Triple.modify henter).bind fun _ => (hbody _).bind fun body => (Triple.view _).bind fun unclosed => ?_
  cases unclosed with
  | true =>
    have hleave : ∀ p, L.holds .fresh (t :: braces) (kept ++ (Block.mk t body.toList).tokens) p ∧
        (p.current.kind == .eof) = true → L.holds .taken braces (kept ++ (Block.mk t body.toList).tokens)
          (p.report ⟨.unterminatedBlock t.value, t.span.start⟩) :=
      fun p h => L.leaveUnclosed h.1 (eq_of_beq h.2)
    exact (Triple.modify hleave).bind fun _ => Triple.pure fun _ h => h
  | false => exact Triple.pure fun p h => L.leave h.1 (ne_of_beq_false h.2)

theorem alternative : L.Keeps (L.holds .taken) (L.holds .taken) (Parse.alternative sub) elseTokens := by
  refine fun braces kept => Triple.peekIs_bind fun more => ?_
  cases more with
  | true =>
    exact advance_triple.bind fun _ => (expect _).bind fun _ => (block hsub braces kept).bind fun _ =>
      Triple.pure fun _ h => h
  | false => exact Triple.pure fun p h => (List.append_nil kept).symm ▸ h

theorem cond : L.Keeps L.Begun (L.holds .taken) (Parse.cond sub) Expr.tokens := by
  refine fun braces kept => keep_bind fun t => (forgetting (expect _)).bind fun _ => ?_
  refine advance_on.bind fun _ => ((value hsub).onto _).bind fun condition => (forgetting (expect _)).bind fun _ => ?_
  refine Triple.bind ((forgetting (expect _)).pre fun _ h => h.1) fun _ =>
    ((block hsub).onto _).bind fun consequence => ((alternative hsub).onto _).bind fun alternative => ?_
  refine (forgetting (ofOption condition)).bind fun e => Triple.pure fun p h => ?_
  obtain ⟨htaken, rfl⟩ := h
  rwa [List.append_assoc [t], List.append_assoc [t]] at htaken

theorem fn : L.Keeps L.Begun (L.holds .taken) (Parse.fn sub) Expr.tokens := by
  refine fun braces kept => keep_bind fun t => (forgetting (expect _)).bind fun _ => ?_
  refine Triple.bind ((parameters.onto _).pre fun _ h => h.1) fun ids => (forgetting (expect _)).bind fun _ => ?_
  refine ((block hsub).onto _).bind fun body => Triple.pure fun p h => ?_
  rwa [List.append_assoc [t]] at h

theorem operand : L.Keeps (L.holds .fresh) (L.holds .taken) (Parse.operand sub) Expr.tokens := by
  refine fun braces kept => Triple.current_bind fun t => ?_
  split <;> rename_i hform
  · exact (atom braces kept).pre (begun_of_form hform rfl)
  · exact (unary hsub braces kept).pre (begun_of_form hform rfl)
  · exact (group hsub braces kept).pre (begun_of_form hform rfl)
  · exact (cond hsub braces kept).pre (begun_of_form hform rfl)
  · exact (fn hsub braces kept).pre (begun_of_form hform rfl)
  · exact (array hsub braces kept).pre (begun_of_form hform rfl)
  · exact (hash hsub braces kept).pre (begun_of_form hform rfl)
  · exact noOperand t

/-! Operators -/

theorem binary (left : Expr) (power : BindingPower) :
    Triple (L.Begun braces (kept ++ left.tokens)) (Parse.binary sub left power)
      (fun e => L.holds .taken braces (kept ++ e.tokens)) (L.holds .failed braces kept) := by
  refine keep_bind fun t => advance_triple.bind fun _ => ?_
  rw [List.append_assoc]
  refine ((hsub power).onto _).bind fun right => Triple.pure fun p h => ?_
  rwa [List.append_assoc left.tokens] at h

theorem call (callee : Expr) : Triple (L.Begun braces (kept ++ callee.tokens)) (Parse.call sub callee)
    (fun e => L.holds .taken braces (kept ++ e.tokens)) (L.holds .failed braces kept) := by
  refine keep_bind fun t => ?_
  rw [List.append_assoc]
  refine ((items hsub _).onto _).bind fun arguments => Triple.pure fun p h => ?_
  rw [List.append_assoc callee.tokens] at h
  exact L.use h

theorem index (collection : Expr) : Triple (L.Begun braces (kept ++ collection.tokens)) (Parse.index sub collection)
    (fun e => L.holds .taken braces (kept ++ e.tokens)) (L.holds .failed braces kept) := by
  refine keep_bind fun t => advance_triple.bind fun _ => ?_
  rw [List.append_assoc]
  refine ((value hsub).onto _).bind fun value => (forgetting (expect _)).bind fun _ => ?_
  refine Triple.bind ((forgetting (ofOption value)).pre fun _ h => h.1) fun e => Triple.pure fun p h => ?_
  obtain ⟨hfresh, rfl⟩ := h
  rw [List.append_assoc collection.tokens] at hfresh
  exact L.use hfresh

/-- A fold begins behind the last token of what is to the left. -/
theorem fold (left : Expr) : Triple (L.holds .taken braces (kept ++ left.tokens)) (Parse.fold sub left)
    (fun e => L.holds .taken braces (kept ++ e.tokens)) (L.holds .failed braces kept) := by
  have hdescend : Triple (L.holds .taken braces (kept ++ left.tokens)) Parse.descend
      (fun _ => L.holds .taken braces (kept ++ left.tokens)) (L.holds .failed braces kept) :=
    Triple.descend (fun _ h => L.window h rfl rfl rfl rfl) (fun _ h => L.forget (L.fail h))
      fun _ h ho => L.forget (L.fail (gaveUp h ho))
  refine hdescend.bind fun _ => advance_triple.bind fun _ => Triple.current_bind fun t => ?_
  unfold foldAt
  split <;> rename_i hform
  · exact (binary hsub left _).pre (begun_of_form hform rfl)
  · exact (call hsub left).pre (begun_of_form hform rfl)
  · exact (index hsub left).pre (begun_of_form hform rfl)
  · exact Triple.pure fun _ h => L.use h.1

theorem exprStep (power : BindingPower) :
    L.Keeps (L.holds .fresh) (L.holds .taken) (Parse.exprStep sub power) Expr.tokens := by
  intro braces kept
  have hdescend : Triple (L.holds .fresh braces kept) Parse.descend (fun _ => L.holds .fresh braces kept)
      (L.holds .failed braces kept) :=
    Triple.descend (fun _ h => L.window h rfl rfl rfl rfl) (fun _ h => failed h) fun _ h ho =>
      L.fail (gaveUp (L.use h) ho)
  refine Triple.nested (hdescend.bind fun _ => (operand hsub braces kept).bind fun left => ?_)
    (fun _ depth _ h => unwind h depth) fun depth _ h => unwind h depth
  exact Triple.repeatWhile (fold hsub) left

end Expressions

theorem exprWithin (n : Nat) (power : BindingPower) :
    L.Keeps (L.holds .fresh) (L.holds .taken) (Parse.exprWithin (fun _ => Parse.fail) n power) Expr.tokens := by
  induction n generalizing power with
  | zero => exact fun _ _ => Triple.fail fun _ h => failed h
  | succ n ih => exact exprStep ih power

theorem expr (power : BindingPower) : L.Keeps (L.holds .fresh) (L.holds .taken) (Parse.expr power) Expr.tokens :=
  fun braces kept p => exprWithin (p.limit + 1) power braces kept p

/-- What the ledger says of a parser with no entries it says of the parser behind the program, with the tokens of the
program entered. -/
theorem program (h : L.holds .fresh [] [] p) : L.holds .fresh [] p.program.1.tokens p.program.2 := by
  have hstmts : Triple (L.holds .fresh [] []) Parse.program (fun program => L.holds .fresh [] program.tokens)
      fun _ => True := by
    refine (stmtsUntil expr _).bind fun statements => Triple.pure fun q hq => ?_
    rwa [Program.tokens, stmtsTokens_eq_flatMap]
  have hprogram := program_eq p
  have hsome := (hstmts p h).1
  rw [hprogram] at hsome
  unfold Parser.program
  rw [hprogram]
  exact hsome _ rfl

end Ledger

end Parse

end FrontEnd
