import FrontEnd.Proofs.Parser.Text
import FrontEnd.Proofs.Parser.Traversal
import FrontEnd.Proofs.Parser.Triple

/-!
How many reports a text gives rise to. Each of them is laid on a token that the parser has come to, or on the end, and
none of these bears two. A routine comes to its own token without a report on it. It lays at most that one report on it
when it fails, and otherwise leaves as many tokens unburdened as it has found.
-/

namespace FrontEnd

namespace Parser

/-- With the reports and the tokens still to be passed, there are `k` more within `n`: so many have been passed that
bear no report. -/
def Spare (n k : Nat) (p : Parser) : Prop :=
  ∃ stop ts, p.Reads stop ts ∧ p.diagnostics.size + ts.length + k ≤ n

/-- The parser is not at the end, so it passes one token more when it moves on. -/
def Live (n k : Nat) (p : Parser) : Prop :=
  p.Spare n k ∧ p.current.kind ≠ .eof

variable {n j k : Nat} {p q : Parser}

theorem Spare.mono (h : p.Spare n j) (hle : k ≤ j) : p.Spare n k := by
  obtain ⟨stop, ts, hreads, hsize⟩ := h
  exact ⟨stop, ts, hreads, by omega⟩

theorem Spare.of_window (h : q.Spare n k) (hcurrent : p.current = q.current) (hpeek : p.peek = q.peek)
    (hsource : p.source = q.source) (hdiagnostics : p.diagnostics = q.diagnostics) : p.Spare n k := by
  obtain ⟨stop, ts, hreads, hsize⟩ := h
  refine ⟨stop, ts, ⟨hcurrent.trans hreads.current_eq, hpeek.trans hreads.peek_eq, hsource.trans hreads.source_eq,
    hreads.free⟩, ?_⟩
  rwa [hdiagnostics]

theorem Spare.report (h : p.Spare n (k + 1)) (d : Diagnostic) : (p.report d).Spare n k := by
  obtain ⟨stop, ts, hreads, hsize⟩ := h
  unfold Parser.report
  split
  · exact ⟨stop, ts, hreads, by omega⟩
  · refine ⟨stop, ts, ⟨hreads.current_eq, hreads.peek_eq, hreads.source_eq, hreads.free⟩, ?_⟩
    rw [Array.size_push]
    omega

theorem Spare.gaveUp (h : p.Spare n (k + 1)) : p.gaveUp.Spare n k := by
  obtain ⟨stop, ts, hreads, hsize⟩ := h
  refine ⟨stop, ts, ⟨hreads.current_eq, hreads.peek_eq, hreads.source_eq, hreads.free⟩, ?_⟩
  show (p.diagnostics.push _).size + ts.length + k ≤ n
  rw [Array.size_push]
  omega

theorem Spare.advance (h : p.Spare n k) : p.advance.Spare n k := by
  obtain ⟨stop, ts, hreads, hsize⟩ := h
  refine ⟨stop, ts.tail, hreads.advance, ?_⟩
  show p.diagnostics.size + ts.tail.length + k ≤ n
  rw [List.length_tail]
  omega

theorem Live.advance (h : p.Live n k) : p.advance.Spare n (k + 1) := by
  obtain ⟨⟨stop, ts, hreads, hsize⟩, hkind⟩ := h
  cases ts with
  | nil => exact absurd hreads.current_kind hkind
  | cons t ts =>
    refine ⟨stop, ts, hreads.advance, ?_⟩
    show p.diagnostics.size + ts.length + (k + 1) ≤ n
    rw [List.length_cons] at hsize
    omega

theorem Spare.unwind (h : p.Spare n k) (depth : Nat) : (p.unwind depth).Spare n k :=
  Parse.unwind_of_advance (fun _ h => h.advance)
    (fun _ _ hcurrent hpeek hsource hdiagnostics h => h.of_window hcurrent hpeek hsource hdiagnostics) depth h

/-- What comes next comes behind a token. -/
theorem Spare.live (h : p.Spare n k) (hpeek : p.peek.kind ≠ .eof) : p.Live n k := by
  refine ⟨h, fun hkind => hpeek ?_⟩
  obtain ⟨stop, ts, hreads, -⟩ := h
  cases ts with
  | nil => exact hreads.peek_kind
  | cons t ts => exact absurd (hreads.current_kind.symm.trans hkind) (hreads.free t List.mem_cons_self)

theorem Spare.advance_onto (h : p.Spare n k) (hpeek : p.peek.kind ≠ .eof) : p.advance.Live n (k + 1) :=
  ⟨(h.live hpeek).advance, hpeek⟩

end Parser

namespace Parse

open FrontEnd.Parser

variable {α : Type} {n j k : Nat} {K : Parser → Prop}

/-- The step leaves as many tokens spare as it has found, or fails and has used one of them up. -/
def Thrifty (n : Nat) (I : Nat → Parser → Prop) (x : Parse α) : Prop :=
  ∀ k, Triple (I (k + 1)) x (fun _ => Spare n (k + 1)) (Spare n k)

theorem Triple.of_live {x : Parse α} {J : α → Parser → Prop} (h : Triple (Spare n k) x J K) :
    Triple (Live n k) x J K :=
  h.pre fun _ hlive => hlive.1

/-! Primitive steps -/

theorem advance_live : Triple (Live n k) advance (fun _ => Spare n (k + 1)) K :=
  Triple.modify fun _ h => h.advance

theorem expect_spare {kind : Kind} (hkind : kind ≠ .eof) (hlt : k < j) :
    Triple (Spare n j) (expect kind) (fun _ => Live n (j + 1)) (Spare n k) :=
  Triple.expect (fun _ h hpeek => h.advance_onto (hpeek ▸ hkind)) fun _ h => (h.mono hlt).report _

theorem ident_spare (hlt : k < j) : Triple (Spare n j) ident (fun _ => Live n (j + 1)) (Spare n k) :=
  (expect_spare (by decide) hlt).bind fun _ => Triple.current_bind_any fun _ => Triple.pure fun _ h => h

theorem ofOption_spare (o : Option α) (hle : k ≤ j) :
    Triple (Spare n j) (ofOption o) (fun _ => Spare n j) (Spare n k) :=
  Triple.ofOption (fun _ _ _ h => h) fun _ _ h => h.mono hle

theorem skipSemicolon_spare : Triple (Spare n k) skipSemicolon (fun _ => Spare n k) K := by
  refine Triple.peekIs_bind fun more => ?_
  cases more with
  | false => exact Triple.pure fun _ h => h
  | true => exact Triple.modify fun _ h => h.advance

theorem report_spare (d : Diagnostic) {J : α → Parser → Prop} :
    Triple (Spare n (k + 1)) (report d >>= fun _ => fail) J (Spare n k) :=
  (Triple.modify fun _ h => h.report d).bind fun _ => Triple.fail fun _ h => h

theorem descend_spare : Triple (Spare n (k + 1)) descend (fun _ => Spare n (k + 1)) (Spare n k) :=
  Triple.descend (fun _ h => h.of_window rfl rfl rfl rfl) (fun _ h => h.mono (Nat.le_succ k)) fun _ h _ => h.gaveUp

theorem live_of_form {β : Type} {form : Kind → Option β} {b : β} {t : Token} (hform : form t.kind = some b)
    (heof : form .eof = none) (p : Parser) (h : p.Spare n k ∧ p.current = t) : p.Live n k := by
  obtain ⟨hspare, rfl⟩ := h
  exact ⟨hspare, Kind.ne_eof_of_form hform heof⟩

namespace Thrifty

/-! Operands -/

theorem atom : Thrifty n (Spare n) Parse.atom := by
  refine fun k => Triple.current_bind_any fun t => ?_
  split
  · unfold int
    split
    · exact Triple.pure fun _ h => h
    · exact report_spare _
  · exact Triple.pure fun _ h => h
  · exact Triple.pure fun _ h => h
  · exact Triple.pure fun _ h => h
  · exact Triple.pure fun _ h => h
  · exact report_spare _

theorem parameters (hlt : k < j) : Triple (Spare n j) Parse.parameters (fun _ => Spare n j) (Spare n k) := by
  refine Triple.peekIs_bind fun close => ?_
  cases close with
  | true => exact (Triple.modify fun _ h => h.advance).bind fun _ => Triple.pure fun _ h => h
  | false =>
    have hstep : ∀ found : Array Ident, Triple (Spare n j)
        (advance >>= fun _ => Parse.ident >>= fun id => Pure.pure (found.push id)) (fun _ => Spare n j) (Spare n k) :=
      fun found => (Triple.modify fun _ h => h.advance).bind fun _ => (ident_spare hlt).bind fun _ =>
        Triple.pure fun _ h => h.1.mono (Nat.le_succ j)
    refine (ident_spare hlt).bind fun first => ?_
    refine ((Triple.repeatWhile hstep #[first]).pre fun _ h => h.1.mono (Nat.le_succ j)).bind fun found => ?_
    exact (expect_spare (by decide) hlt).bind fun _ => Triple.pure fun _ h => h.1.mono (Nat.le_succ j)

section Expressions

variable {sub : SubExpr} (hsub : ∀ power, Thrifty n (Spare n) (sub power))

include hsub

theorem value : Triple (Spare n (k + 1)) (Parse.attempt (sub .lowest)) (fun _ => Spare n k) K :=
  Triple.attempt ((hsub .lowest k).post fun _ _ h => h.mono (Nat.le_succ k))

theorem unary : Thrifty n (Live n) (Parse.unary sub) := by
  refine fun k => Triple.current_bind_any fun t => advance_live.bind fun _ => ?_
  refine ((hsub .unary (k + 1)).failing fun _ h => h.mono (Nat.le_succ k)).bind fun r => ?_
  exact Triple.pure fun _ h => h.mono (Nat.le_succ (k + 1))

theorem group : Thrifty n (Live n) (Parse.group sub) := by
  refine fun k => advance_live.bind fun _ => (value hsub).bind fun value => ?_
  refine (expect_spare (by decide) (Nat.lt_succ_self k)).bind fun _ => ?_
  exact (ofOption_spare value (by omega)).of_live.post fun _ _ h => h.mono (Nat.le_succ (k + 1))

theorem items {close : Kind} (hclose : close ≠ .eof) : Thrifty n (Live n) (Parse.items sub close) := by
  refine fun k => Triple.peekIs_bind fun empty => ?_
  cases empty with
  | true => exact advance_live.bind fun _ => Triple.pure fun _ h => h.mono (Nat.le_succ (k + 1))
  | false =>
    -- A round passes two tokens, the comma among them, and its expression uses up one at most.
    have hstep : ∀ found : Array (Option Expr),
        Triple (fun p => p.Spare n (k + 1) ∧ (p.peek.kind == .comma) = true)
          (advance >>= fun _ => advance >>= fun _ => Parse.attempt (sub .lowest) >>= fun e => Pure.pure (found.push e))
          (fun _ => Spare n (k + 1)) (Spare n k) := by
      intro found
      have honto : Triple (fun p => p.Spare n (k + 1) ∧ (p.peek.kind == .comma) = true) advance
          (fun _ => Live n (k + 2)) (Spare n k) := by
        refine Triple.modify fun p h => h.1.advance_onto ?_
        rw [eq_of_beq h.2]
        decide
      refine honto.bind fun _ => advance_live.bind fun _ => (value hsub).bind fun e => ?_
      exact Triple.pure fun _ h => h.mono (Nat.le_succ (k + 1))
    refine advance_live.bind fun _ => (value hsub).bind fun first => ?_
    refine (Triple.repeatWhile_of_more hstep #[first]).bind fun found => ?_
    refine (expect_spare hclose (Nat.lt_succ_self k)).bind fun _ => ?_
    exact (ofOption_spare _ (by omega)).of_live.post fun _ _ h => h.mono (Nat.le_succ (k + 1))

theorem array : Thrifty n (Live n) (Parse.array sub) :=
  fun k => Triple.current_bind_any fun _ => (items hsub (by decide) k).bind fun _ => Triple.pure fun _ h => h

/-- Behind an entry there is a closing brace, or its comma, so it does not end at the end. -/
theorem entry : Triple (Live n (k + 1)) (Parse.entry sub) (fun _ => Live n (k + 1)) (Spare n k) := by
  refine advance_live.bind fun _ => (value hsub).bind fun key => ?_
  refine (expect_spare (by decide) (Nat.lt_succ_self k)).bind fun _ => advance_live.bind fun _ => ?_
  refine (value hsub).bind fun value => (Triple.view _).bind fun last => ?_
  cases last with
  | true =>
    refine Triple.pure fun p h => (h.1.mono (Nat.le_succ (k + 1))).live ?_
    rw [eq_of_beq h.2]
    decide
  | false =>
    refine ((expect_spare (by decide) (j := k + 2) (by omega)).pre fun _ h => h.1).bind fun _ => ?_
    exact Triple.pure fun _ h => ⟨h.1.mono (by omega), h.2⟩

theorem hash : Thrifty n (Live n) (Parse.hash sub) := by
  refine fun k => Triple.current_bind_any fun t => ?_
  have hstep : ∀ found : Array (Option Entry), Triple (Live n (k + 1))
      (Parse.entry sub >>= fun entry => Pure.pure (found.push entry)) (fun _ => Live n (k + 1)) (Spare n k) :=
    fun found => (entry hsub).bind fun _ => Triple.pure fun _ h => h
  refine (Triple.repeatWhile hstep #[]).bind fun found => ?_
  refine (expect_spare (by decide) (Nat.lt_succ_self k)).of_live.bind fun _ => ?_
  refine (ofOption_spare _ (by omega)).of_live.bind fun entries => ?_
  exact Triple.pure fun _ h => h.mono (Nat.le_succ (k + 1))

/-! Statements and blocks -/

theorem bindStmt : Thrifty n (Spare n) (Parse.bindStmt sub) := by
  refine fun k => Triple.current_bind_any fun t => (ident_spare (Nat.lt_succ_self k)).bind fun name => ?_
  refine (expect_spare (by decide) (by omega)).of_live.bind fun _ => ?_
  refine advance_live.bind fun _ => (value hsub).bind fun value => skipSemicolon_spare.bind fun _ => ?_
  exact Triple.pure fun _ h => h.mono (by omega)

theorem retStmt : Thrifty n (Live n) (Parse.retStmt sub) :=
  fun _ => Triple.current_bind_any fun _ => advance_live.bind fun _ => (value hsub).bind fun _ =>
    skipSemicolon_spare.bind fun _ => Triple.pure fun _ h => h

theorem exprStmt : Thrifty n (Spare n) (Parse.exprStmt sub) := by
  refine fun k => Triple.current_bind_any fun t => ?_
  -- A value that is missing has been reported, and the statement fails with it.
  have hvalue : Triple (Spare n (k + 1)) (Parse.attempt (sub .lowest))
      (fun value p => p.Spare n k ∧ (value.isSome → p.Spare n (k + 1))) (Spare n k) :=
    Triple.attempt (((hsub .lowest k).post fun _ _ h => ⟨h.mono (Nat.le_succ k), fun _ => h⟩).failing
      fun _ h => ⟨h, fun hsome => nomatch hsome⟩)
  refine hvalue.bind fun value => ?_
  cases value with
  | none =>
    refine (skipSemicolon_spare.pre fun _ h => h.1).bind fun _ => ?_
    exact Triple.bind (M := fun _ _ => False) (Triple.fail fun _ h => h) fun _ _ h => h.elim
  | some e =>
    refine (skipSemicolon_spare.pre fun _ h => h.2 rfl).bind fun _ => ?_
    exact (ofOption_spare (some e) (Nat.le_succ k)).bind fun _ => Triple.pure fun _ h => h

theorem stmt : Thrifty n (Spare n) (Parse.stmt sub) := by
  refine fun k => Triple.current_bind fun t => ?_
  split <;> rename_i hform
  · exact (bindStmt hsub k).pre fun _ h => h.1
  · exact (retStmt hsub k).pre (live_of_form hform rfl)
  · exact (exprStmt hsub k).pre fun _ h => h.1

/-- A statement that fails has used up its first token at most, and the list of statements passes one with each of
them, unless it has come to the end. -/
theorem stmtsUntil {stop : Kind → Bool} (hstop : stop .eof = true) : Triple (Spare n (k + 1))
    (Parse.stmtsUntil sub stop)
    (fun _ p => p.Spare n k ∧ (p.current.kind ≠ .eof → p.Spare n (k + 1))) K := by
  have hstep : ∀ found : Array Stmt,
      Triple (fun p => (p.Spare n k ∧ (p.current.kind ≠ .eof → p.Spare n (k + 1))) ∧ (!stop p.current.kind) = true)
        (collect sub found) (fun _ p => p.Spare n k ∧ (p.current.kind ≠ .eof → p.Spare n (k + 1))) K := by
    intro found
    have hbegun : ∀ p : Parser, (p.Spare n k ∧ (p.current.kind ≠ .eof → p.Spare n (k + 1))) ∧
        (!stop p.current.kind) = true → p.Spare n (k + 1) := by
      rintro p ⟨⟨-, hspare⟩, hmore⟩
      refine hspare fun heof => ?_
      rw [heof, hstop] at hmore
      exact nomatch hmore
    have hstmt : Triple (Spare n (k + 1)) (Parse.attempt (Parse.stmt sub)) (fun _ => Spare n k) K :=
      Triple.attempt ((stmt hsub k).post fun _ _ h => h.mono (Nat.le_succ k))
    have hbehind : ∀ p : Parser, p.Spare n k →
        p.advance.Spare n k ∧ (p.advance.current.kind ≠ .eof → p.advance.Spare n (k + 1)) :=
      fun p h => ⟨h.advance, fun hpeek => (h.live hpeek).advance⟩
    exact (hstmt.pre hbegun).bind fun s => (Triple.modify hbehind).bind fun _ => Triple.pure fun _ h => h
  exact (Triple.repeatWhile_of_more hstep #[]).pre fun _ h => ⟨h.mono (Nat.le_succ k), fun _ => h⟩

theorem block : Triple (Live n (k + 1)) (Parse.block sub) (fun _ => Spare n k) K := by
  refine Triple.current_bind_any fun t => advance_live.bind fun _ => (stmtsUntil hsub rfl).bind fun body => ?_
  refine (Triple.view _).bind fun unclosed => ?_
  cases unclosed with
  | true => exact (Triple.modify fun _ h => h.1.1.report _).bind fun _ => Triple.pure fun _ h => h
  | false => exact Triple.pure fun _ h => h.1.1.mono (Nat.le_succ k)

theorem alternative (hlt : k < j) : Triple (Spare n j) (Parse.alternative sub) (fun _ => Spare n j) (Spare n k) := by
  refine (Triple.view _).bind fun more => ?_
  cases more with
  | true =>
    have honto : Triple (fun p => p.Spare n j ∧ (p.peek.kind == .elseWord) = true) advance
        (fun _ => Spare n (j + 1)) (Spare n k) := by
      refine Triple.modify fun p h => (h.1.live ?_).advance
      rw [eq_of_beq h.2]
      decide
    refine honto.bind fun _ => (expect_spare (by decide) (by omega)).bind fun _ => ?_
    exact (block hsub).bind fun _ => Triple.pure fun _ h => h.mono (Nat.le_succ j)
  | false => exact Triple.pure fun _ h => h.1

theorem cond : Thrifty n (Spare n) (Parse.cond sub) := by
  refine fun k => Triple.current_bind_any fun t => (expect_spare (by decide) (Nat.lt_succ_self k)).bind fun _ => ?_
  refine advance_live.bind fun _ => (value hsub).bind fun condition => ?_
  refine (expect_spare (by decide) (by omega)).bind fun _ => ?_
  refine (expect_spare (by decide) (by omega)).of_live.bind fun _ => ?_
  refine (block hsub).bind fun consequence => (alternative hsub (by omega)).bind fun alternative => ?_
  exact (ofOption_spare condition (by omega)).bind fun _ => Triple.pure fun _ h => h.mono (by omega)

theorem fn : Thrifty n (Spare n) (Parse.fn sub) := by
  refine fun k => Triple.current_bind_any fun t => (expect_spare (by decide) (Nat.lt_succ_self k)).bind fun _ => ?_
  refine (parameters (by omega)).of_live.bind fun ids => ?_
  refine (expect_spare (by decide) (by omega)).bind fun _ => (block hsub).bind fun body => ?_
  exact Triple.pure fun _ h => h.mono (Nat.le_succ (k + 1))

theorem operand : Thrifty n (Spare n) (Parse.operand sub) := by
  refine fun k => Triple.current_bind fun t => ?_
  split <;> rename_i hform
  · exact (atom k).pre fun _ h => h.1
  · exact (unary hsub k).pre (live_of_form hform rfl)
  · exact (group hsub k).pre (live_of_form hform rfl)
  · exact (cond hsub k).pre fun _ h => h.1
  · exact (fn hsub k).pre fun _ h => h.1
  · exact (array hsub k).pre (live_of_form hform rfl)
  · exact (hash hsub k).pre (live_of_form hform rfl)
  · exact (report_spare _).pre fun _ h => h.1

/-! Operators -/

theorem binary (left : Expr) (power : BindingPower) : Thrifty n (Live n) (Parse.binary sub left power) := by
  refine fun k => Triple.current_bind_any fun t => advance_live.bind fun _ => ?_
  refine ((hsub power (k + 1)).failing fun _ h => h.mono (Nat.le_succ k)).bind fun r => ?_
  exact Triple.pure fun _ h => h.mono (Nat.le_succ (k + 1))

theorem call (callee : Expr) : Thrifty n (Live n) (Parse.call sub callee) :=
  fun k => Triple.current_bind_any fun _ => (items hsub (by decide) k).bind fun _ => Triple.pure fun _ h => h

theorem index (collection : Expr) : Thrifty n (Live n) (Parse.index sub collection) := by
  refine fun k => Triple.current_bind_any fun t => advance_live.bind fun _ => (value hsub).bind fun value => ?_
  refine (expect_spare (by decide) (Nat.lt_succ_self k)).bind fun _ => ?_
  refine (ofOption_spare value (by omega)).of_live.bind fun _ => ?_
  exact Triple.pure fun _ h => h.mono (Nat.le_succ (k + 1))

theorem fold (left : Expr) : Thrifty n (Spare n) (Parse.fold sub left) := by
  refine fun k => descend_spare.bind fun _ => (Triple.modify fun _ h => h.advance).bind fun _ => ?_
  refine Triple.current_bind fun t => ?_
  unfold foldAt
  split <;> rename_i hform
  · exact (binary hsub left _ k).pre (live_of_form hform rfl)
  · exact (call hsub left k).pre (live_of_form hform rfl)
  · exact (index hsub left k).pre (live_of_form hform rfl)
  · exact Triple.pure fun _ h => h.1

theorem exprStep (power : BindingPower) : Thrifty n (Spare n) (Parse.exprStep sub power) := by
  intro k
  refine Triple.nested (descend_spare.bind fun _ => (operand hsub k).bind fun left => ?_)
    (fun _ depth _ h => h.unwind depth) fun depth _ h => h.unwind depth
  exact Triple.repeatWhile (fun left => fold hsub left k) left

end Expressions

theorem exprWithin (m : Nat) (power : BindingPower) :
    Thrifty n (Spare n) (Parse.exprWithin (fun _ => Parse.fail) m power) := by
  induction m generalizing power with
  | zero => exact fun k => Triple.fail fun _ h => h.mono (Nat.le_succ k)
  | succ m ih => exact exprStep ih power

theorem expr (power : BindingPower) : Thrifty n (Spare n) (Parse.expr power) :=
  fun k p => exprWithin (p.limit + 1) power k p

theorem program : Triple (Spare n (k + 1)) Parse.program (fun _ => Spare n k) (Spare n k) :=
  (stmtsUntil expr rfl).bind fun _ => Triple.pure fun _ h => h.1

end Thrifty

end Parse

/-- No text gives rise to more reports than it has tokens, the end among them. -/
theorem length_diagnostics_parse_le (source : String) (file : Option String) :
    (parse source file).2.length ≤ (tokenize source file).length := by
  obtain ⟨T, stop, h⟩ := exists_tokenizes source file
  have hstart : (Parser.withLimit maxNestingDepth (.buffer ⟨T, stop⟩)).Spare (T.length + 1) (0 + 1) := by
    refine ⟨stop, T, h.reads maxNestingDepth, ?_⟩
    show 0 + T.length + 1 ≤ T.length + 1
    omega
  obtain ⟨stop', ts, -, hsize⟩ := Parse.Thrifty.program.ends (fun _ _ hspare => hspare) hstart
  rw [h.parse_eq, h.tokenize_eq, List.length_append, List.length_singleton, Array.length_toList]
  exact Nat.le_trans (Nat.le_trans (Nat.le_add_right _ ts.length) (Nat.le_add_right _ 0)) hsize

/-- The end bears the report of the missing operand, and each parenthesis that of its own missing counterpart. -/
example : (parse "((" none).2.length = 3 ∧ (tokenize "((" none).length = 3 := by decide +kernel

end FrontEnd
