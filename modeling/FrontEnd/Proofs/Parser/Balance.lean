import FrontEnd.Proofs.Parser.Halting
import FrontEnd.Proofs.Parser.Routine

/-!
The levels of nesting over a whole run: every routine gives back the levels that it took, and a statement with an
expression that nests too deep is reported once and left at its end.
-/

namespace FrontEnd

namespace Parser

/-- Inside an expression, with the reports that were made before it. One of nesting too deep is the last one, since
nothing is reported while the expression is being given up. -/
structure Inside (earlier : List Diagnostic) (p : Parser) : Prop where
  level : 0 < p.depth
  reports : ∃ D, p.diagnostics.toList = earlier ++ D ∧ (∀ d ∈ D.dropLast, d.Ordinary) ∧
    (p.overflowed = false → ∀ d ∈ D, d.Ordinary)

variable {earlier : List Diagnostic} {p q : Parser} {limit : Nat}

theorem Inside.report (h : p.Inside earlier) {d : Diagnostic} (hd : d.Ordinary) : (p.report d).Inside earlier := by
  cases ho : p.overflowed with
  | true =>
    have hsame : p.report d = p := if_pos ho
    rwa [hsame]
  | false =>
    obtain ⟨D, hD, -, hcalm⟩ := h.reports
    refine ⟨(p.report_depth d).symm ▸ h.level, D ++ [d], ?_, ?_, fun _ e he => ?_⟩
    · rw [p.report_of_calm d ho, Array.toList_push, hD, List.append_assoc]
    · rw [List.dropLast_concat]
      exact hcalm ho
    · rcases List.mem_append.mp he with he | he
      · exact hcalm ho e he
      · exact List.mem_singleton.mp he ▸ hd

theorem Inside.gaveUp (h : p.Inside earlier) (ho : p.overflowed = false) : p.gaveUp.Inside earlier := by
  obtain ⟨D, hD, -, hcalm⟩ := h.reports
  refine ⟨Nat.succ_pos p.depth, D ++ [⟨.nestingTooDeep p.limit, p.current.span.start⟩], ?_, ?_, fun ho' => nomatch ho'⟩
  · show (p.diagnostics.push _).toList = _
    rw [Array.toList_push, hD, List.append_assoc]
  · rw [List.dropLast_concat]
    exact hcalm ho

theorem Inside.unwind (h : q.Inside earlier) {depth : Nat} (hdepth : 0 < depth) : (q.unwind depth).Inside earlier := by
  rw [unwind_of_ne_zero _ (Nat.ne_of_gt hdepth)]
  exact ⟨hdepth, h.reports⟩

/-- What is skipped behind an expression that has been given up ends before a semicolon or the end. -/
theorem peek_kind_resumed (p : Parser) : p.resumed.peek.kind = .semicolon ∨ p.resumed.peek.kind = .eof := by
  have hloop := (Parse.loopsHalt Parse.Steady.expr).skipping { p with depth := 0 }
  exact Parse.skippable_eq_false.mp hloop.exit

/-- The reports about a statement, and where it ends if one of them is of nesting too deep. -/
structure Leaves (earlier : List Diagnostic) (p : Parser) : Prop where
  reports : ∃ D, p.diagnostics.toList = earlier ++ D ∧ (∀ d ∈ D.dropLast, d.Ordinary) ∧
    ((∃ d ∈ D, ¬d.Ordinary) → p.peek.kind = .semicolon ∨ p.peek.kind = .eof)

theorem Inside.leaves (h : p.Inside earlier) : (p.unwind 0).Leaves earlier := by
  obtain ⟨D, hD, hlast, hcalm⟩ := h.reports
  refine ⟨D, (p.unwind_diagnostics 0).symm ▸ hD, hlast, fun hdeep => ?_⟩
  cases ho : p.overflowed with
  | true =>
    rw [unwind_zero ho]
    exact p.peek_kind_resumed
  | false =>
    obtain ⟨d, hd, hdeep⟩ := hdeep
    exact absurd (hcalm ho d hd) hdeep

end Parser

namespace Parse

theorem journey_inside (earlier : List Diagnostic) :
    Journey fun p q : Parser => p.Inside earlier → q.Inside earlier where
  refl _ h := h
  advance _ _ h hp := ⟨(h hp).level, (h hp).reports⟩
  report _ hd _ _ h hp := (h hp).report hd
  deeper _ q _ _ h hp := ⟨Nat.succ_pos q.depth, (h hp).reports⟩
  gaveUp _ _ ho _ h hp := (h hp).gaveUp ho
  unwind _ _ _ hp₀ hq h := (hq (hp₀ h)).unwind (hp₀ h).level

variable {p : Parser} {limit : Nat}

/-- An outermost expression is left with the statement before its end, if it nests too deep. -/
theorem leaves_expr (h : p.Opening limit) (power : BindingPower) :
    (expr power p).2.Leaves p.diagnostics.toList := by
  rw [expr_eq]
  rcases exprStep_cases expr power p with ⟨ho, -⟩ | ⟨-, -, heq⟩ | ⟨ho, -, heq⟩
  · exact nomatch h.calm.symm.trans ho
  · have hT := journey_inside p.diagnostics.toList
    have hin : p.deeper.Inside p.diagnostics.toList :=
      ⟨Nat.succ_pos p.depth, [], (List.append_nil _).symm, by simp, by simp⟩
    have hout := (Sim.sim_same_iff.mp (hT.chain hT.expr power p.deeper) p.deeper (hT.refl p.deeper)).2 hin
    rw [heq, h.depth_eq]
    exact hout.leaves
  · rw [heq, h.depth_eq]
    have hout : p.gaveUp.Inside p.diagnostics.toList :=
      ⟨Nat.succ_pos p.depth, [⟨.nestingTooDeep p.limit, p.current.span.start⟩], Array.toList_push, by simp,
        fun ho' => nomatch ho'⟩
    exact hout.leaves

/-- A statement that does not get to its value is reported where it goes wrong. -/
theorem leaves_stmt (h : p.Opening limit) : ∃ D, (stmt expr p).2.diagnostics.toList = p.diagnostics.toList ++ D ∧
    (∀ d ∈ D.dropLast, d.Ordinary) ∧
    ((∃ d ∈ D, ¬d.Ordinary) → (stmt expr p).2.current.kind = .semicolon ∨ (stmt expr p).2.peek.kind = .eof) := by
  by_cases hheaded : Headed p
  · have hstart : (valueStart p).Opening limit ∧ (valueStart p).diagnostics = p.diagnostics := by
      unfold valueStart
      split <;> exact ⟨⟨h.limit_eq, h.depth_eq, h.calm⟩, rfl⟩
    obtain ⟨D, hD, hlast, hdeep⟩ := (leaves_expr hstart.1 .lowest).reports
    rw [hstart.2] at hD
    rw [stmt_eq expr hheaded]
    refine ⟨D, ?_, hlast, fun hex => ?_⟩
    · show (atSemicolon _).diagnostics.toList = _
      unfold atSemicolon
      split <;> exact hD
    · show (atSemicolon _).current.kind = _ ∨ (atSemicolon _).peek.kind = _
      unfold atSemicolon
      split
      · rename_i hsemicolon
        exact .inl hsemicolon
      · rename_i hsemicolon
        exact .inr ((hdeep hex).resolve_left hsemicolon)
  · obtain ⟨hform, hnot⟩ : p.current.kind.statement? = some .bind ∧
        ¬(p.peek.kind = .identifier ∧ p.advance.peek.kind = .assign) := Classical.not_imp.mp hheaded
    have hone : ∀ (d : Diagnostic) (q : Parser), d.Ordinary → q.overflowed = false → q.diagnostics = p.diagnostics →
        ∃ D, (q.report d).diagnostics.toList = p.diagnostics.toList ++ D ∧ (∀ d ∈ D.dropLast, d.Ordinary) ∧
          ((∃ d ∈ D, ¬d.Ordinary) → (q.report d).current.kind = .semicolon ∨ (q.report d).peek.kind = .eof) := by
      intro d q hd hq heq
      refine ⟨[d], ?_, by simp, fun hex => ?_⟩
      · rw [q.report_of_calm d hq, Array.toList_push, heq]
      · obtain ⟨e, he, hdeep⟩ := hex
        exact absurd (List.mem_singleton.mp he ▸ hd) hdeep
    rw [(stmt_of_form expr p).1 hform]
    rcases bindStmt_cases expr p with ⟨hhead, -⟩ | ⟨-, _, _, _, _, heq | ⟨-, heq⟩⟩
    · exact absurd hhead hnot
    · rw [heq]
      exact hone _ p ordinary_unexpectedToken h.calm rfl
    · rw [heq]
      exact hone _ p.advance ordinary_unexpectedToken h.calm rfl

theorem locked_depth (depth : Nat) : Locked (Sim.Same fun p : Parser => p.depth = depth) Sim.Never :=
  Sim.locked_same (fun _ h => h) fun d _ p h => (p.report_depth d).trans h

theorem sim_depth_expr (depth : Nat) (power : BindingPower) :
    Sim (Sim.Same fun p => p.depth = depth) Sim.Never (fun _ => True) (expr power) (expr power) := by
  apply Sim.sim_same_iff.mpr
  intro p hp
  rw [expr_eq]
  exact ⟨fun _ _ => trivial, (Parser.unwind_depth _ _).trans hp⟩

/-- Whichever way a routine ends, it ends on the level that it began on. -/
theorem Routine.depth_eq {α : Type} {x : Parse α} {D : List Token → α → Prop} (hx : Routine x D) (p : Parser) :
    (x p).2.depth = p.depth :=
  (Sim.sim_same_iff.mp (hx.sim (locked_depth p.depth) (sim_depth_expr p.depth)) p rfl).2

theorem depth_program (p : Parser) : (program p).2.depth = p.depth := by
  have hstmts := Sim.stmtsUntil (locked_depth p.depth) (sim_depth_expr p.depth) (fun _ _ _ => trivial)
    fun k => k == .eof
  have hprogram : Sim (Sim.Same fun q => q.depth = p.depth) Sim.Never (fun _ => True) program program :=
    hstmts.bind fun _ => Sim.pure fun _ => trivial
  exact (Sim.sim_same_iff.mp hprogram p rfl).2

end Parse

open Grammar Parse

theorem Parser.Opening.of_mem_startsWithin {limit n : Nat} {p s : Parser} (h : p.Opening limit)
    (hs : s ∈ p.startsWithin n) : s.Opening limit := by
  induction n generalizing p with
  | zero => exact absurd hs List.not_mem_nil
  | succ n ih =>
    rw [startsWithin] at hs
    split at hs
    · exact absurd hs List.not_mem_nil
    · rcases List.mem_cons.mp hs with rfl | hs
      · exact h
      · exact ih h.turn hs

/-- Every routine gives back the levels that it took, on every way out. A program is made of the statements parsed from
where each of them starts. Each begins and ends on the outermost level, with no expression being given up. At most one of
the reports about it is of nesting too deep, which is the last one then, and the statement ends on its semicolon or
before the end of the tokens. -/
theorem nesting_balanced :
    (∀ {α : Type} {x : Parse α} {D : List Token → α → Prop}, Routine x D → ∀ p, (x p).2.depth = p.depth) ∧
      (∀ p, (program p).2.depth = p.depth) ∧
      ∀ source, program (Parser.ofSource source) =
          (some ⟨((Parser.ofSource source).startsWithin (Parser.ofSource source).left).filterMap
            fun s => (stmt expr s).1⟩, (Parser.ofSource source).finishWithin (Parser.ofSource source).left) ∧
        ∀ s ∈ (Parser.ofSource source).startsWithin (Parser.ofSource source).left,
          (s.depth = 0 ∧ s.overflowed = false) ∧
            ((stmt expr s).2.depth = 0 ∧ (stmt expr s).2.overflowed = false) ∧
            ∃ D, (stmt expr s).2.diagnostics.toList = s.diagnostics.toList ++ D ∧ (∀ d ∈ D.dropLast, d.Ordinary) ∧
              ((∃ d ∈ D, ¬d.Ordinary) →
                (stmt expr s).2.current.kind = .semicolon ∨ (stmt expr s).2.peek.kind = .eof) := by
  refine ⟨Routine.depth_eq, depth_program, fun source => ⟨program_eq _, fun s hs => ?_⟩⟩
  have hopening := (Parser.opening_withLimit maxNestingDepth source).of_mem_startsWithin hs
  exact ⟨⟨hopening.depth_eq, hopening.calm⟩, ⟨hopening.turn.depth_eq, hopening.turn.calm⟩, leaves_stmt hopening⟩

theorem nesting_balanced_identityBinding :
    Routine (stmt expr) (Ended (Clause Expression)) ∧
      Parser.ofTokens identityBinding ∈
        (Parser.ofTokens identityBinding).startsWithin (Parser.ofTokens identityBinding).left ∧
      (stmt expr (Parser.ofTokens identityBinding)).2.depth = (Parser.ofTokens identityBinding).depth ∧
      (stmt expr (Parser.ofTokens identityBinding)).2.overflowed = false := by
  have hstart : Parser.ofTokens identityBinding ∈
      (Parser.ofTokens identityBinding).startsWithin (Parser.ofTokens identityBinding).left := List.mem_cons_self
  obtain ⟨hroutine, -, hstmts⟩ := nesting_balanced
  exact ⟨.stmt, hstart, hroutine .stmt _, ((hstmts _).2 _ hstart).2.1.2⟩

end FrontEnd
