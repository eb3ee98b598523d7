import FrontEnd.Proofs.Parser.Confinement

/-!
A nesting limit that is not reached has no effect: nothing is parsed or reported otherwise than under a higher one.
-/

namespace FrontEnd

variable {l L : Nat} {p q : Parser} {source : TokenSource}

namespace Parser

/-- On the outermost level, where nothing has gone beyond the lower limit and both runs have reported the same. -/
structure Together (l L : Nat) (p q : Parser) : Prop extends p.Abreast q where
  opening_left : p.Opening l
  opening_right : q.Opening L
  deepest_le : q.deepest ≤ l
  diagnostics_eq : p.diagnostics = q.diagnostics

/-- The run under the lower limit has given an expression up, in which the other one has gone beyond that limit. -/
def Apart (l : Nat) (p q : Parser) : Prop :=
  p.TooDeep ∧ l < q.deepest

theorem Opening.report (h : p.Opening l) (d : Diagnostic) : (p.report d).Opening l := by
  unfold Parser.report
  split <;> exact ⟨h.limit_eq, h.depth_eq, h.calm⟩

theorem together_withLimit (l L : Nat) (source : TokenSource) :
    Together l L (withLimit l source) (withLimit L source) :=
  ⟨⟨rfl, rfl, rfl, rfl⟩, opening_withLimit l source, opening_withLimit L source, Nat.zero_le l, rfl⟩

end Parser

namespace Parse

theorem invariant_tooDeep : Invariant Parser.TooDeep where
  advance p h := p.grows_advance.tooDeep h
  report d _ p h := (p.grows_report d).tooDeep h
  deeper p h := p.grows_deeper.tooDeep h
  gaveUp p _ h := p.grows_gaveUp.tooDeep h
  unwind depth p h := (p.grows_unwind depth).tooDeep h

theorem invariant_lt_deepest (l : Nat) : Invariant fun p => l < p.deepest where
  advance _ h := h
  report d _ p h := (p.report_deepest d).symm ▸ h
  deeper _ h := Nat.lt_of_lt_of_le h (Nat.le_max_left _ _)
  gaveUp _ _ h := Nat.lt_of_lt_of_le h (Nat.le_max_left _ _)
  unwind depth p h := (p.unwind_deepest depth).symm ▸ h

/-- No expression is given up but beyond the limit. -/
theorem invariant_limit_lt_deepest : Invariant fun p => p.TooDeep → p.limit < p.deepest where
  advance _ h := h
  report d hd p h := by
    intro hdeep
    rw [Parser.report_limit, Parser.report_deepest]
    apply h
    obtain ⟨d', hd', limit, hfault⟩ := hdeep
    unfold Parser.report at hd'
    split at hd'
    · exact ⟨d', hd', limit, hfault⟩
    · rw [Array.toList_push, List.mem_append, List.mem_singleton] at hd'
      rcases hd' with hd' | rfl
      · exact ⟨d', hd', limit, hfault⟩
      · exact absurd hfault (hd limit)
  deeper _ h hdeep := Nat.lt_of_lt_of_le (h hdeep) (Nat.le_max_left _ _)
  gaveUp _ hle _ _ := Nat.lt_of_lt_of_le (Nat.lt_succ_of_le hle) (Nat.le_max_right _ _)
  unwind depth p h hdeep := by
    rw [Parser.unwind_limit, Parser.unwind_deepest]
    exact h ((Parser.tooDeep_congr (p.unwind_diagnostics depth)).mp hdeep)

theorem locked_together : Locked (Parser.Together l L) (Parser.Apart l) where
  current_eq _ _ h := h.current_eq
  peek_eq _ _ h := h.peek_eq
  left_eq _ _ h := h.left_eq
  advance _ _ h := by
    obtain ⟨habreast, hp, hq, hdeepest, heq⟩ := h
    left
    exact ⟨habreast.advance, ⟨hp.limit_eq, hp.depth_eq, hp.calm⟩, ⟨hq.limit_eq, hq.depth_eq, hq.calm⟩, hdeepest, heq⟩
  report d _ p q h := by
    refine ⟨h.toAbreast.report d, h.opening_left.report d, h.opening_right.report d, ?_, ?_⟩
    · rw [Parser.report_deepest]
      exact h.deepest_le
    · rw [p.report_of_calm d h.opening_left.calm, q.report_of_calm d h.opening_right.calm, h.diagnostics_eq]
  advance_left p _ h := ⟨invariant_tooDeep.advance p h.1, h.2⟩
  advance_right _ q h := ⟨h.1, (invariant_lt_deepest l).advance q h.2⟩
  report_left d hd p _ h := ⟨invariant_tooDeep.report d hd p h.1, h.2⟩
  report_right d hd _ q h := ⟨h.1, (invariant_lt_deepest l).report d hd q h.2⟩

/-- An expression of the outermost level: the runs inside are in step or part, and come back to that level. -/
theorem sim_together_expr (hl : 0 < l) (hlL : l ≤ L) (power : BindingPower) :
    Sim (Parser.Together l L) (Parser.Apart l) (fun _ => True) (expr power) (expr power) := by
  refine ⟨fun p q h => ?_, fun p q h => ?_, fun p q h => ?_⟩
  · have hp := h.opening_left
    have hq := h.opening_right
    have hrun := (Sim.chain locked_inStep (sim_inStep_exprWithin hlL l L) (sim_inStep_descend hlL) power).run _ _
      (inStep_deeper hl h.toAbreast hp hq h.deepest_le)
    rw [expr_of_opening power hl hp, expr_of_opening power (Nat.lt_of_lt_of_le hl hlL) hq]
    rcases hrun with ⟨heq, -, hin⟩ | hparted
    · refine .inl ⟨heq, fun _ _ => trivial, ?_⟩
      obtain ⟨D, hleft, hright⟩ := hin.reported
      have hsame : (chain (exprWithin (fun _ => fail) l) power p.deeper).2.diagnostics =
          (chain (exprWithin (fun _ => fail) L) power q.deeper).2.diagnostics := by
        apply Array.toList_inj.mp
        rw [hleft, hright, h.diagnostics_eq]
      rw [Parser.unwind_of_calm _ hin.calm_left, Parser.unwind_of_calm _ hin.calm_right]
      exact ⟨hin.toAbreast.withDepth 0, ⟨hin.limit_left, rfl, hin.calm_left⟩, ⟨hin.limit_right, rfl, hin.calm_right⟩,
        hin.deepest_le, hsame⟩
    · right
      obtain ⟨D, position, hleft, -⟩ := hparted.reported
      refine ⟨invariant_tooDeep.unwind 0 _ ⟨⟨.nestingTooDeep l, position⟩, ?_, l, rfl⟩, ?_⟩
      · rw [hleft]
        exact List.mem_append_right _ List.mem_cons_self
      · rw [Parser.unwind_deepest]
        exact hparted.lt_deepest
  · exact ⟨(Sim.sim_same_iff.mp (invariant_tooDeep.expr power) p h.1).2, h.2⟩
  · exact ⟨h.1, (Sim.sim_same_iff.mp ((invariant_lt_deepest l).expr power) q h.2).2⟩

/-- Whole programs under two limits: all is the same, or the lower limit has been reached. -/
theorem program_cases (hl : 0 < l) (hlL : l ≤ L) (source : TokenSource) :
    ((program (Parser.withLimit l source)).1 = (program (Parser.withLimit L source)).1 ∧
        (program (Parser.withLimit l source)).2.Together l L (program (Parser.withLimit L source)).2) ∨
      (program (Parser.withLimit l source)).2.Apart l (program (Parser.withLimit L source)).2 := by
  have hstmts := Sim.stmtsUntil (Q := fun _ => True) (locked_together (l := l) (L := L)) (sim_together_expr hl hlL)
    (fun _ _ _ => trivial) fun k => k == .eof
  have hprogram : Sim (Parser.Together l L) (Parser.Apart l) (fun _ => True) program program :=
    hstmts.bind fun _ => Sim.pure fun _ => trivial
  rcases hprogram.run _ _ (Parser.together_withLimit l L source) with ⟨heq, -, htogether⟩ | hapart
  · exact .inl ⟨heq, htogether⟩
  · exact .inr hapart

theorem limit_lt_deepest_of_tooDeep (limit : Nat) (source : TokenSource)
    (h : (program (Parser.withLimit limit source)).2.TooDeep) :
    limit < (program (Parser.withLimit limit source)).2.deepest := by
  have hstart : (Parser.withLimit limit source).TooDeep → limit < (Parser.withLimit limit source).deepest := by
    rintro ⟨d, hd, -⟩
    exact nomatch hd
  have hafter : ∀ p : Parser, (program p).2 = (stmtsUntil expr (fun k => k == .eof) p).2 := by
    intro p
    unfold program
    rw [bind_apply]
    rcases stmtsUntil expr (fun k => k == .eof) p with ⟨_ | found, q⟩ <;> rfl
  rw [hafter] at h ⊢
  have hlimit := (invariant_limit limit).stmtsUntil (fun k => k == .eof) (p := Parser.withLimit limit source) rfl
  have hdeepest := invariant_limit_lt_deepest.stmtsUntil (fun k => k == .eof) (p := Parser.withLimit limit source) hstart
  have hlt := hdeepest h
  rwa [hlimit] at hlt

end Parse

/-- The deepest level that is reached when all of a source is parsed under a limit. -/
def deepestLevel (limit : Nat) (source : TokenSource) : Nat :=
  (Parse.program (Parser.withLimit limit source)).2.deepest

/-- Whether something nests too deep shows in how deep a parse under a higher limit goes. -/
theorem tooDeep_iff_lt_deepestLevel (hl : 0 < l) (hlL : l ≤ L) (source : TokenSource) :
    (Parse.program (Parser.withLimit l source)).2.TooDeep ↔ l < deepestLevel L source := by
  rcases Parse.program_cases hl hlL source with ⟨-, htogether⟩ | hapart
  · have hle : deepestLevel L source ≤ l := htogether.deepest_le
    refine ⟨fun hdeep => ?_, fun hlt => absurd hle (Nat.not_le.mpr hlt)⟩
    -- What is reported is reported under both limits, so the higher one would have been reached as well.
    have hdeep' : (Parse.program (Parser.withLimit L source)).2.TooDeep :=
      (Parser.tooDeep_congr htogether.diagnostics_eq).mp hdeep
    have hlt : L < deepestLevel L source := Parse.limit_lt_deepest_of_tooDeep L source hdeep'
    omega
  · exact ⟨fun _ => hapart.2, fun _ => hapart.1⟩

theorem program_eq_of_deepestLevel_le (hl : 0 < l) (hlL : l ≤ L) (h : deepestLevel L source ≤ l) :
    (Parse.program (Parser.withLimit l source)).1 = (Parse.program (Parser.withLimit L source)).1 ∧
      (Parse.program (Parser.withLimit l source)).2.diagnostics =
        (Parse.program (Parser.withLimit L source)).2.diagnostics := by
  rcases Parse.program_cases hl hlL source with ⟨heq, htogether⟩ | hapart
  · exact ⟨heq, htogether.diagnostics_eq⟩
  · exact absurd hapart.2 (Nat.not_lt.mpr h)

/-- The nesting limit is not noticed where a parse under a higher one stays within it, and only there. -/
theorem limit_transparent (hL : maxNestingDepth ≤ L) (T : List Token) :
    ((∀ d ∈ (parseTokens T).2, ∀ limit, d.fault ≠ .nestingTooDeep limit) ↔
        deepestLevel L (.buffer (TokenBuffer.ofList T)) ≤ maxNestingDepth) ∧
      (deepestLevel L (.buffer (TokenBuffer.ofList T)) ≤ maxNestingDepth → parseTokens T = parseWithin L T) := by
  have hiff := tooDeep_iff_lt_deepestLevel (by decide) hL (.buffer (TokenBuffer.ofList T))
  have hnone : (∀ d ∈ (parseTokens T).2, ∀ limit, d.fault ≠ .nestingTooDeep limit) ↔
      ¬(Parse.program (Parser.withLimit maxNestingDepth (.buffer (TokenBuffer.ofList T)))).2.TooDeep := by
    unfold Parser.TooDeep
    simp only [not_exists, not_and]
    rfl
  refine ⟨?_, fun h => ?_⟩
  · rw [hnone, hiff, Nat.not_lt]
  · obtain ⟨hvalue, hdiagnostics⟩ := program_eq_of_deepestLevel_le (by decide) hL h
    rw [parseTokens_eq]
    unfold parseWithin
    rw [hvalue, hdiagnostics]

theorem limit_transparent_tower : maxNestingDepth ≤ 257 ∧
    ((∀ d ∈ (parseTokens (Tower.tokens 256)).2, ∀ limit, d.fault ≠ .nestingTooDeep limit) ↔
        deepestLevel 257 (.buffer (TokenBuffer.ofList (Tower.tokens 256))) ≤ maxNestingDepth) ∧
      (deepestLevel 257 (.buffer (TokenBuffer.ofList (Tower.tokens 256))) ≤ maxNestingDepth →
        parseTokens (Tower.tokens 256) = parseWithin 257 (Tower.tokens 256)) := by
  have hL : maxNestingDepth ≤ 257 := by decide
  exact ⟨hL, limit_transparent hL (Tower.tokens 256)⟩

end FrontEnd
