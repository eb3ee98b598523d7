import FrontEnd.Parser.Expr

/-!
What the steps that look at the state of a parser can do, case by case.
-/

namespace FrontEnd

namespace Parser

variable (p : Parser)

/-- One level deeper. -/
def deeper : Parser :=
  { p with depth := p.depth + 1, deepest := max p.deepest (p.depth + 1) }

/-- One level deeper than allowed, from where the expression is given up. -/
def gaveUp : Parser :=
  { p.deeper with
    diagnostics := p.diagnostics.push ⟨.nestingTooDeep p.limit, p.current.span.start⟩
    overflowed := true }

theorem skipWithin_spec (n : Nat) : (skipWithin n p).diagnostics = p.diagnostics ∧ (skipWithin n p).limit = p.limit ∧
    (skipWithin n p).depth = p.depth ∧ (skipWithin n p).deepest = p.deepest ∧
      (skipWithin n p).overflowed = p.overflowed := by
  induction n generalizing p with
  | zero => exact ⟨rfl, rfl, rfl, rfl, rfl⟩
  | succ n ih =>
    rw [skipWithin]
    split
    · exact ⟨rfl, rfl, rfl, rfl, rfl⟩
    · exact ih p.advance

theorem report_overflowed (d : Diagnostic) (p : Parser) : (p.report d).overflowed = p.overflowed := by
  unfold report
  split <;> rfl

theorem report_limit (d : Diagnostic) (p : Parser) : (p.report d).limit = p.limit := by
  unfold report
  split <;> rfl

theorem report_deepest (d : Diagnostic) (p : Parser) : (p.report d).deepest = p.deepest := by
  unfold report
  split <;> rfl

theorem report_depth (d : Diagnostic) (p : Parser) : (p.report d).depth = p.depth := by
  unfold report
  split <;> rfl

variable (depth : Nat)

@[simp] theorem unwind_diagnostics : (p.unwind depth).diagnostics = p.diagnostics := by
  unfold unwind
  split
  · exact (skipWithin_spec _ _).1
  · rfl

@[simp] theorem unwind_limit : (p.unwind depth).limit = p.limit := by
  unfold unwind
  split
  · exact (skipWithin_spec _ _).2.1
  · rfl

@[simp] theorem unwind_depth : (p.unwind depth).depth = depth := by
  unfold unwind
  split
  · exact (skipWithin_spec _ _).2.2.1
  · rfl

@[simp] theorem unwind_deepest : (p.unwind depth).deepest = p.deepest := by
  unfold unwind
  split
  · exact (skipWithin_spec _ _).2.2.2.1
  · rfl

theorem unwind_overflowed : (p.unwind depth).overflowed = true ↔ depth ≠ 0 ∧ p.overflowed = true := by
  unfold unwind
  split
  · rename_i h
    simp [h.1]
  · rename_i h
    constructor
    · intro ho
      exact ⟨fun h0 => h ⟨h0, ho⟩, ho⟩
    · intro ho
      exact ho.2

/-- Back on the outermost level, behind what is left of a statement that has been given up. -/
def resumed : Parser :=
  { ({ p with depth := 0 } : Parser).skipToBoundary with overflowed := false }

variable {p}

theorem unwind_zero (h : p.overflowed = true) : p.unwind 0 = p.resumed :=
  if_pos ⟨rfl, h⟩

theorem unwind_of_ne_zero (h : depth ≠ 0) : p.unwind depth = { p with depth := depth } :=
  if_neg fun hzero => h hzero.1

theorem unwind_of_calm (h : p.overflowed = false) : p.unwind depth = { p with depth := depth } := by
  unfold unwind
  rw [if_neg]
  simp [h]

end Parser

namespace Parse

variable {α β σ : Type}

theorem mapM_id_map_some (as : List α) : (as.map some).mapM id = some as := by
  induction as with
  | nil => rfl
  | cons a as ih => simp [ih]

theorem eq_map_some_of_mapM_id {os : List (Option α)} {as : List α} (h : os.mapM id = some as) : os = as.map some := by
  induction os generalizing as with
  | nil =>
    obtain rfl : [] = as := by simpa using h
    rfl
  | cons o os ih =>
    cases o with
    | none => simp at h
    | some a =>
      cases hos : os.mapM id with
      | none => simp [hos] at h
      | some bs =>
        obtain rfl : a :: bs = as := by simpa [hos] using h
        rw [ih hos, List.map_cons]

theorem expect_cases (k : Kind) (p : Parser) :
    (p.peek.kind = k ∧ expect k p = (some (), p.advance)) ∨
      (p.peek.kind ≠ k ∧
        expect k p = (none, p.report ⟨.unexpectedToken k p.peek.kind p.peek.value, p.peek.span.start⟩)) := by
  unfold expect require Parser.expect
  by_cases h : p.peek.kind = k
  · exact .inl ⟨h, by rw [if_pos h]⟩
  · exact .inr ⟨h, by rw [if_neg h]⟩

theorem descend_cases (p : Parser) :
    (p.overflowed = true ∧ descend p = (none, p)) ∨
      (p.overflowed = false ∧ p.depth < p.limit ∧ descend p = (some (), p.deeper)) ∨
      (p.overflowed = false ∧ p.limit ≤ p.depth ∧ descend p = (none, p.gaveUp)) := by
  unfold descend require
  cases ho : p.overflowed with
  | true =>
    have hdescend : p.descend = (false, p) := by simp [Parser.descend, ho]
    exact .inl ⟨rfl, by rw [hdescend]⟩
  | false =>
    by_cases hd : p.depth < p.limit
    · have hdescend : p.descend = (true, p.deeper) := by simp [Parser.descend, Parser.deeper, ho, Nat.succ_le_of_lt hd]
      exact .inr (.inl ⟨rfl, hd, by rw [hdescend]⟩)
    · have hle : p.limit ≤ p.depth := Nat.le_of_not_lt hd
      have hdescend : p.descend = (false, p.gaveUp) := by
        simp [Parser.descend, Parser.gaveUp, Parser.deeper, Parser.report, ho, Nat.not_le.mpr (Nat.lt_succ_of_le hle)]
      exact .inr (.inr ⟨rfl, hle, by rw [hdescend]⟩)

theorem repeatWithin_cases (more : Parser → Bool) (step : σ → Parse σ) (n : Nat) (s : σ) (p : Parser) :
    (more p = false ∧ repeatWithin more step (n + 1) s p = (some s, p)) ∨
      (∃ s₁ q, more p = true ∧ step s p = (some s₁, q) ∧
        repeatWithin more step (n + 1) s p = repeatWithin more step n s₁ q) ∨
      ∃ q, more p = true ∧ step s p = (none, q) ∧ repeatWithin more step (n + 1) s p = (none, q) := by
  rw [repeatWithin]
  cases more p with
  | false => exact .inl ⟨rfl, rfl⟩
  | true =>
    rcases step s p with ⟨_ | s₁, q⟩
    · exact .inr (.inr ⟨q, rfl, rfl, rfl⟩)
    · exact .inr (.inl ⟨s₁, q, rfl, rfl, rfl⟩)

theorem repeatWithin_of_done {more : Parser → Bool} {step : σ → Parse σ} {s : σ} {p : Parser} (h : more p = false)
    (n : Nat) : repeatWithin more step n s p = (some s, p) := by
  cases n with
  | zero => rfl
  | succ n => rw [repeatWithin, h, if_neg Bool.false_ne_true]

/-- An operand and the operators behind it that bind tighter. -/
def chain (sub : SubExpr) (power : BindingPower) : Parse Expr :=
  operand sub >>= repeatWhile (bindsTighter power) (fold sub)

/-- What an expression does where it may go a level deeper, and the way back from there. -/
def guarded (x : Parse α) : Parse α :=
  nested (descend >>= fun _ => x)

theorem guarded_cases (x : Parse α) (p : Parser) :
    (p.overflowed = true ∧ guarded x p = (none, p.unwind p.depth)) ∨
      (p.overflowed = false ∧ p.depth < p.limit ∧
        guarded x p = ((x p.deeper).1, (x p.deeper).2.unwind p.depth)) ∨
      (p.overflowed = false ∧ p.limit ≤ p.depth ∧ guarded x p = (none, p.gaveUp.unwind p.depth)) := by
  unfold guarded nested
  rcases descend_cases p with ⟨ho, h⟩ | ⟨ho, hd, h⟩ | ⟨ho, hd, h⟩
  · exact .inl ⟨ho, by rw [bind_apply, h]⟩
  · exact .inr (.inl ⟨ho, hd, by rw [bind_apply, h]⟩)
  · exact .inr (.inr ⟨ho, hd, by rw [bind_apply, h]⟩)

theorem exprStep_eq (sub : SubExpr) (power : BindingPower) : exprStep sub power = guarded (chain sub power) := rfl

theorem exprStep_cases (sub : SubExpr) (power : BindingPower) (p : Parser) :
    (p.overflowed = true ∧ exprStep sub power p = (none, p.unwind p.depth)) ∨
      (p.overflowed = false ∧ p.depth < p.limit ∧
        exprStep sub power p = ((chain sub power p.deeper).1, (chain sub power p.deeper).2.unwind p.depth)) ∨
      (p.overflowed = false ∧ p.limit ≤ p.depth ∧ exprStep sub power p = (none, p.gaveUp.unwind p.depth)) := by
  rw [exprStep_eq]
  exact guarded_cases (chain sub power) p

end Parse

end FrontEnd
