import FrontEnd.Proofs.Parser.Reading
import FrontEnd.Proofs.Parser.Traversal

/-!
Runs under different nesting limits side by side: they are in step until the lower limit is reached.
-/

namespace FrontEnd

namespace Parser

/-- The two parsers have the same tokens before them, on the same level. -/
structure Abreast (p q : Parser) : Prop where
  current_eq : p.current = q.current
  peek_eq : p.peek = q.peek
  source_eq : p.source = q.source
  depth_eq : p.depth = q.depth

/-- The two have reported `P` and `Q` and the same since. -/
def Reported (P Q : List Diagnostic) (p q : Parser) : Prop :=
  ∃ D, p.diagnostics.toList = P ++ D ∧ q.diagnostics.toList = Q ++ D

variable {P Q : List Diagnostic} {p q : Parser}

theorem Abreast.left_eq (h : p.Abreast q) : p.left = q.left := by
  unfold Parser.left
  rw [h.source_eq]

theorem Abreast.advance (h : p.Abreast q) : p.advance.Abreast q.advance where
  current_eq := h.peek_eq
  peek_eq := congrArg (fun s => s.next.1) h.source_eq
  source_eq := congrArg (fun s => s.next.2) h.source_eq
  depth_eq := h.depth_eq

theorem Abreast.symm (h : p.Abreast q) : q.Abreast p :=
  ⟨h.current_eq.symm, h.peek_eq.symm, h.source_eq.symm, h.depth_eq.symm⟩

theorem Abreast.trans {r : Parser} (h : p.Abreast q) (h' : q.Abreast r) : p.Abreast r :=
  ⟨h.current_eq.trans h'.current_eq, h.peek_eq.trans h'.peek_eq, h.source_eq.trans h'.source_eq,
    h.depth_eq.trans h'.depth_eq⟩

theorem Abreast.report (d : Diagnostic) (h : p.Abreast q) : (p.report d).Abreast (q.report d) := by
  have hreport : ∀ p : Parser, (p.report d).Abreast p := by
    intro p
    unfold Parser.report
    split <;> exact ⟨rfl, rfl, rfl, rfl⟩
  exact (hreport p).trans (h.trans (hreport q).symm)

theorem Abreast.deeper (h : p.Abreast q) : p.deeper.Abreast q.deeper :=
  ⟨h.current_eq, h.peek_eq, h.source_eq, congrArg (· + 1) h.depth_eq⟩

theorem Abreast.withDepth (h : p.Abreast q) (depth : Nat) :
    Abreast { p with depth := depth } { q with depth := depth } :=
  ⟨h.current_eq, h.peek_eq, h.source_eq, rfl⟩

theorem Abreast.skipWithin (n : Nat) (h : p.Abreast q) : (p.skipWithin n).Abreast (q.skipWithin n) := by
  induction n generalizing p q with
  | zero => exact h
  | succ n ih =>
    rw [Parser.skipWithin, Parser.skipWithin, h.peek_eq]
    split
    · exact h
    · exact ih h.advance

theorem Abreast.resumed (h : p.Abreast q) : p.resumed.Abreast q.resumed := by
  have hskip := (h.withDepth 0).skipWithin p.left
  unfold Parser.resumed Parser.skipToBoundary
  have hq : ({ q with depth := 0 } : Parser).left = p.left := h.left_eq.symm
  rw [hq]
  exact ⟨hskip.current_eq, hskip.peek_eq, hskip.source_eq, hskip.depth_eq⟩

theorem Reported.push (h : Reported P Q p q) (d : Diagnostic) :
    ∃ D, (p.diagnostics.push d).toList = P ++ D ∧ (q.diagnostics.push d).toList = Q ++ D := by
  obtain ⟨D, hp, hq⟩ := h
  exact ⟨D ++ [d], by simp [hp], by simp [hq]⟩

theorem Reported.report (h : Reported P Q p q) (d : Diagnostic) (ho : p.overflowed = q.overflowed) :
    Reported P Q (p.report d) (q.report d) := by
  unfold Parser.report
  rw [ho]
  cases q.overflowed with
  | true => exact h
  | false => exact h.push d

end Parser

namespace Parse

variable {l L n m : Nat} {P Q : List Diagnostic} {p q : Parser}

/-! The same limit -/

/-- The two agree in everything that decides what is parsed. -/
structure Alike (P Q : List Diagnostic) (p q : Parser) : Prop extends p.Abreast q where
  limit_eq : p.limit = q.limit
  overflowed_eq : p.overflowed = q.overflowed
  reported : Parser.Reported P Q p q

theorem Alike.advance (h : Alike P Q p q) : Alike P Q p.advance q.advance :=
  ⟨h.toAbreast.advance, h.limit_eq, h.overflowed_eq, h.reported⟩

theorem locked_alike : Locked (Alike P Q) Sim.Never where
  current_eq _ _ h := h.current_eq
  peek_eq _ _ h := h.peek_eq
  left_eq _ _ h := h.left_eq
  advance _ _ h := .inl h.advance
  report d _ p q h := by
    refine ⟨h.toAbreast.report d, ?_, ?_, h.reported.report d h.overflowed_eq⟩
    · rw [Parser.report_limit, Parser.report_limit, h.limit_eq]
    · rw [Parser.report_overflowed, Parser.report_overflowed, h.overflowed_eq]
  advance_left _ _ h := h
  advance_right _ _ h := h
  report_left _ _ _ _ h := h
  report_right _ _ _ _ h := h

theorem Alike.deeper (h : Alike P Q p q) : Alike P Q p.deeper q.deeper :=
  ⟨h.toAbreast.deeper, h.limit_eq, h.overflowed_eq, h.reported⟩

theorem Alike.gaveUp (h : Alike P Q p q) : Alike P Q p.gaveUp q.gaveUp := by
  refine ⟨⟨h.current_eq, h.peek_eq, h.source_eq, congrArg (· + 1) h.depth_eq⟩, h.limit_eq, rfl, ?_⟩
  have hpush := h.reported.push ⟨.nestingTooDeep p.limit, p.current.span.start⟩
  unfold Parser.Reported Parser.gaveUp
  rw [← h.limit_eq, ← h.current_eq]
  exact hpush

theorem Alike.unwind (h : Alike P Q p q) (depth : Nat) : Alike P Q (p.unwind depth) (q.unwind depth) := by
  refine ⟨?_, ?_, ?_, ?_⟩
  · cases ho : p.overflowed with
    | false =>
      rw [Parser.unwind_of_calm depth ho, Parser.unwind_of_calm depth (h.overflowed_eq ▸ ho)]
      exact h.toAbreast.withDepth depth
    | true =>
      cases depth with
      | zero =>
        rw [Parser.unwind_zero ho, Parser.unwind_zero (h.overflowed_eq ▸ ho)]
        exact h.toAbreast.resumed
      | succ depth =>
        rw [Parser.unwind_of_ne_zero _ (Nat.succ_ne_zero depth), Parser.unwind_of_ne_zero _ (Nat.succ_ne_zero depth)]
        exact h.toAbreast.withDepth (depth + 1)
  · rw [Parser.unwind_limit, Parser.unwind_limit, h.limit_eq]
  · have hp := p.unwind_overflowed depth
    have hq := q.unwind_overflowed depth
    rw [h.overflowed_eq] at hp
    exact Bool.eq_iff_iff.mpr (hp.trans hq.symm)
  · unfold Parser.Reported
    rw [Parser.unwind_diagnostics, Parser.unwind_diagnostics]
    exact h.reported

theorem sim_alike_descend : Sim (Alike P Q) Sim.Never (fun _ => True) Parse.descend Parse.descend := by
  refine ⟨fun p q h => ?_, fun _ _ h => h, fun _ _ h => h⟩
  have ho := h.overflowed_eq
  have hd := h.depth_eq
  have hl := h.limit_eq
  rcases descend_cases p with ⟨hp, hxp⟩ | ⟨hp, hlt, hxp⟩ | ⟨hp, hle, hxp⟩
  · rcases descend_cases q with ⟨-, hxq⟩ | ⟨hq, -, -⟩ | ⟨hq, -, -⟩
    · rw [hxp, hxq]
      exact .inl ⟨rfl, fun _ _ => trivial, h⟩
    · exact absurd (hp.symm.trans (ho.trans hq)) (by decide)
    · exact absurd (hp.symm.trans (ho.trans hq)) (by decide)
  · rcases descend_cases q with ⟨hq, -⟩ | ⟨-, -, hxq⟩ | ⟨-, hle', -⟩
    · exact absurd (hp.symm.trans (ho.trans hq)) (by decide)
    · rw [hxp, hxq]
      exact .inl ⟨rfl, fun _ _ => trivial, h.deeper⟩
    · omega
  · rcases descend_cases q with ⟨hq, -⟩ | ⟨-, hlt', -⟩ | ⟨-, -, hxq⟩
    · exact absurd (hp.symm.trans (ho.trans hq)) (by decide)
    · omega
    · rw [hxp, hxq]
      exact .inl ⟨rfl, fun _ _ => trivial, h.gaveUp⟩

theorem sim_alike_nested {x y : Parse Expr} (h : Sim (Alike P Q) Sim.Never (fun _ => True) x y) :
    Sim (Alike P Q) Sim.Never (fun _ => True) (Parse.nested x) (Parse.nested y) := by
  refine ⟨fun p q hpq => ?_, fun _ _ h => h, fun _ _ h => h⟩
  rcases h.run p q hpq with ⟨heq, hV, hpq'⟩ | hE
  · refine .inl ⟨heq, hV, ?_⟩
    show Alike P Q ((x p).2.unwind p.depth) ((y q).2.unwind q.depth)
    rw [hpq.depth_eq]
    exact hpq'.unwind q.depth
  · exact hE.elim

theorem sim_alike_exprWithin (n : Nat) (power : BindingPower) : Sim (Alike P Q) Sim.Never (fun _ => True)
    (exprWithin (fun _ => fail) n power) (exprWithin (fun _ => fail) n power) :=
  Sim.exprWithin locked_alike sim_alike_descend (fun _ _ => sim_alike_nested) n power

theorem sim_alike_expr (power : BindingPower) :
    Sim (Alike P Q) Sim.Never (fun _ => True) (expr power) (expr power) :=
  Sim.expr locked_alike sim_alike_descend (fun _ _ => sim_alike_nested) (fun _ _ h => h.limit_eq) power

/-! Another limit -/

/-- Neither run has reached the lower limit. -/
structure InStep (l L n m : Nat) (P Q : List Diagnostic) (p q : Parser) : Prop extends p.Abreast q where
  limit_left : p.limit = l
  limit_right : q.limit = L
  calm_left : p.overflowed = false
  calm_right : q.overflowed = false
  inside : 0 < p.depth
  within : p.depth ≤ l
  room_left : l < p.depth + n
  room_right : L < p.depth + m
  deepest_le : q.deepest ≤ l
  reported : Parser.Reported P Q p q

/-- The run under the lower limit is giving the expression up, where the other has gone beyond that limit. -/
structure Parted (l : Nat) (P Q : List Diagnostic) (p q : Parser) : Prop where
  overflowed : p.overflowed = true
  inside : 0 < p.depth
  lt_deepest : l < q.deepest
  reported : ∃ D position, p.diagnostics.toList = P ++ D ++ [⟨.nestingTooDeep l, position⟩] ∧
    Q ++ D <+: q.diagnostics.toList

theorem report_of_overflowed {d : Diagnostic} (h : p.overflowed = true) : p.report d = p :=
  if_pos h

theorem parted_report_right {d : Diagnostic} (h : Parted l P Q p q) : Parted l P Q p (q.report d) := by
  obtain ⟨D, position, hp, hq⟩ := h.reported
  refine ⟨h.overflowed, h.inside, ?_, D, position, hp, hq.trans (q.grows_report d).earlier⟩
  rw [Parser.report_deepest]
  exact h.lt_deepest

theorem locked_inStep : Locked (InStep l L n m P Q) (Parted l P Q) where
  current_eq _ _ h := h.current_eq
  peek_eq _ _ h := h.peek_eq
  left_eq _ _ h := h.left_eq
  advance _ _ h := .inl ⟨h.toAbreast.advance, h.limit_left, h.limit_right, h.calm_left, h.calm_right, h.inside,
    h.within, h.room_left, h.room_right, h.deepest_le, h.reported⟩
  report d _ p q h := by
    have hreported := h.reported.report d (h.calm_left.trans h.calm_right.symm)
    refine ⟨h.toAbreast.report d, ?_, ?_, ?_, ?_, ?_, ?_, ?_, ?_, ?_, hreported⟩
    · rw [Parser.report_limit, h.limit_left]
    · rw [Parser.report_limit, h.limit_right]
    · rw [Parser.report_overflowed, h.calm_left]
    · rw [Parser.report_overflowed, h.calm_right]
    · rw [Parser.report_depth]
      exact h.inside
    · rw [Parser.report_depth]
      exact h.within
    · rw [Parser.report_depth]
      exact h.room_left
    · rw [Parser.report_depth]
      exact h.room_right
    · rw [Parser.report_deepest]
      exact h.deepest_le
  advance_left _ _ h := ⟨h.overflowed, h.inside, h.lt_deepest, h.reported⟩
  advance_right _ _ h := ⟨h.overflowed, h.inside, h.lt_deepest, h.reported⟩
  report_left _ _ _ _ h := by
    rw [report_of_overflowed h.overflowed]
    exact h
  report_right _ _ _ _ h := parted_report_right h

theorem Parted.deeper_right (h : Parted l P Q p q) : Parted l P Q p q.deeper :=
  ⟨h.overflowed, h.inside, Nat.lt_of_lt_of_le h.lt_deepest (Nat.le_max_left _ _), h.reported⟩

theorem Parted.gaveUp_right (h : Parted l P Q p q) : Parted l P Q p q.gaveUp := by
  obtain ⟨D, position, hp, hq⟩ := h.reported
  exact ⟨h.overflowed, h.inside, Nat.lt_of_lt_of_le h.lt_deepest (Nat.le_max_left _ _), D, position, hp,
    hq.trans q.grows_gaveUp.earlier⟩

theorem Parted.unwind_right (h : Parted l P Q p q) (depth : Nat) : Parted l P Q p (q.unwind depth) := by
  obtain ⟨D, position, hp, hq⟩ := h.reported
  refine ⟨h.overflowed, h.inside, ?_, D, position, hp, ?_⟩
  · rw [Parser.unwind_deepest]
    exact h.lt_deepest
  · rw [Parser.unwind_diagnostics]
    exact hq

/-- An expression inside another that is being given up is not begun. -/
theorem Parted.exprStep_left (h : Parted l P Q p q) (sub : SubExpr) (power : BindingPower) :
    Parted l P Q (exprStep sub power p).2 q := by
  rcases exprStep_cases sub power p with ⟨-, heq⟩ | ⟨ho, -, -⟩ | ⟨ho, -, -⟩
  · rw [heq, Parser.unwind_of_ne_zero _ (Nat.ne_of_gt h.inside)]
    exact h
  · exact absurd (h.overflowed.symm.trans ho) (by decide)
  · exact absurd (h.overflowed.symm.trans ho) (by decide)

theorem Parted.exprStep_right {sub : SubExpr} {power : BindingPower}
    (hchain : ∀ p q, Parted l P Q p q → Parted l P Q p (chain sub power q).2) (h : Parted l P Q p q) :
    Parted l P Q p (exprStep sub power q).2 := by
  rcases exprStep_cases sub power q with ⟨-, heq⟩ | ⟨-, -, heq⟩ | ⟨-, -, heq⟩ <;> rw [heq]
  · exact h.unwind_right _
  · exact (hchain p q.deeper h.deeper_right).unwind_right _
  · exact h.gaveUp_right.unwind_right _

theorem InStep.deeper {n' m' : Nat} (h : InStep l L n m P Q p q) (hlt : p.depth < l) (hn : l < p.depth + 1 + n')
    (hm : L < p.depth + 1 + m') : InStep l L n' m' P Q p.deeper q.deeper :=
  ⟨h.toAbreast.deeper, h.limit_left, h.limit_right, h.calm_left, h.calm_right, Nat.succ_pos _, hlt, hn, hm,
    Nat.max_le.mpr ⟨h.deepest_le, h.depth_eq ▸ hlt⟩, h.reported⟩

/-- At the lower limit the runs part, whether or not the other limit is reached too. -/
theorem InStep.part (h : InStep l L n m P Q p q) (hle : l ≤ p.depth) :
    Parted l P Q p.gaveUp q.deeper ∧ Parted l P Q p.gaveUp q.gaveUp := by
  obtain ⟨D, hp, hq⟩ := h.reported
  have hdeepest : l < max q.deepest (q.depth + 1) := by
    have hmax := Nat.le_max_right q.deepest (q.depth + 1)
    rw [← h.depth_eq] at hmax ⊢
    omega
  have hgaveUp : p.gaveUp.diagnostics.toList = P ++ D ++ [⟨.nestingTooDeep l, p.current.span.start⟩] := by
    rw [← hp, ← h.limit_left]
    simp [Parser.gaveUp]
  constructor
  · exact ⟨rfl, Nat.succ_pos _, hdeepest, D, _, hgaveUp, hq ▸ List.prefix_rfl⟩
  · exact ⟨rfl, Nat.succ_pos _, hdeepest, D, _, hgaveUp, hq ▸ q.grows_gaveUp.earlier⟩

theorem sim_inStep_descend (hlL : l ≤ L) :
    Sim (InStep l L n m P Q) (Parted l P Q) (fun _ => True) Parse.descend Parse.descend := by
  refine ⟨fun p q h => ?_, fun p q h => ?_, fun p q h => ?_⟩
  · rcases descend_cases p with ⟨ho, -⟩ | ⟨-, hlt, hxp⟩ | ⟨-, hle, hxp⟩
    · exact absurd (ho.symm.trans h.calm_left) (by decide)
    · have hroom : p.depth < l := h.limit_left ▸ hlt
      rcases descend_cases q with ⟨ho, -⟩ | ⟨-, -, hxq⟩ | ⟨-, hle, -⟩
      · exact absurd (ho.symm.trans h.calm_right) (by decide)
      · have hn := h.room_left
        have hm := h.room_right
        rw [hxp, hxq]
        exact .inl ⟨rfl, fun _ _ => trivial, h.deeper hroom (by omega) (by omega)⟩
      · rw [h.limit_right, ← h.depth_eq] at hle
        omega
    · have hpart := h.part (h.limit_left ▸ hle)
      rcases descend_cases q with ⟨ho, -⟩ | ⟨-, -, hxq⟩ | ⟨-, -, hxq⟩
      · exact absurd (ho.symm.trans h.calm_right) (by decide)
      · rw [hxp, hxq]
        exact .inr hpart.1
      · rw [hxp, hxq]
        exact .inr hpart.2
  · rcases descend_cases p with ⟨-, hxp⟩ | ⟨ho, -, -⟩ | ⟨ho, -, -⟩
    · rw [hxp]
      exact h
    · exact absurd (h.overflowed.symm.trans ho) (by decide)
    · exact absurd (h.overflowed.symm.trans ho) (by decide)
  · rcases descend_cases q with ⟨-, hxq⟩ | ⟨-, -, hxq⟩ | ⟨-, -, hxq⟩ <;> rw [hxq]
    · exact h
    · exact h.deeper_right
    · exact h.gaveUp_right

/-- One expression more around those inside which the runs are in step. -/
theorem sim_inStep_exprStep (hlL : l ≤ L) {sub sub' : SubExpr}
    (hsub : ∀ power, Sim (InStep l L n m P Q) (Parted l P Q) (fun _ => True) (sub power) (sub' power))
    (power : BindingPower) :
    Sim (InStep l L (n + 1) (m + 1) P Q) (Parted l P Q) (fun _ => True) (exprStep sub power) (exprStep sub' power) := by
  have hchain := Sim.chain locked_inStep hsub (sim_inStep_descend hlL) power
  refine ⟨fun p q h => ?_, fun p q h => h.exprStep_left sub power, fun p q h => h.exprStep_right hchain.right⟩
  have hn := h.room_left
  have hm := h.room_right
  rcases exprStep_cases sub power p with ⟨ho, -⟩ | ⟨-, hlt, hxp⟩ | ⟨-, hle, hxp⟩
  · exact absurd (ho.symm.trans h.calm_left) (by decide)
  · have hroom : p.depth < l := h.limit_left ▸ hlt
    rcases exprStep_cases sub' power q with ⟨ho, -⟩ | ⟨-, -, hxq⟩ | ⟨-, hle, -⟩
    · exact absurd (ho.symm.trans h.calm_right) (by decide)
    · rw [hxp, hxq]
      have hdeeper : InStep l L n m P Q p.deeper q.deeper := h.deeper hroom (by omega) (by omega)
      rcases hchain.run p.deeper q.deeper hdeeper with ⟨heq, hV, hin⟩ | hparted
      · refine .inl ⟨heq, hV, ?_⟩
        rw [Parser.unwind_of_calm _ hin.calm_left, Parser.unwind_of_calm _ hin.calm_right, ← h.depth_eq]
        exact ⟨hin.toAbreast.withDepth p.depth, hin.limit_left, hin.limit_right, hin.calm_left, hin.calm_right,
          h.inside, h.within, hn, hm, hin.deepest_le, hin.reported⟩
      -- Inside another expression the level is all that giving up brings back.
      · refine .inr (Parted.unwind_right ?_ _)
        rw [Parser.unwind_of_ne_zero _ (Nat.ne_of_gt h.inside)]
        exact ⟨hparted.overflowed, h.inside, hparted.lt_deepest, hparted.reported⟩
    · rw [h.limit_right, ← h.depth_eq] at hle
      omega
  -- The lower limit is reached just here, so it does not matter what the other run makes of the expression.
  · have hpart := h.part (h.limit_left ▸ hle)
    have hunwind : p.gaveUp.unwind p.depth = { p.gaveUp with depth := p.depth } :=
      Parser.unwind_of_ne_zero _ (Nat.ne_of_gt h.inside)
    rcases exprStep_cases sub' power q with ⟨ho, -⟩ | ⟨-, -, hxq⟩ | ⟨-, -, hxq⟩
    · exact absurd (ho.symm.trans h.calm_right) (by decide)
    · have hright := (hchain.right p.gaveUp q.deeper hpart.1).unwind_right q.depth
      rw [hxp, hxq, hunwind]
      exact .inr ⟨rfl, h.inside, hright.lt_deepest, hright.reported⟩
    · have hright := hpart.2.unwind_right q.depth
      rw [hxp, hxq, hunwind]
      exact .inr ⟨rfl, h.inside, hright.lt_deepest, hright.reported⟩

theorem Parted.exprWithin_left (h : Parted l P Q p q) (n : Nat) (power : BindingPower) :
    Parted l P Q (exprWithin (fun _ => fail) n power p).2 q := by
  cases n with
  | zero => exact h
  | succ n => exact h.exprStep_left _ power

/-- Without room left for expressions there are no runs in step, but runs that have parted stay so. -/
theorem sim_inStep_exprWithin (hlL : l ≤ L) (n m : Nat) (power : BindingPower) :
    Sim (InStep l L n m P Q) (Parted l P Q) (fun _ => True) (exprWithin (fun _ => fail) n power)
      (exprWithin (fun _ => fail) m power) := by
  induction m generalizing n power with
  | zero =>
    refine ⟨fun p q h => ?_, fun _ _ h => h.exprWithin_left n power, fun _ _ h => h⟩
    have hroom := h.room_right
    have hwithin := h.within
    omega
  | succ m ih =>
    cases n with
    | zero =>
      have hchain := Sim.chain locked_inStep (ih 0) (sim_inStep_descend hlL) power
      refine ⟨fun p q h => ?_, fun _ _ h => h, fun p q h => h.exprStep_right hchain.right⟩
      have hroom := h.room_left
      have hwithin := h.within
      omega
    | succ n => exact sim_inStep_exprStep hlL (ih n) power

end Parse

end FrontEnd
