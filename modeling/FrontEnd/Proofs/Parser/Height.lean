import FrontEnd.Proofs.Parser.Program
import FrontEnd.Proofs.Parser.Traversal
import FrontEnd.Proofs.Parser.Triple

/-!
How high the trees of a parse get. The limit bounds how deep expressions are read inside one another, but an operator
takes a level only while its expression is read, so what is to its left can be as high as if it stood alone.
-/

namespace FrontEnd

variable {rise limit : Nat}

/-- The height that fits into a number of levels: each level holds one node, and on top of it as many operators as there
are levels below. -/
def heightWithin (rise : Nat) : Nat → Nat
  | 0 => 0
  | n + 1 => heightWithin rise n + 1 + rise * n

theorem heightWithin_mono {m n : Nat} (h : m ≤ n) : heightWithin rise m ≤ heightWithin rise n := by
  induction h with
  | refl => exact Nat.le_refl _
  | step _ ih =>
    rw [heightWithin, Nat.add_assoc]
    exact Nat.le_add_right_of_le ih

theorem heightWithin_eq (n : Nat) : heightWithin rise n = n + rise * (n * (n - 1) / 2) := by
  induction n with
  | zero => rfl
  | succ n ih =>
    have hsum : (n + 1) * n / 2 = n * (n - 1) / 2 + n := by
      cases n with
      | zero => rfl
      | succ n =>
        have hring : (n + 2) * (n + 1) = (n + 1) * n + (n + 1) * 2 := by
          rw [← Nat.mul_add, Nat.mul_comm]
        rw [Nat.add_sub_cancel, hring, Nat.add_mul_div_right _ _ (by decide)]
    rw [heightWithin, ih, Nat.add_sub_cancel, hsum, Nat.mul_add]
    omega

namespace Parse

/-- On a level of its own. -/
def At (limit depth : Nat) (p : Parser) : Prop :=
  p.limit = limit ∧ p.depth = depth

theorem locked_at (limit depth : Nat) : Locked (Sim.Same (At limit depth)) Sim.Never := by
  refine Sim.locked_same (fun p h => h) fun d _ p h => ?_
  unfold Parser.report
  split
  · exact h
  · exact h

/-- The expressions that begin on a level are no higher than what fits into the levels above it. -/
def Bounded (rise limit depth : Nat) (sub : SubExpr) : Prop :=
  ∀ power, Sim (Sim.Same (At limit depth)) Sim.Never (fun e => e.height rise ≤ heightWithin rise (limit - depth))
    (sub power) (sub power)

variable {depth : Nat} {sub : SubExpr}

/-- A fold goes one level deeper, and puts an operator on what is to its left or leaves that as it is. -/
theorem fold_height (hsub : ∀ depth, Bounded rise limit depth sub) (left : Expr) {p : Parser} (hp : p.limit = limit) :
    (fold sub left p).2.limit = limit ∧ ∀ e, (fold sub left p).1 = some e →
      p.depth < limit ∧ (fold sub left p).2.depth = p.depth + 1 ∧
        (e = left ∨ e.height rise ≤ max (left.height rise + rise) (heightWithin rise (limit - (p.depth + 1)) + 1)) := by
  have hbody := Sim.foldBody (locked_at limit (p.depth + 1)) (hsub (p.depth + 1)) left
  have hspec := (Sim.sim_same_iff.mp hbody) p.deeper ⟨hp, rfl⟩
  rw [fold_eq, bind_apply]
  rcases descend_cases p with ⟨-, h⟩ | ⟨-, hlt, h⟩ | ⟨-, -, h⟩ <;> rw [h]
  · exact ⟨hp, fun e he => nomatch he⟩
  · obtain ⟨hvalue, hlimit, hdepth⟩ := hspec
    refine ⟨hlimit, fun e he => ⟨hp ▸ hlt, hdepth, ?_⟩⟩
    rcases hvalue e he with hleft | hontop
    · exact .inl hleft
    · exact .inr hontop.height_le
  · exact ⟨hp, fun e he => nomatch he⟩

/-- The expression so far, in a round of the loop over operators: each operator has been paid for with a level. -/
structure Climbing (rise limit depth : Nat) (left : Expr) (q : Parser) : Prop where
  limit_eq : q.limit = limit
  above : depth + 1 ≤ q.depth
  within : q.depth ≤ limit
  height_le : left.height rise ≤ heightWithin rise (limit - (depth + 1)) + 1 + rise * (q.depth - (depth + 1))

theorem Climbing.fold (hsub : ∀ depth, Bounded rise limit depth sub) {left : Expr} {q : Parser}
    (h : Climbing rise limit depth left q) : (Parse.fold sub left q).2.limit = limit ∧
      ∀ e, (Parse.fold sub left q).1 = some e → Climbing rise limit depth e (Parse.fold sub left q).2 := by
  obtain ⟨hlimit, hnext⟩ := fold_height hsub left h.limit_eq
  refine ⟨hlimit, fun e he => ?_⟩
  obtain ⟨hroom, hdepth, hcases⟩ := hnext e he
  have habove := h.above
  have hheight := h.height_le
  -- What stands to the right of the operator begins deeper down, so it is no higher than the first operand may be.
  have hmono : heightWithin rise (limit - (q.depth + 1)) ≤ heightWithin rise (limit - (depth + 1)) := by
    apply heightWithin_mono
    omega
  have hstep : rise * ((Parse.fold sub left q).2.depth - (depth + 1)) = rise * (q.depth - (depth + 1)) + rise := by
    rw [hdepth, Nat.sub_add_comm habove, Nat.mul_succ]
  refine ⟨hlimit, by omega, by omega, ?_⟩
  rw [hstep]
  rcases hcases with rfl | hmax
  · omega
  · omega

/-- There are no more levels to pay with than the limit allows. -/
theorem Climbing.height_le_heightWithin {e : Expr} {q : Parser} (h : Climbing rise limit depth e q) :
    e.height rise ≤ heightWithin rise (limit - depth) := by
  have habove := h.above
  have hwithin := h.within
  have hheight := h.height_le
  obtain ⟨n, rfl⟩ : ∃ n, limit = depth + 1 + n := ⟨limit - (depth + 1), by omega⟩
  have hrise : rise * (q.depth - (depth + 1)) ≤ rise * n := by
    apply Nat.mul_le_mul_left
    omega
  have hn : depth + 1 + n - depth = n + 1 := by omega
  rw [Nat.add_sub_cancel_left] at hheight
  rw [hn, heightWithin]
  exact Nat.le_trans hheight (Nat.add_le_add_left hrise _)

theorem chain_height (hsub : ∀ depth, Bounded rise limit depth sub) (power : BindingPower) {p : Parser}
    (hp : At limit (depth + 1) p) (hlt : depth < limit) :
    (chain sub power p).2.limit = limit ∧
      ∀ e, (chain sub power p).1 = some e → e.height rise ≤ heightWithin rise (limit - depth) := by
  have hlabel : ∀ label (e : Expr), e.height rise ≤ heightWithin rise (limit - (depth + 1)) →
      (e.labelled label).height rise ≤ heightWithin rise (limit - (depth + 1)) := by
    intro label e he
    rwa [Expr.height_labelled]
  have hoperand := Sim.sim_same_iff.mp (Sim.operand (locked_at limit (depth + 1)) (hsub (depth + 1)) hlabel) p hp
  have hloop : ∀ left, Triple (Climbing rise limit depth left) (repeatWhile (bindsTighter power) (fold sub) left)
      (Climbing rise limit depth) fun q => q.limit = limit :=
    Triple.repeatWhile fun left q h => ⟨(h.fold hsub).2, fun _ => (h.fold hsub).1⟩
  unfold chain
  rw [bind_apply]
  obtain ⟨hvalue, hlimit, hdepth⟩ := hoperand
  rcases hr : operand sub p with ⟨_ | left, q⟩ <;> rw [hr] at hvalue hlimit hdepth
  · exact ⟨hlimit, fun e he => nomatch he⟩
  · have hleft : left.height rise ≤ heightWithin rise (limit - (depth + 1)) + 1 := by
      rcases hvalue left rfl with hgroup | hparts
      · exact Nat.le_succ_of_le hgroup
      · exact hparts.height_le
    have hstart : Climbing rise limit depth left q :=
      ⟨hlimit, Nat.le_of_eq hdepth.symm, hdepth ▸ hlt, Nat.le_add_right_of_le hleft⟩
    exact ⟨(hloop left).ends (fun _ _ h => h.limit_eq) hstart, fun e he =>
      ((hloop left q hstart).1 e he).height_le_heightWithin⟩

theorem bounded_exprStep (hsub : ∀ depth, Bounded rise limit depth sub) (depth : Nat) :
    Bounded rise limit depth (exprStep sub) := by
  intro power
  apply Sim.sim_same_iff.mpr
  intro p hp
  obtain ⟨hlimit, rfl⟩ := hp
  rcases exprStep_cases sub power p with ⟨-, h⟩ | ⟨-, hlt, h⟩ | ⟨-, -, h⟩ <;> rw [h]
  · exact ⟨fun e he => (nomatch he), (p.unwind_limit _).trans hlimit, p.unwind_depth _⟩
  · have hat : At limit (p.depth + 1) p.deeper := ⟨hlimit, rfl⟩
    obtain ⟨hlimit', hheight⟩ := chain_height hsub power hat (hlimit ▸ hlt)
    exact ⟨hheight, (Parser.unwind_limit _ _).trans hlimit', Parser.unwind_depth _ _⟩
  · exact ⟨fun e he => (nomatch he), (Parser.unwind_limit _ _).trans hlimit, Parser.unwind_depth _ _⟩

theorem bounded_exprWithin (n depth : Nat) : Bounded rise limit depth (exprWithin (fun _ => fail) n) := by
  induction n generalizing depth with
  | zero => exact fun _ => Sim.fail
  | succ n ih => exact bounded_exprStep ih depth

theorem bounded_expr (depth : Nat) : Bounded rise limit depth expr := by
  intro power
  apply Sim.sim_same_iff.mpr
  intro p hp
  exact Sim.sim_same_iff.mp (bounded_exprWithin (p.limit + 1) depth power) p hp

theorem program_height (limit : Nat) (source : TokenSource) :
    ((program (Parser.withLimit limit source)).1.getD ⟨[]⟩).height rise ≤ heightWithin rise limit := by
  have hlabel : ∀ label (e : Expr), e.height rise ≤ heightWithin rise (limit - 0) →
      (e.labelled label).height rise ≤ heightWithin rise (limit - 0) := by
    intro label e he
    rwa [Expr.height_labelled]
  have hstmts := Sim.stmtsUntil (locked_at limit 0) (bounded_expr 0) hlabel fun k => k == .eof
  have hspec := Sim.sim_same_iff.mp hstmts (Parser.withLimit limit source) ⟨rfl, rfl⟩
  unfold program
  rw [bind_apply]
  rcases hr : stmtsUntil expr (fun k => k == .eof) (Parser.withLimit limit source) with ⟨_ | found, q⟩
  · exact Nat.zero_le _
  · rw [hr] at hspec
    apply stmtsHeight_le_iff.mpr
    intro s hs
    exact (hspec.1 found rfl s (Array.mem_toList_iff.mp hs)).height_le

end Parse

theorem height_parseWithin_le (limit : Nat) (T : List Token) :
    (parseWithin limit T).1.height rise ≤ heightWithin rise limit :=
  Parse.program_height limit _

end FrontEnd
