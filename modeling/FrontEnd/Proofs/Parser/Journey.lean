import FrontEnd.Proofs.Parser.Traversal

/-!
What lies between the state that a step begins in and the one it ends in. A relation that the primitive steps go along
with is one that every step goes along with; the way back out of an expression is judged from the state it was entered
in.
-/

namespace FrontEnd.Parse

/-- Relations of a state to those that are reached from it. -/
structure Journey (T : Parser → Parser → Prop) : Prop where
  refl : ∀ p, T p p
  advance : ∀ p q, T p q → T p q.advance
  report : ∀ d : Diagnostic, d.Ordinary → ∀ p q, T p q → T p (q.report d)
  deeper : ∀ p q : Parser, q.overflowed = false → q.depth < q.limit → T p q → T p q.deeper
  gaveUp : ∀ p q : Parser, q.overflowed = false → q.limit ≤ q.depth → T p q → T p q.gaveUp
  unwind : ∀ p₀ p q, T p₀ p → T p q → T p₀ (q.unwind p.depth)

namespace Journey

variable {T : Parser → Parser → Prop} (hT : Journey T)

include hT

theorem locked (p : Parser) : Locked (Sim.Same (T p)) Sim.Never :=
  Sim.locked_same (hT.advance p) fun d hd => hT.report d hd p

theorem descend (p : Parser) : Sim (Sim.Same (T p)) Sim.Never (fun _ => True) Parse.descend Parse.descend := by
  apply Sim.sim_same_iff.mpr
  intro q hq
  rcases descend_cases q with ⟨-, h⟩ | ⟨ho, hlt, h⟩ | ⟨ho, hle, h⟩ <;> rw [h]
  · exact ⟨fun _ _ => trivial, hq⟩
  · exact ⟨fun _ _ => trivial, hT.deeper p q ho hlt hq⟩
  · exact ⟨fun _ _ => trivial, hT.gaveUp p q ho hle hq⟩

/-- Inside, the expression is a journey of its own, from where it was entered. -/
theorem nested {x : Parse Expr} (hx : ∀ p, Sim (Sim.Same (T p)) Sim.Never (fun _ => True) x x) (p : Parser) :
    Sim (Sim.Same (T p)) Sim.Never (fun _ => True) (Parse.nested x) (Parse.nested x) := by
  apply Sim.sim_same_iff.mpr
  intro q hq
  have hinside := (Sim.sim_same_iff.mp (hx q) q (hT.refl q)).2
  exact ⟨fun _ _ => trivial, hT.unwind p q _ hq hinside⟩

theorem chain {sub : SubExpr} (hsub : ∀ power p, Sim (Sim.Same (T p)) Sim.Never (fun _ => True) (sub power) (sub power))
    (power : BindingPower) (p : Parser) :
    Sim (Sim.Same (T p)) Sim.Never (fun _ => True) (Parse.chain sub power) (Parse.chain sub power) :=
  Sim.chain (hT.locked p) (fun power => hsub power p) (hT.descend p) power

theorem exprWithin (n : Nat) (power : BindingPower) (p : Parser) : Sim (Sim.Same (T p)) Sim.Never (fun _ => True)
    (Parse.exprWithin (fun _ => Parse.fail) n power) (Parse.exprWithin (fun _ => Parse.fail) n power) := by
  induction n generalizing power p with
  | zero => exact Sim.fail
  | succ n ih =>
    refine hT.nested (fun p => ?_) p
    exact (hT.descend p).bind fun _ => (hT.chain ih power p).mono fun _ _ _ => trivial

theorem expr (power : BindingPower) (p : Parser) :
    Sim (Sim.Same (T p)) Sim.Never (fun _ => True) (Parse.expr power) (Parse.expr power) := by
  apply Sim.sim_same_iff.mpr
  intro q hq
  exact Sim.sim_same_iff.mp (hT.exprWithin (q.limit + 1) power p) q hq

end Journey

end FrontEnd.Parse
