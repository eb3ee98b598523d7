import FrontEnd.Parser.Program
import FrontEnd.Proofs.Parser.Traversal

/-!
How deep the recursion through expressions goes. An expression inside another begins a level deeper, and past the limit
it only finds that it is too deep. So there is at most one more than the limit allows, and what would become of
expressions further inside makes no difference.
-/

namespace FrontEnd.Parse

variable {α : Type} {limit n : Nat} {p q : Parser}

/-- From here it takes no more than so many levels to get past the limit. -/
def Room (limit n : Nat) (p : Parser) : Prop :=
  p.limit = limit ∧ limit < p.depth + n

theorem Room.deeper (h : Room limit (n + 1) p) : Room limit n p.deeper := by
  obtain ⟨hlimit, hroom⟩ := h
  refine ⟨hlimit, ?_⟩
  show limit < p.depth + 1 + n
  omega

theorem Room.unwind (h : Room limit n p) (hq : q.limit = limit) : Room limit n (q.unwind p.depth) := by
  refine ⟨(q.unwind_limit p.depth).trans hq, ?_⟩
  rw [Parser.unwind_depth]
  exact h.2

namespace Sim

theorem locked_room (limit n : Nat) : Locked (Same (Room limit n)) Never := by
  refine locked_same (fun _ h => h) fun d _ p h => ⟨(p.report_limit d).trans h.1, ?_⟩
  rw [p.report_depth d]
  exact h.2

theorem descend_room (limit n : Nat) : Sim (Same (Room limit n)) Never (fun _ => True) descend descend := by
  apply sim_same_iff.mpr
  intro p hp
  have hdeeper : limit < p.depth + 1 + n := Nat.lt_of_lt_of_le hp.2 (Nat.add_le_add_right (Nat.le_succ _) n)
  rcases descend_cases p with ⟨-, h⟩ | ⟨-, -, h⟩ | ⟨-, -, h⟩ <;> rw [h]
  · exact ⟨fun _ _ => trivial, hp⟩
  · exact ⟨fun _ _ => trivial, hp.1, hdeeper⟩
  · exact ⟨fun _ _ => trivial, hp.1, hdeeper⟩

/-- A level deeper there is room for one level less. Where there is none, nothing is done there. -/
theorem guarded {x y : Parse α} (h : n ≠ 0 → Sim (Same (Room limit n)) Never (fun _ => True) x y) :
    Sim (Same (Room limit (n + 1))) Never (fun _ => True) (Parse.guarded x) (Parse.guarded y) := by
  apply sim_same_iff_eq.mpr
  intro p hp
  rcases guarded_cases x p with ⟨ho, hx⟩ | ⟨ho, hlt, hx⟩ | ⟨ho, hle, hx⟩
  · rcases guarded_cases y p with ⟨-, hy⟩ | ⟨ho', -⟩ | ⟨ho', -⟩
    · rw [hx, hy]
      exact ⟨rfl, fun _ _ => trivial, hp.unwind hp.1⟩
    · exact absurd (ho.symm.trans ho') (by decide)
    · exact absurd (ho.symm.trans ho') (by decide)
  · rcases guarded_cases y p with ⟨ho', -⟩ | ⟨-, -, hy⟩ | ⟨-, hle, -⟩
    · exact absurd (ho.symm.trans ho') (by decide)
    · have hn : n ≠ 0 := by
        have hlimit := hp.1
        have hroom := hp.2
        omega
      obtain ⟨heq, -, hafter⟩ := sim_same_iff_eq.mp (h hn) p.deeper hp.deeper
      rw [hx, hy, heq]
      rw [heq] at hafter
      exact ⟨rfl, fun _ _ => trivial, hp.unwind hafter.1⟩
    · exact absurd hlt (Nat.not_lt.mpr hle)
  · rcases guarded_cases y p with ⟨ho', -⟩ | ⟨-, hlt, -⟩ | ⟨-, -, hy⟩
    · exact absurd (ho.symm.trans ho') (by decide)
    · exact absurd hlt (Nat.not_lt.mpr hle)
    · rw [hx, hy]
      exact ⟨rfl, fun _ _ => trivial, hp.unwind hp.1⟩

variable {f g : SubExpr}

theorem exprStep_room (h : n ≠ 0 → ∀ power, Sim (Same (Room limit n)) Never (fun _ => True) (f power) (g power))
    (power : BindingPower) :
    Sim (Same (Room limit (n + 1))) Never (fun _ => True) (exprStep f power) (exprStep g power) :=
  guarded fun hn => chain (locked_room limit n) (h hn) (descend_room limit n) power

/-- What expressions would do a level deeper decides nothing of those around them, if there is room for one level only. -/
theorem exprWithin_guarded (f g : SubExpr) (n : Nat) (power : BindingPower) :
    Sim (Same (Room limit (n + 1))) Never (fun _ => True)
      (Parse.exprWithin (fun power => Parse.guarded (f power)) n power)
      (Parse.exprWithin (fun power => Parse.guarded (g power)) n power) := by
  induction n generalizing power with
  | zero => exact guarded fun h => absurd rfl h
  | succ n ih => exact exprStep_room (fun _ => ih) power

end Sim

theorem exprWithin_succ (f : SubExpr) (n : Nat) : exprWithin f (n + 1) = exprWithin (exprStep f) n := by
  induction n with
  | zero => rfl
  | succ n ih =>
    have hunfold : ∀ m, exprWithin f (m + 1) = exprStep (exprWithin f m) := fun _ => rfl
    rw [hunfold, ih]
    rfl

/-- Whatever expressions would do for which there is no room, they are never asked to. -/
theorem sim_exprWithin (f g : SubExpr) (n : Nat) (power : BindingPower) :
    Sim (Sim.Same (Room limit (n + 1))) Sim.Never (fun _ => True) (exprWithin f (n + 1) power)
      (exprWithin g (n + 1) power) := by
  rw [exprWithin_succ, exprWithin_succ]
  exact Sim.exprWithin_guarded (chain f) (chain g) n power

theorem chain_eq_of_room (f g : SubExpr) (power : BindingPower) (h : Room (n + 1) (n + 1) p) :
    chain (exprWithin f (n + 1)) power p = chain (exprWithin g (n + 1)) power p := by
  have hchain := Sim.chain (Sim.locked_room (n + 1) (n + 1)) (sim_exprWithin f g n) (Sim.descend_room _ _) power
  exact (Sim.sim_same_iff_eq.mp hchain p h).1

theorem expr_of_limit (hlimit : p.limit = limit) (power : BindingPower) :
    expr power p = exprWithin (fun _ => fail) (limit + 1) power p := by
  subst hlimit
  rfl

theorem room_limit (p : Parser) : Room p.limit (p.limit + 1) p :=
  ⟨rfl, Nat.lt_of_lt_of_le (Nat.lt_succ_self _) (Nat.le_add_left _ _)⟩

theorem exprWithin_beyond (beyond : SubExpr) (power : BindingPower) (p : Parser) :
    exprWithin beyond (p.limit + 1) power p = expr power p :=
  (Sim.sim_same_iff_eq.mp (sim_exprWithin beyond _ p.limit power) p (room_limit p)).1

/-- Expressions are parsed by the same step inside one another, as if nothing bounded the recursion. -/
theorem expr_eq (power : BindingPower) (p : Parser) : expr power p = exprStep expr power p := by
  -- Inside an expression there is room for one level less, and the step for one level less does the same there.
  have hinside : p.limit ≠ 0 → ∀ power, Sim (Sim.Same (Room p.limit p.limit)) Sim.Never (fun _ => True)
      (exprWithin (fun _ => fail) p.limit power) (expr power) := by
    intro hlimit power
    obtain ⟨n, hn⟩ : ∃ n, p.limit = n + 1 := ⟨p.limit - 1, by omega⟩
    rw [hn]
    apply Sim.sim_same_iff_eq.mpr
    intro q hq
    rw [expr_of_limit hq.1, exprWithin_succ _ (n + 1)]
    exact Sim.sim_same_iff_eq.mp (sim_exprWithin _ (exprStep fun _ => fail) n power) q hq
  exact (Sim.sim_same_iff_eq.mp (Sim.exprStep_room hinside power) p (room_limit p)).1

/-- A program with its expressions parsed by `sub`. -/
def programWith (sub : SubExpr) : Parse Program := do
  let statements ← stmtsUntil sub fun k => k == .eof
  return ⟨statements.toList⟩

theorem program_eq_programWith (beyond : SubExpr) (p : Parser) :
    programWith (exprWithin (fun power => guarded (beyond power)) p.limit) p = program p := by
  have hexpr : ∀ power, Sim (Sim.Same (Room p.limit (p.limit + 1))) Sim.Never (fun _ => True)
      (exprWithin (fun power => guarded (beyond power)) p.limit power) (expr power) := by
    intro power
    apply Sim.sim_same_iff_eq.mpr
    intro q hq
    rw [expr_of_limit hq.1, exprWithin_succ]
    exact Sim.sim_same_iff_eq.mp (Sim.exprWithin_guarded beyond (chain fun _ => fail) p.limit power) q hq
  have hstmts := Sim.stmtsUntil (Q := fun _ => True) (Sim.locked_room p.limit (p.limit + 1)) hexpr
    (fun _ _ _ => trivial) fun k => k == .eof
  have hprogram : Sim (Sim.Same (Room p.limit (p.limit + 1))) Sim.Never (fun _ => True)
      (programWith (exprWithin (fun power => guarded (beyond power)) p.limit)) program :=
    hstmts.bind fun _ => Sim.pure fun _ => trivial
  exact (Sim.sim_same_iff_eq.mp hprogram p (room_limit p)).1

/-- No more than 257 expressions are ever parsed inside one another, and of those no more than 256 go a level deeper:
whatever a 258th would do to the parser, or a 257th a level deeper, nothing of it is ever seen. -/
theorem program_eq_of_beyond (beyond : SubExpr) (source : TokenSource) :
    programWith (exprWithin beyond (maxNestingDepth + 1)) (Parser.ofSource source) =
        program (Parser.ofSource source) ∧
      programWith (exprWithin (fun power => guarded (beyond power)) maxNestingDepth) (Parser.ofSource source) =
        program (Parser.ofSource source) := by
  constructor
  · rw [exprWithin_succ]
    exact program_eq_programWith (chain beyond) (Parser.ofSource source)
  · exact program_eq_programWith beyond (Parser.ofSource source)

end FrontEnd.Parse
