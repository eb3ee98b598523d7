import FrontEnd.Proofs.Parser.Limit
import FrontEnd.Proofs.Parser.Phrase
import FrontEnd.Proofs.Parser.Recursion

/-!
Expressions before a closing brace that is not theirs. Whatever is wrong with them, they stop before it, unless they are
given up. Only an operand that should begin on the brace moves past it, and that is reported.
-/

namespace FrontEnd

/-- Neither a brace nor an end. -/
def Kind.Plain (k : Kind) : Prop :=
  k ≠ .openCurly ∧ k ≠ .closeCurly ∧ k ≠ .eof

instance : DecidablePred Kind.Plain :=
  fun _ => inferInstanceAs (Decidable (_ ∧ _ ∧ _))

/-- A closing brace was found where an operand should begin. -/
def Fault.swallows : Fault → Bool
  | noOperand kind _ => kind == .closeCurly
  | _ => false

/-- A block was not closed. -/
def Fault.unclosed : Fault → Bool
  | unterminatedBlock _ => true
  | _ => false

def Fault.harmless (fault : Fault) : Bool :=
  !fault.swallows && !fault.unclosed

namespace Parser

variable {stop : Position} {ts T : List Token} {P : List Diagnostic} {p q : Parser}

/-- Before the last ones of the tokens `T`, which may hold ends of their own. -/
def Within (stop : Position) (T : List Token) (p : Parser) : Prop :=
  ∃ us, p.Sees stop us ∧ us <:+ T

theorem Sees.of_window (h : q.Sees stop ts) (hcurrent : p.current = q.current) (hpeek : p.peek = q.peek)
    (hsource : p.source = q.source) : p.Sees stop ts :=
  ⟨hcurrent.trans h.current_eq, hpeek.trans h.peek_eq, hsource.trans h.source_eq⟩

theorem Sees.report (h : p.Sees stop ts) (d : Diagnostic) : (p.report d).Sees stop ts := by
  unfold Parser.report
  split
  · exact h
  · exact h.of_window rfl rfl rfl

theorem Sees.within (h : p.Sees stop ts) : p.Within stop ts :=
  ⟨ts, h, List.suffix_rfl⟩

/-- Since `P` was reported, nothing about braces has been. -/
def Unharmed (P : List Diagnostic) (p : Parser) : Prop :=
  ∃ D, p.diagnostics.toList = P ++ D ∧ ∀ d ∈ D, d.fault.harmless = true

/-- Since `P` was reported, it has been that a closing brace stands where an operand should begin. -/
def BraceTaken (P : List Diagnostic) (p : Parser) : Prop :=
  ∃ D, p.diagnostics.toList = P ++ D ∧ ∃ d ∈ D, d.fault.swallows = true

/-- A closing brace was taken, so only the last ones of the tokens `T` are left. -/
structure Swallowed (stop : Position) (T : List Token) (P : List Diagnostic) (p : Parser) : Prop where
  within : p.Within stop T
  taken : p.BraceTaken P

theorem Unharmed.push (h : p.Unharmed P) {d : Diagnostic} (hd : d.fault.harmless = true) :
    ∃ D, (p.diagnostics.push d).toList = P ++ D ∧ ∀ d ∈ D, d.fault.harmless = true := by
  obtain ⟨D, hD, hall⟩ := h
  refine ⟨D ++ [d], by simp [hD], fun d' hd' => ?_⟩
  rcases List.mem_append.mp hd' with hd' | hd'
  · exact hall d' hd'
  · obtain rfl := List.mem_singleton.mp hd'
    exact hd

theorem Unharmed.report (h : p.Unharmed P) {d : Diagnostic} (hd : d.fault.harmless = true) :
    (p.report d).Unharmed P := by
  unfold Parser.report
  split
  · exact h
  · exact h.push hd

theorem unharmed_refl (p : Parser) : p.Unharmed p.diagnostics.toList :=
  ⟨[], (List.append_nil _).symm, fun _ hd => absurd hd List.not_mem_nil⟩

theorem Unharmed.trans (h : p.Unharmed P) (hq : q.Unharmed p.diagnostics.toList) : q.Unharmed P := by
  obtain ⟨D, hD, hharmless⟩ := h
  obtain ⟨E, hE, hharmless'⟩ := hq
  refine ⟨D ++ E, by rw [hE, hD, List.append_assoc], fun d hd => ?_⟩
  rcases List.mem_append.mp hd with hd | hd
  · exact hharmless d hd
  · exact hharmless' d hd

theorem BraceTaken.of_unharmed (h : p.Unharmed P) (hq : q.BraceTaken p.diagnostics.toList) : q.BraceTaken P := by
  obtain ⟨D, hD, -⟩ := h
  obtain ⟨E, hE, d, hd, hswallows⟩ := hq
  exact ⟨D ++ E, by rw [hE, hD, List.append_assoc], d, List.mem_append_right D hd, hswallows⟩

theorem BraceTaken.grows (h : p.BraceTaken P) (hq : p.diagnostics.toList <+: q.diagnostics.toList) :
    q.BraceTaken P := by
  obtain ⟨D, hD, d, hd, hswallows⟩ := h
  obtain ⟨E, hE⟩ := hq
  exact ⟨D ++ E, by rw [← hE, hD, List.append_assoc], d, List.mem_append_left E hd, hswallows⟩

theorem Unharmed.congr (h : p.Unharmed P) (hq : q.diagnostics = p.diagnostics) : q.Unharmed P := by
  unfold Unharmed
  rw [hq]
  exact h

end Parser

namespace Parse

theorem invariant_within (stop : Position) (T : List Token) : Invariant (Parser.Within stop T) := by
  refine invariant_of_window ?_ ?_
  · rintro p ⟨us, hus, hsuffix⟩
    exact ⟨us.tail, hus.advance, (List.tail_suffix us).trans hsuffix⟩
  · rintro p q hcurrent hpeek hsource ⟨us, hus, hsuffix⟩
    exact ⟨us, hus.of_window hcurrent hpeek hsource, hsuffix⟩

theorem invariant_swallowed (stop : Position) (T : List Token) (P : List Diagnostic) :
    Invariant (Parser.Swallowed stop T P) := by
  have hwithin := invariant_within stop T
  have hgrows : ∀ p q : Parser, p.Grows q → q.Within stop T → p.Swallowed stop T P → q.Swallowed stop T P := by
    intro p q hpq hq h
    exact ⟨hq, h.taken.grows hpq.earlier⟩
  constructor
  · exact fun p h => hgrows p _ p.grows_advance (hwithin.advance p h.within) h
  · exact fun d hd p h => hgrows p _ (p.grows_report d) (hwithin.report d hd p h.within) h
  · exact fun p h => hgrows p _ p.grows_deeper (hwithin.deeper p h.within) h
  · exact fun p hle h => hgrows p _ p.grows_gaveUp (hwithin.gaveUp p hle h.within) h
  · exact fun depth p h => hgrows p _ (p.grows_unwind depth) (hwithin.unwind depth p h.within) h

end Parse

/-- A closing brace and what comes behind it, and what had been reported before. -/
structure Brace where
  stop : Position
  tokens : List Token
  earlier : List Diagnostic
  closes : headKind tokens = .closeCurly

namespace Brace

variable (b : Brace)

/-- Inside an expression, with `us` before the brace. -/
structure Facing (us : List Token) (p : Parser) : Prop where
  sees : p.Sees b.stop (us ++ b.tokens)
  plain : ∀ t ∈ us, t.kind.Plain
  calm : p.overflowed = false
  unharmed : p.Unharmed b.earlier
  inside : 0 < p.depth

/-- Inside an expression that is being given up, or one that has moved past the brace. -/
structure Spent (p : Parser) : Prop where
  inside : 0 < p.depth
  cause : (p.overflowed = true ∧ p.Unharmed b.earlier) ∨ p.Swallowed b.stop b.tokens b.earlier

/-- The brace is at least `n` tokens ahead, unless the expression is spent. -/
def Before (n : Nat) (p : Parser) : Prop :=
  b.Spent p ∨ ∃ us, n ≤ us.length ∧ b.Facing us p

/-- From `n` tokens before the brace the step stops before it, be it in a failure. -/
def Settles {α : Type} (n : Nat) (x : Parse α) : Prop :=
  ∀ p, b.Before n p → b.Before 1 (x p).2

variable {b} {t u : Token} {us : List Token} {n : Nat} {p q : Parser}

namespace Facing

theorem current_eq (h : b.Facing (t :: us) p) : p.current = t :=
  h.sees.current_eq

theorem current_kind_nil (h : b.Facing [] p) : p.current.kind = .closeCurly := by
  rw [h.sees.current_eq, headD_eof_kind]
  exact b.closes

theorem peek_eq (h : b.Facing (t :: u :: us) p) : p.peek = u :=
  h.sees.peek_eq

theorem peek_kind (h : b.Facing [t] p) : p.peek.kind = .closeCurly := by
  rw [h.sees.peek_eq]
  show (b.tokens.headD _).kind = _
  rw [headD_eof_kind]
  exact b.closes

theorem peek_ne_openCurly (h : b.Facing (t :: us) p) : p.peek.kind ≠ .openCurly := by
  cases us with
  | nil =>
    rw [h.peek_kind]
    decide
  | cons u us =>
    rw [h.peek_eq]
    exact (h.plain u (List.mem_cons_of_mem t List.mem_cons_self)).1

theorem advance (h : b.Facing (t :: us) p) : b.Facing us p.advance :=
  ⟨h.sees.advance, (List.forall_mem_cons.mp h.plain).2, h.calm, h.unharmed, h.inside⟩

theorem report (h : b.Facing us p) {d : Diagnostic} (hd : d.fault.harmless = true) : b.Facing us (p.report d) := by
  refine ⟨h.sees.report d, h.plain, ?_, h.unharmed.report hd, ?_⟩
  · rw [p.report_overflowed]
    exact h.calm
  · rw [p.report_depth]
    exact h.inside

theorem deeper (h : b.Facing us p) : b.Facing us p.deeper :=
  ⟨h.sees.of_window rfl rfl rfl, h.plain, h.calm, h.unharmed, Nat.succ_pos _⟩

theorem gaveUp (h : b.Facing us p) : b.Spent p.gaveUp :=
  ⟨Nat.succ_pos _, .inl ⟨rfl, h.unharmed.push rfl⟩⟩

theorem unwind (h : b.Facing us p) {depth : Nat} (hdepth : 0 < depth) : b.Facing us (p.unwind depth) := by
  rw [Parser.unwind_of_calm depth h.calm]
  exact ⟨h.sees.of_window rfl rfl rfl, h.plain, h.calm, h.unharmed, hdepth⟩

/-- An operand that should begin on the brace is reported. -/
theorem swallowed (h : b.Facing [] p) :
    b.Spent (p.report ⟨.noOperand p.current.kind p.current.value, p.current.span.start⟩) := by
  refine ⟨?_, .inr ⟨(h.sees.report _).within, ?_⟩⟩
  · rw [p.report_depth]
    exact h.inside
  · obtain ⟨D, hD, -⟩ := h.unharmed
    unfold Parser.BraceTaken
    rw [p.report_of_calm _ h.calm, h.current_kind_nil]
    exact ⟨D ++ [⟨.noOperand .closeCurly p.current.value, p.current.span.start⟩], by simp [hD], _,
      List.mem_append_right D (List.mem_singleton_self _), rfl⟩

end Facing

namespace Spent

theorem advance (h : b.Spent p) : b.Spent p.advance :=
  ⟨h.inside, h.cause.imp id ((Parse.invariant_swallowed _ _ _).advance p)⟩

theorem report (h : b.Spent p) {d : Diagnostic} (hd : d.Ordinary) : b.Spent (p.report d) := by
  refine ⟨?_, ?_⟩
  · rw [p.report_depth]
    exact h.inside
  · rcases h.cause with ⟨ho, hunharmed⟩ | hswallowed
    · rw [Parse.report_of_overflowed ho]
      exact .inl ⟨ho, hunharmed⟩
    · exact .inr ((Parse.invariant_swallowed _ _ _).report d hd p hswallowed)

theorem deeper (h : b.Spent p) : b.Spent p.deeper :=
  ⟨Nat.succ_pos _, h.cause.imp id ((Parse.invariant_swallowed _ _ _).deeper p)⟩

/-- What is not being given up has moved past the brace. -/
theorem gaveUp (h : b.Spent p) (hcalm : p.overflowed = false) (hle : p.limit ≤ p.depth) : b.Spent p.gaveUp := by
  refine ⟨Nat.succ_pos _, ?_⟩
  rcases h.cause with ⟨ho, -⟩ | hswallowed
  · exact absurd (hcalm.symm.trans ho) (by decide)
  · exact .inr ((Parse.invariant_swallowed _ _ _).gaveUp p hle hswallowed)

theorem unwind (h : b.Spent p) {depth : Nat} (hdepth : 0 < depth) : b.Spent (p.unwind depth) := by
  refine ⟨?_, ?_⟩
  · rw [p.unwind_depth]
    exact hdepth
  · rcases h.cause with ⟨ho, hunharmed⟩ | hswallowed
    · refine .inl ⟨(p.unwind_overflowed depth).mpr ⟨Nat.ne_of_gt hdepth, ho⟩, hunharmed.congr ?_⟩
      exact p.unwind_diagnostics depth
    · exact .inr ((Parse.invariant_swallowed _ _ _).unwind depth p hswallowed)

theorem descend (h : b.Spent p) : b.Spent (Parse.descend p).2 := by
  rcases Parse.descend_cases p with ⟨-, heq⟩ | ⟨-, -, heq⟩ | ⟨ho, hle, heq⟩ <;> rw [heq]
  · exact h
  · exact h.deeper
  · exact h.gaveUp ho hle

end Spent

open Parse (Sim)

/-! Inside an expression that is spent, everything is. -/

/-- The step leaves what is spent spent. -/
abbrev Spends {α : Type} (b : Brace) (x : Parse α) : Prop :=
  Sim (Sim.Same b.Spent) Sim.Never (fun _ => True) x x

theorem Spends.spent {α : Type} {x : Parse α} (h : b.Spends x) (p : Parser) (hp : b.Spent p) : b.Spent (x p).2 :=
  (Sim.sim_same_iff.mp h p hp).2

theorem locked_spent (b : Brace) : Parse.Locked (Sim.Same b.Spent) Sim.Never :=
  Sim.locked_same (fun _ h => h.advance) fun _ hd _ h => h.report hd

theorem spends_descend (b : Brace) : b.Spends Parse.descend :=
  Sim.sim_same_iff.mpr fun _ h => ⟨fun _ _ => trivial, h.descend⟩

theorem spends_nested (b : Brace) (x y : Parse Expr) (h : Sim (Sim.Same b.Spent) Sim.Never (fun _ => True) x y) :
    Sim (Sim.Same b.Spent) Sim.Never (fun _ => True) (Parse.nested x) (Parse.nested y) := by
  apply Sim.sim_same_iff_eq.mpr
  intro p hp
  obtain ⟨heq, -, hspent⟩ := Sim.sim_same_iff_eq.mp h p hp
  have hnested : ∀ x : Parse Expr, Parse.nested x p = ((x p).1, (x p).2.unwind p.depth) := fun _ => rfl
  rw [hnested, hnested, ← heq]
  exact ⟨rfl, fun _ _ => trivial, hspent.unwind hp.inside⟩

theorem spends_exprStep {sub : SubExpr} (hsub : ∀ power, b.Spends (sub power)) (power : BindingPower) :
    b.Spends (Parse.exprStep sub power) := by
  have hchain := Sim.chain b.locked_spent hsub b.spends_descend power
  exact b.spends_nested _ _ (b.spends_descend.bind fun _ => hchain.mono fun _ _ _ => trivial)

namespace Before

theorem mono {m : Nat} (h : b.Before n p) (hm : m ≤ n) : b.Before m p :=
  h.imp_right fun ⟨us, hn, hfacing⟩ => ⟨us, Nat.le_trans hm hn, hfacing⟩

theorem inside (h : b.Before n p) : 0 < p.depth := by
  rcases h with hspent | ⟨us, -, hfacing⟩
  · exact hspent.inside
  · exact hfacing.inside

theorem advance (h : b.Before (n + 1) p) : b.Before n p.advance := by
  rcases h with hspent | ⟨us, hn, hfacing⟩
  · exact .inl hspent.advance
  · cases us with
    | nil => exact absurd hn (Nat.not_succ_le_zero n)
    | cons t us => exact .inr ⟨us, Nat.le_of_succ_le_succ hn, hfacing.advance⟩

theorem report (h : b.Before n p) {d : Diagnostic} (hordinary : d.Ordinary) (hd : d.fault.harmless = true) :
    b.Before n (p.report d) := by
  rcases h with hspent | ⟨us, hn, hfacing⟩
  · exact .inl (hspent.report hordinary)
  · exact .inr ⟨us, hn, hfacing.report hd⟩

theorem deeper (h : b.Before n p) : b.Before n p.deeper :=
  h.imp (fun hspent => hspent.deeper) fun ⟨us, hn, hfacing⟩ => ⟨us, hn, hfacing.deeper⟩

theorem gaveUp (h : b.Before n p) (ho : p.overflowed = false) (hle : p.limit ≤ p.depth) : b.Spent p.gaveUp := by
  rcases h with hspent | ⟨us, -, hfacing⟩
  · exact hspent.gaveUp ho hle
  · exact hfacing.gaveUp

theorem unwind (h : b.Before n p) {depth : Nat} (hdepth : 0 < depth) : b.Before n (p.unwind depth) := by
  rcases h with hspent | ⟨us, hn, hfacing⟩
  · exact .inl (hspent.unwind hdepth)
  · exact .inr ⟨us, hn, hfacing.unwind hdepth⟩

theorem spent (h : b.Before n p) (ho : p.overflowed = true) : b.Spent p := by
  rcases h with hspent | ⟨us, -, hfacing⟩
  · exact hspent
  · exact absurd (hfacing.calm.symm.trans ho) (by decide)

theorem exists_cons (h : b.Before 1 p) : b.Spent p ∨ ∃ t us, b.Facing (t :: us) p := by
  refine h.imp_right fun ⟨us, hn, hfacing⟩ => ?_
  cases us with
  | nil => exact absurd hn (Nat.not_succ_le_zero 0)
  | cons t us => exact ⟨t, us, hfacing⟩

/-- An operand does not begin on the brace. -/
theorem of_operand (h : b.Before 0 p) (hkind : p.current.kind.operand? ≠ none) : b.Before 1 p := by
  rcases h with hspent | ⟨us, -, hfacing⟩
  · exact .inl hspent
  · cases us with
    | nil =>
      rw [hfacing.current_kind_nil] at hkind
      exact absurd rfl hkind
    | cons t us => exact .inr ⟨t :: us, Nat.succ_pos _, hfacing⟩

theorem of_peek (h : b.Before 1 p) (hpeek : p.peek.kind ≠ .closeCurly) : b.Before 2 p := by
  rcases h.exists_cons with hspent | ⟨t, us, hfacing⟩
  · exact .inl hspent
  · cases us with
    | nil => exact absurd hfacing.peek_kind hpeek
    | cons u us => exact .inr ⟨t :: u :: us, Nat.succ_le_succ (Nat.succ_pos _), hfacing⟩

/-- Where no operand begins, that is reported; so only if the brace is reached already, it is moved past. -/
theorem noOperand (h : b.Before 0 p) : b.Before 1 (Parse.noOperand p.current p).2 := by
  show b.Before 1 (p.report ⟨.noOperand p.current.kind p.current.value, p.current.span.start⟩)
  rcases h with hspent | ⟨us, -, hfacing⟩
  · exact .inl (hspent.report fun _ h => nomatch h)
  · cases us with
    | nil => exact .inl hfacing.swallowed
    | cons t us =>
      have hplain := hfacing.plain t List.mem_cons_self
      refine .inr ⟨t :: us, Nat.succ_pos _, hfacing.report ?_⟩
      rw [hfacing.current_eq]
      simp [Fault.harmless, Fault.swallows, Fault.unclosed, hplain.2.1]

end Before

namespace Settles

open Parse

variable {α β σ : Type}

theorem ofOption (o : Option α) : b.Settles 1 (Parse.ofOption o) :=
  fun _ h => h

theorem pure (a : α) : b.Settles 1 (Pure.pure a : Parse α) :=
  ofOption (some a)

theorem fail : b.Settles 1 (Parse.fail : Parse α) :=
  ofOption none

theorem attempt {x : Parse α} (h : b.Settles n x) : b.Settles n (Parse.attempt x) :=
  h

theorem bind {x : Parse α} {f : α → Parse β} (hx : b.Settles n x) (hf : ∀ a, b.Settles 1 (f a)) :
    b.Settles n (x >>= f) := by
  intro p hp
  have hnext := hx p hp
  rw [bind_apply]
  generalize x p = r at hnext ⊢
  rcases r with ⟨_ | a, q⟩
  · exact hnext
  · exact hf a q hnext

theorem current_dispatch {f : Token → Parse β} (hf : ∀ p, b.Before n p → b.Before 1 (f p.current p).2) :
    b.Settles n (Parse.current >>= f) :=
  hf

theorem current_bind {f : Token → Parse β} (hf : ∀ token, b.Settles n (f token)) :
    b.Settles n (Parse.current >>= f) :=
  current_dispatch fun p => hf p.current p

theorem report {d : Diagnostic} (hordinary : d.Ordinary) (hd : d.fault.harmless = true) :
    b.Settles 1 (Parse.report d) :=
  fun _ h => h.report hordinary hd

theorem advance_bind {f : Unit → Parse β} (h : b.Settles n (f ())) :
    b.Settles (n + 1) (Parse.advance >>= f) :=
  fun p hp => h p.advance hp.advance

/-- What follows may rely on the next token, if there is one of the kind. -/
theorem peekIs_bind {k : Kind} (hk : k ≠ .closeCurly) {f : Bool → Parse β} (htrue : b.Settles 2 (f true))
    (hfalse : b.Settles 1 (f false)) : b.Settles 1 (Parse.peekIs k >>= f) := by
  intro p hp
  show b.Before 1 (f (p.peek.kind == k) p).2
  cases hpeek : p.peek.kind == k with
  | true =>
    rw [beq_iff_eq] at hpeek
    exact htrue p (hp.of_peek (hpeek ▸ hk))
  | false => exact hfalse p hp

theorem expect {k : Kind} (hk : k ≠ .closeCurly) : b.Settles 1 (Parse.expect k) := by
  intro p hp
  rcases expect_cases k p with ⟨hpeek, heq⟩ | ⟨-, heq⟩ <;> rw [heq]
  · exact (hp.of_peek (hpeek ▸ hk)).advance
  · exact hp.report ordinary_unexpectedToken rfl

/-- There is no opening brace before the closing one. -/
theorem openCurly_bind {f : Unit → Parse β} (hf : ∀ p, b.Spent p → b.Spent (f () p).2) :
    b.Settles 1 (Parse.expect .openCurly >>= f) := by
  intro p hp
  rw [bind_apply]
  rcases expect_cases .openCurly p with ⟨hpeek, heq⟩ | ⟨-, heq⟩ <;> rw [heq]
  · rcases hp.exists_cons with hspent | ⟨t, us, hfacing⟩
    · exact .inl (hf _ hspent.advance)
    · exact absurd hpeek hfacing.peek_ne_openCurly
  · exact hp.report ordinary_unexpectedToken rfl

theorem repeatWhile {more : Parser → Bool} {step : σ → Parse σ}
    (hmore : ∀ p, more p = true → p.peek.kind ≠ .closeCurly) (hstep : ∀ s, b.Settles 2 (step s)) (s : σ) :
    b.Settles 1 (Parse.repeatWhile more step s) := by
  have hwithin : ∀ n s p, b.Before 1 p → b.Before 1 (repeatWithin more step n s p).2 := by
    intro n
    induction n with
    | zero => exact fun _ _ hp => hp
    | succ n ih =>
      intro s p hp
      have hround : more p = true → b.Before 1 (step s p).2 := fun hgo => hstep s p (hp.of_peek (hmore p hgo))
      rcases repeatWithin_cases more step n s p with ⟨-, heq⟩ | ⟨s', q, hgo, hs, heq⟩ | ⟨q, hgo, hs, heq⟩ <;> rw [heq]
      · exact hp
      · rw [hs] at hround
        exact ih s' q (hround hgo)
      · rw [hs] at hround
        exact hround hgo
  exact fun p hp => hwithin p.left s p hp

theorem commaLoop {step : σ → Parse σ} (hstep : ∀ s, b.Settles 2 (step s)) (s : σ) :
    b.Settles 1 (Parse.repeatWhile (fun p => p.peek.kind == .comma) step s) := by
  refine repeatWhile (fun p hgo => ?_) hstep s
  rw [beq_iff_eq] at hgo
  rw [hgo]
  decide

theorem ident : b.Settles 1 Parse.ident :=
  (expect (by decide)).bind fun _ => current_bind fun _ => pure _

theorem int (token : Token) : b.Settles 1 (Parse.int token) := by
  unfold Parse.int
  split
  · exact pure _
  · exact (report (by intro _ h; cases h) rfl).bind fun _ => fail

theorem atom : b.Settles 1 Parse.atom := by
  refine current_dispatch fun p hp => ?_
  cases p.current.kind with
  | number => exact int p.current p hp
  | identifier | string | trueWord | falseWord => exact hp
  | _ => exact (hp.mono (Nat.zero_le 1)).noOperand

theorem parameters : b.Settles 1 Parse.parameters := by
  refine peekIs_bind (by decide) (advance_bind (pure _)) ?_
  refine ident.bind fun first => (commaLoop (fun found => ?_) #[first]).bind fun found =>
    (expect (by decide)).bind fun _ => pure _
  exact advance_bind (ident.bind fun _ => pure _)

section Expressions

variable {sub : SubExpr} (hsub : ∀ power, b.Settles 0 (sub power)) (hspends : ∀ power, b.Spends (sub power))

include hsub

theorem unary : b.Settles 1 (Parse.unary sub) :=
  current_bind fun _ => advance_bind ((hsub .unary).bind fun _ => pure _)

theorem group : b.Settles 1 (Parse.group sub) :=
  advance_bind ((hsub .lowest).attempt.bind fun _ => (expect (by decide)).bind fun _ => ofOption _)

theorem binary (left : Expr) (power : BindingPower) : b.Settles 1 (Parse.binary sub left power) :=
  current_bind fun _ => advance_bind ((hsub power).bind fun _ => pure _)

theorem index (collection : Expr) : b.Settles 1 (Parse.index sub collection) :=
  current_bind fun _ => advance_bind ((hsub .lowest).attempt.bind fun _ => (expect (by decide)).bind fun _ =>
    (ofOption _).bind fun _ => pure _)

theorem items {close : Kind} (hclose : close ≠ .closeCurly) : b.Settles 1 (Parse.items sub close) := by
  refine peekIs_bind hclose (advance_bind (pure _)) (advance_bind ?_)
  refine (hsub .lowest).attempt.bind fun first => (commaLoop (fun found => ?_) #[first]).bind fun found =>
    (expect hclose).bind fun _ => ofOption _
  exact advance_bind (advance_bind ((hsub .lowest).attempt.bind fun _ => pure _))

theorem array : b.Settles 1 (Parse.array sub) :=
  current_bind fun _ => (items hsub (by decide)).bind fun _ => pure _

theorem call (callee : Expr) : b.Settles 1 (Parse.call sub callee) :=
  current_bind fun _ => (items hsub (by decide)).bind fun _ => pure _

theorem foldAt (left : Expr) (token : Token) : b.Settles 1 (Parse.foldAt sub left token) := by
  unfold Parse.foldAt
  split
  · exact binary hsub left _
  · exact call hsub left
  · exact index hsub left
  · exact pure left

theorem fold (left : Expr) : b.Settles 2 (Parse.fold sub left) := by
  have hbody : b.Settles 2 (Parse.foldBody sub left) :=
    advance_bind (current_bind fun token => foldAt hsub left token)
  intro p hp
  rw [fold_eq, bind_apply]
  rcases descend_cases p with ⟨-, heq⟩ | ⟨-, -, heq⟩ | ⟨ho, hle, heq⟩ <;> rw [heq]
  · exact hp.mono (Nat.le_succ 1)
  · exact hbody p.deeper hp.deeper
  · exact .inl (hp.gaveUp ho hle)

include hspends

theorem cond : b.Settles 1 (Parse.cond sub) := by
  have hblock := Sim.block (Q := fun _ => True) b.locked_spent hspends fun _ _ _ => trivial
  have halternative := Sim.alternative (Q := fun _ => True) b.locked_spent hspends fun _ _ _ => trivial
  refine current_bind fun token => (expect (by decide)).bind fun _ => advance_bind ((hsub .lowest).attempt.bind
    fun condition => (expect (by decide)).bind fun _ => openCurly_bind (Spends.spent ?_))
  exact (hblock.bind fun _ => halternative.bind fun _ => (Sim.ofOption condition fun _ _ => trivial).bind fun _ =>
    Sim.pure fun _ _ _ => trivial)

omit hsub in
theorem fn : b.Settles 1 (Parse.fn sub) := by
  have hblock := Sim.block (Q := fun _ => True) b.locked_spent hspends fun _ _ _ => trivial
  refine current_bind fun token => (expect (by decide)).bind fun _ => parameters.bind fun parameters =>
    openCurly_bind (Spends.spent ?_)
  exact hblock.bind fun _ => Sim.pure fun _ => trivial

omit hsub in
/-- A hash begins with a brace, so there is none before the closing one. -/
theorem hash (hp : b.Before 1 p) (hkind : p.current.kind = .openCurly) : b.Before 1 (Parse.hash sub p).2 := by
  rcases hp.exists_cons with hspent | ⟨t, us, hfacing⟩
  · have hhash := Sim.hash (Q := fun _ => True) b.locked_spent hspends
    exact .inl (Sim.sim_same_iff.mp hhash p hspent).2
  · rw [hfacing.current_eq] at hkind
    exact absurd hkind (hfacing.plain t List.mem_cons_self).1

theorem operand : b.Settles 0 (Parse.operand sub) := by
  refine current_dispatch fun p hp => ?_
  cases hform : p.current.kind.operand? with
  | none => exact hp.noOperand
  | some form =>
    have hbefore : b.Before 1 p := hp.of_operand (by rw [hform]; exact nofun)
    cases form with
    | atom => exact atom p hbefore
    | unary => exact unary hsub p hbefore
    | group => exact group hsub p hbefore
    | cond => exact cond hsub hspends p hbefore
    | fn => exact fn hspends p hbefore
    | array => exact array hsub p hbefore
    | hash => exact hash hspends hbefore (List.mem_singleton.mp (Kind.operand?_eq_some_iff.mp hform))

theorem chain (power : BindingPower) : b.Settles 0 (Parse.chain sub power) := by
  have hmore : ∀ p, bindsTighter power p = true → p.peek.kind ≠ .closeCurly := by
    intro p hgo hpeek
    unfold bindsTighter at hgo
    rw [hpeek] at hgo
    exact nomatch hgo
  exact (operand hsub hspends).bind fun left => repeatWhile hmore (fold hsub) left

theorem exprStep (power : BindingPower) : b.Settles 0 (Parse.exprStep sub power) := by
  intro p hp
  rcases exprStep_cases sub power p with ⟨ho, heq⟩ | ⟨-, -, heq⟩ | ⟨ho, hle, heq⟩ <;> rw [heq]
  · exact .inl ((hp.spent ho).unwind hp.inside)
  · exact (chain hsub hspends power p.deeper hp.deeper).unwind hp.inside
  · exact .inl ((hp.gaveUp ho hle).unwind hp.inside)

end Expressions

end Settles

/-- Gives the expression up at once. It stands for those that nest too deep. -/
def abandon : SubExpr := fun _ p =>
  (none, { p with overflowed := true })

theorem spent_abandon (power : BindingPower) (h : b.Before 0 p) : b.Spent (abandon power p).2 := by
  refine ⟨h.inside, ?_⟩
  rcases h with hspent | ⟨us, -, hfacing⟩
  · rcases hspent.cause with ⟨-, hunharmed⟩ | hswallowed
    · exact .inl ⟨rfl, hunharmed.congr rfl⟩
    · obtain ⟨us, hus, hsuffix⟩ := hswallowed.within
      exact .inr ⟨⟨us, hus.of_window rfl rfl rfl, hsuffix⟩, hswallowed.taken⟩
  · exact .inl ⟨rfl, hfacing.unharmed.congr rfl⟩

theorem settles_exprWithin (n : Nat) (power : BindingPower) :
    b.Settles 0 (Parse.exprWithin abandon n power) ∧ b.Spends (Parse.exprWithin abandon n power) := by
  induction n generalizing power with
  | zero =>
    refine ⟨fun p hp => .inl (spent_abandon power hp), ?_⟩
    exact Sim.sim_same_iff.mpr fun p hp => ⟨fun _ _ => trivial, spent_abandon power (.inl hp)⟩
  | succ n ih =>
    have hsub := fun power => (ih power).1
    have hspends := fun power => (ih power).2
    exact ⟨Settles.exprStep hsub hspends power, spends_exprStep hspends power⟩

/-- The expression of the outermost level that begins before the brace, or on it, stops before it. -/
theorem before_chain (power : BindingPower) (hroom : Parse.Room (n + 1) (n + 1) p) (h : b.Before 0 p) :
    b.Before 1 (Parse.chain (Parse.exprWithin (fun _ => Parse.fail) (n + 1)) power p).2 := by
  rw [Parse.chain_eq_of_room _ abandon power hroom]
  have hsub := fun power => (settles_exprWithin (b := b) (n + 1) power).1
  have hspends := fun power => (settles_exprWithin (b := b) (n + 1) power).2
  exact Settles.chain hsub hspends power p h

end Brace

end FrontEnd
