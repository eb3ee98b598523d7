import FrontEnd.Proofs.Parser.Recursion
import FrontEnd.Proofs.Parser.Supply
import FrontEnd.Proofs.Parser.Turn

/-!
Parsing comes to an end by itself. The rounds of a loop are bounded where it is run, but every loop stops before that:
because there is nothing more to do or because a step has failed, as it would with no bound.
-/

namespace FrontEnd

variable {σ : Type}

namespace Parse

/-- What a loop comes to when nothing bounds its rounds. -/
inductive Loops (more : Parser → Bool) (step : σ → Parse σ) : σ → Parser → Option σ × Parser → Prop
  | done {s : σ} {p : Parser} : more p = false → Loops more step s p (some s, p)
  | failed {s : σ} {p q : Parser} : more p = true → step s p = (none, q) → Loops more step s p (none, q)
  | again {s s' : σ} {p q : Parser} {r : Option σ × Parser} :
      more p = true → step s p = (some s', q) → Loops more step s' q r → Loops more step s p r

/-- Wherever the loop begins, it stops by itself. -/
def Halts (more : Parser → Bool) (step : σ → Parse σ) : Prop :=
  ∀ s p, Loops more step s p (repeatWhile more step s p)

variable {more : Parser → Bool} {step : σ → Parse σ}

/-- A loop whose rounds all succeed ends where there is nothing more to do. -/
theorem Loops.exit {s s' : σ} {p q : Parser} (h : Loops more step s p (some s', q)) : more q = false := by
  generalize hr : (some s', q) = r at h
  induction h with
  | done hmore =>
    obtain ⟨-, rfl⟩ := Prod.mk.inj hr
    exact hmore
  | failed => exact nomatch hr
  | again _ _ _ ih => exact ih hr

theorem Loops.invariant {I : Parser → Prop} (hstep : ∀ s p, I p → I (step s p).2) {s : σ} {p : Parser}
    {r : Option σ × Parser} (h : Loops more step s p r) (hp : I p) : I r.2 := by
  induction h with
  | done => exact hp
  | @failed s p q _ hs =>
    have hnext := hstep s p hp
    rwa [hs] at hnext
  | @again s s' p q r _ hs _ ih =>
    have hnext := hstep s p hp
    rw [hs] at hnext
    exact ih hnext

/-- A bound that is no lower than the number of tokens is never reached. -/
theorem Progresses.loops (h : Progresses more step) (k : Nat) {n : Nat} (s : σ) {p : Parser} (hk : p.EndsWithin k)
    (hn : k ≤ n) (hpos : 0 < n) : Loops more step s p (repeatWithin more step n s p) := by
  induction k generalizing n s p with
  | zero =>
    obtain ⟨n, rfl⟩ := Nat.exists_eq_add_of_le' hpos
    rcases repeatWithin_cases more step n s p with ⟨hmore, hr⟩ | ⟨s', q, hmore, hs, hr⟩ | ⟨q, hmore, hs, hr⟩ <;>
      rw [hr]
    · exact .done hmore
    · have hdone := h.last s p s' (hk.mono (Nat.zero_le 1)) hmore
      rw [hs] at hdone
      rw [repeatWithin_of_done (hdone rfl)]
      exact .again hmore hs (.done (hdone rfl))
    · exact .failed hmore hs
  | succ k ih =>
    obtain ⟨n, rfl⟩ := Nat.exists_eq_add_of_le' hpos
    rcases repeatWithin_cases more step n s p with ⟨hmore, hr⟩ | ⟨s', q, hmore, hs, hr⟩ | ⟨q, hmore, hs, hr⟩ <;>
      rw [hr]
    · exact .done hmore
    · have htaken := h.takes s k p s' hk
      rw [hs] at htaken
      cases n with
      | zero =>
        obtain rfl : k = 0 := by omega
        have hdone := h.last s p s' hk hmore
        rw [hs] at hdone
        exact .again hmore hs (.done (hdone rfl))
      | succ n =>
        exact .again hmore hs (ih s' (htaken rfl) (Nat.le_of_succ_le_succ hn) (Nat.succ_pos n))
    · exact .failed hmore hs

theorem Progresses.halts (h : Progresses more step) : Halts more step :=
  fun s p => h.loops p.left s p.endsWithin_left (Nat.le_refl _) (Nat.succ_pos _)

/-! Skipping -/

/-- Whether there is anything to skip before the next semicolon or the end. -/
def skippable (p : Parser) : Bool :=
  p.peek.kind != .semicolon && p.peek.kind != .eof

theorem skippable_eq_false {p : Parser} :
    skippable p = false ↔ p.peek.kind = .semicolon ∨ p.peek.kind = .eof := by
  unfold skippable
  cases h : p.peek.kind <;> decide

theorem progresses_skipping : Progresses skippable fun _ => advance :=
  ⟨fun _ => Takes.advance, fun _ _ _ hend _ _ => skippable_eq_false.mpr (.inr (hend.advance 1 (Nat.zero_le 1)))⟩

theorem repeatWithin_advance (n : Nat) (p : Parser) :
    repeatWithin skippable (fun _ => advance) n () p = (some (), p.skipWithin n) := by
  induction n generalizing p with
  | zero => rfl
  | succ n ih =>
    rw [repeatWithin, Parser.skipWithin]
    by_cases hpeek : p.peek.kind = .semicolon ∨ p.peek.kind = .eof
    · rw [skippable_eq_false.mpr hpeek, if_pos hpeek]
      rfl
    · have hmore : skippable p = true := by
        rw [← Bool.not_eq_false, skippable_eq_false]
        exact hpeek
      rw [if_pos hmore, if_neg hpeek]
      exact ih p.advance

/-! All loops -/

/-- The loops that parse statements, operators, parameters, lists and entries, and the one that skips what is left of a
statement, all stop by themselves, with the expressions inside parsed by `sub`. -/
structure LoopsHalt (sub : SubExpr) : Prop where
  statements : ∀ stop : Kind → Bool, stop .eof = true → Halts (fun p => !stop p.current.kind) (collect sub)
  folds : ∀ power, Halts (bindsTighter power) (fold sub)
  parameters : Halts (fun p => p.peek.kind == .comma) fun found : Array Ident => do
    advance
    return found.push (← ident)
  items : Halts (fun p => p.peek.kind == .comma) fun found : Array (Option Expr) => do
    advance
    advance
    return found.push (← attempt (sub .lowest))
  entries : Halts (fun p => p.peek.kind != .closeCurly) fun found : Array (Option Entry) => do
    return found.push (← entry sub)
  skipping : ∀ p, Loops skippable (fun _ => advance) () p (some (), p.skipToBoundary)

theorem loopsHalt {sub : SubExpr} (hsub : ∀ power, Steady (sub power)) : LoopsHalt sub where
  statements _ heof := (Steady.progresses_statements hsub heof).halts
  folds power := (Steady.progresses_folds hsub power).halts
  parameters := (Steady.progresses_commas Steady.takes_parameter).halts
  items := (Steady.progresses_commas (Steady.takes_item hsub)).halts
  entries := (Steady.progresses_entries hsub).halts
  skipping p := by
    have hhalts := progresses_skipping.halts () p
    unfold repeatWhile at hhalts
    rwa [repeatWithin_advance] at hhalts

end Parse

open Parse

/-- Every statement is parsed before a program ends. -/
theorem Parser.finishWithin_kind (p : Parser) : (p.finishWithin p.left).current.kind = .eof := by
  have hloop : Loops (fun p => !(p.current.kind == .eof)) (collect expr) #[] p
      (stmtsUntil expr (fun k => k == .eof) p) :=
    (loopsHalt Steady.expr).statements (fun k => k == .eof) rfl #[] p
  rw [stmtsUntil_eof] at hloop
  have hexit := hloop.exit
  simpa using hexit

/-- Parsing ends. Expressions do as if nothing bounded how deep they nest, and get no deeper than one more than the
limit allows; the loops do as if nothing bounded their rounds, and stop. What is parsed of any tokens is a program, up
to an end, and of tokens without an end among them it is everything up to the end behind the last. -/
theorem program_ends (T : List Token) :
    (∀ power p, expr power p = exprStep expr power p) ∧
      (∀ beyond power p, exprWithin beyond (p.limit + 1) power p = expr power p) ∧
      LoopsHalt expr ∧
      ∃ program q, Parse.program (Parser.ofTokens T) = (some program, q) ∧ q.current.kind = .eof ∧
        ((∀ t ∈ T, t.kind ≠ .eof) → q.Reads (TokenBuffer.ofList T).stop []) := by
  have heof := (Parser.ofTokens T).finishWithin_kind
  refine ⟨expr_eq, exprWithin_beyond, loopsHalt Steady.expr, _, _, program_eq _, heof, fun hT => ?_⟩
  have hreads : (Parser.ofTokens T).Reads (TokenBuffer.ofList T).stop T := Parser.reads_withLimit maxNestingDepth hT
  have htrails := (invariant_trails (TokenBuffer.ofList T).stop T).stmtsUntil (fun k => k == .eof)
    ⟨T, hreads, List.suffix_rfl⟩
  rw [stmtsUntil_eof] at htrails
  obtain ⟨us, hus, -⟩ := htrails
  obtain rfl := hus.eq_nil (hus.current_kind.symm.trans heof)
  exact hus

/-- The text `let f = fn(x) {` stops inside a block. -/
theorem program_ends_unclosed : (∀ t ∈ identityBinding.take 8, t.kind ≠ .eof) ∧
    ∃ program q, Parse.program (Parser.ofTokens (identityBinding.take 8)) = (some program, q) ∧
      q.Reads (TokenBuffer.ofList (identityBinding.take 8)).stop [] := by
  have hfree : ∀ t ∈ identityBinding.take 8, t.kind ≠ .eof := by decide
  obtain ⟨-, -, -, program, q, hprogram, -, hreads⟩ := program_ends (identityBinding.take 8)
  exact ⟨hfree, program, q, hprogram, hreads hfree⟩

end FrontEnd
