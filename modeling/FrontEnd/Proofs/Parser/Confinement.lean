import Mathlib.Data.List.Forall2
import FrontEnd.Proofs.Parser.Tower
import FrontEnd.Proofs.Parser.Turn

/-!
Statements that nest too deep, and what becomes of the statements around them.
-/

namespace FrontEnd

open scoped List

/-- The tokens behind the first semicolon. -/
def behindSemicolon (ts : List Token) : List Token :=
  (ts.dropWhile fun t => t.kind ≠ .semicolon).tail

namespace Parser

/-- Before the same tokens under another limit, with no report made and no level reached yet. -/
def restart (limit : Nat) (p : Parser) : Parser :=
  { p with limit := limit, diagnostics := #[], deepest := 0 }

/-- The statement that begins here never goes deeper than `limit`. -/
def Fits (limit : Nat) (p : Parser) : Prop :=
  (p.restart p.limit).turn.2.deepest ≤ limit

instance (limit : Nat) : DecidablePred (Fits limit) :=
  fun p => inferInstanceAs (Decidable ((p.restart p.limit).turn.2.deepest ≤ limit))

/-- Where the value of the statement that begins here is left under another limit, be it complete or given up. -/
def stoppedAt (limit : Nat) (p : Parser) : Parser :=
  (Parse.chain (Parse.exprWithin (fun _ => Parse.fail) limit) .lowest (Parse.valueStart (p.restart limit)).deeper).2

/-- The first semicolon behind where the statement is left ends the statement; or it is the last one and there is no
semicolon any more. -/
def EndsAtSemicolon (limit : Nat) (p : Parser) : Prop :=
  p.turn.2.remaining = behindSemicolon (p.stoppedAt limit).remaining.tail

variable {stop : Position} {ts : List Token} {p q : Parser} {l L : Nat}

theorem Reads.skipWithin (n : Nat) (h : p.Reads stop ts) (hn : ts.tail.length < n) :
    ∃ us, (p.skipWithin n).Reads stop us ∧ us.tail = ts.tail.dropWhile fun t => t.kind ≠ .semicolon := by
  induction n generalizing p ts with
  | zero => exact absurd hn (Nat.not_lt_zero _)
  | succ n ih =>
    have hpeek := h.peek_kind
    rw [Parser.skipWithin]
    cases htail : ts.tail with
    | nil =>
      rw [htail] at hpeek
      rw [if_pos (.inr hpeek)]
      exact ⟨ts, h, htail⟩
    | cons u vs =>
      rw [htail, headKind_cons] at hpeek
      by_cases hu : u.kind = .semicolon
      · rw [if_pos (.inl (hpeek.trans hu))]
        refine ⟨ts, h, ?_⟩
        simp [htail, hu]
      · have hfree : u.kind ≠ .eof := h.free u (List.mem_of_mem_tail (htail ▸ List.mem_cons_self))
        rw [if_neg (by simp [hpeek, hu, hfree])]
        rw [htail] at hn
        have hnext : p.advance.Reads stop (u :: vs) := htail ▸ h.advance
        obtain ⟨us, hus, heq⟩ := ih hnext (Nat.lt_of_succ_lt_succ hn)
        refine ⟨us, hus, ?_⟩
        rw [heq]
        simp [hu]

/-- What is left of a statement that has been given up ends at the next semicolon, wherever that stands. -/
theorem Reads.resumed (h : p.Reads stop ts) :
    (Parse.atSemicolon p.resumed).advance.Reads stop (behindSemicolon ts.tail) := by
  have hlevel : ({ p with depth := 0 } : Parser).Reads stop ts := ⟨h.current_eq, h.peek_eq, h.source_eq, h.free⟩
  obtain ⟨us, hus, htail⟩ := hlevel.skipWithin p.left h.tail_length_lt_left
  have hresumed : p.resumed.Reads stop us := ⟨hus.current_eq, hus.peek_eq, hus.source_eq, hus.free⟩
  unfold behindSemicolon
  rw [← htail]
  unfold Parse.atSemicolon
  -- Either the skipping stopped before a semicolon, or there are no tokens any more.
  by_cases hpeek : p.resumed.peek.kind = .semicolon
  · rw [if_pos hpeek]
    exact hresumed.advance.advance
  · rw [if_neg hpeek]
    have hnil : us.tail = [] := by
      cases hcons : us.tail with
      | nil => rfl
      | cons u vs =>
        have hhead := @List.head_dropWhile_not _ (fun t : Token => decide (t.kind ≠ .semicolon)) ts.tail
        rw [hresumed.peek_kind, hcons, headKind_cons] at hpeek
        rw [hcons] at htail
        have hu := hhead (by rw [← htail]; exact List.cons_ne_nil u vs)
        simp only [← htail] at hu
        simp [hpeek] at hu
    rw [hnil, List.tail_nil]
    exact hnil ▸ hresumed.advance

/-- Runs that do not part where both move on are together where the value begins. -/
theorem valueStart_of_advance {R : Parser → Parser → Prop} (hR : ∀ p q, R p q → R p.advance q.advance)
    (hcurrent : p.current = q.current) (h : R p q) : R (Parse.valueStart p) (Parse.valueStart q) := by
  unfold Parse.valueStart
  rw [hcurrent]
  split
  · exact hR _ _ (hR _ _ (hR _ _ h))
  · exact hR _ _ h
  · exact h

theorem Opening.valueStart (h : p.Opening l) : (Parse.valueStart p).Opening l :=
  valueStart_of_advance (R := fun p _ => p.Opening l) (fun _ _ h => ⟨h.limit_eq, h.depth_eq, h.calm⟩) rfl h

theorem Trails.valueStart {T : List Token} (h : p.Trails stop T) : (Parse.valueStart p).Trails stop T :=
  valueStart_of_advance (R := fun p _ => p.Trails stop T) (fun _ _ h => h.advance) rfl h

theorem Abreast.valueStart (h : p.Abreast q) : (Parse.valueStart p).Abreast (Parse.valueStart q) :=
  valueStart_of_advance (fun _ _ h => h.advance) h.current_eq h

theorem Abreast.atSemicolon (h : p.Abreast q) : (Parse.atSemicolon p).Abreast (Parse.atSemicolon q) := by
  unfold Parse.atSemicolon
  rw [h.peek_eq]
  split
  · exact h.advance
  · exact h

theorem Abreast.conclude (h : p.Abreast q) (value : Option Expr) : Parse.conclude p value = Parse.conclude q value := by
  unfold Parse.conclude
  rw [h.current_eq, h.peek_eq]

theorem Abreast.headed (h : p.Abreast q) (hq : Parse.Headed q) : Parse.Headed p := by
  unfold Parse.Headed at hq ⊢
  rw [h.current_eq, h.peek_eq, h.advance.peek_eq]
  exact hq

theorem restart_alike (p : Parser) : Parse.Alike p.diagnostics.toList [] p (p.restart p.limit) :=
  ⟨⟨rfl, rfl, rfl, rfl⟩, rfl, rfl, [], (List.append_nil _).symm, rfl⟩

end Parser

namespace Parse

variable {stop : Position} {ts : List Token} {p q : Parser} {l L : Nat} {P Q : List Diagnostic}

theorem turn_alike (h : Alike P Q p q) : p.turn.1 = q.turn.1 ∧ Alike P Q p.turn.2 q.turn.2 := by
  have hstmt := Sim.stmt (Q := fun _ => True) (locked_alike (P := P) (Q := Q)) sim_alike_expr fun _ _ _ => trivial
  rcases hstmt.run p q h with ⟨heq, -, hafter⟩ | hnever
  · exact ⟨heq, hafter.advance⟩
  · exact hnever.elim

/-- A statement of which nothing is reported is none the different for what was reported before it. -/
theorem quiet_restart (h : q.turn.2.diagnostics = q.diagnostics) : (q.restart q.limit).turn.2.diagnostics = #[] := by
  obtain ⟨D, hleft, hright⟩ := (turn_alike q.restart_alike).2.reported
  rw [h] at hleft
  have hD : D = [] := List.self_eq_append_right.mp hleft
  rw [hD] at hright
  exact Array.toList_inj.mp hright

/-- The value of a statement, one level down. -/
theorem expr_of_opening (power : BindingPower) (hl : 0 < l) (h : p.Opening l) :
    expr power p = ((chain (exprWithin (fun _ => fail) l) power p.deeper).1,
      (chain (exprWithin (fun _ => fail) l) power p.deeper).2.unwind 0) := by
  have hfuel : expr power p = exprStep (exprWithin (fun _ => fail) l) power p := by
    rw [← h.limit_eq]
    rfl
  rw [hfuel]
  rcases exprStep_cases (exprWithin (fun _ => fail) l) power p with ⟨ho, -⟩ | ⟨-, -, heq⟩ | ⟨-, hle, -⟩
  · exact absurd (h.calm.symm.trans ho) (by decide)
  · rw [heq, h.depth_eq]
  · rw [h.limit_eq, h.depth_eq] at hle
    exact absurd hl (Nat.not_lt.mpr hle)

theorem turn_of_opening (hl : 0 < l) (h : p.Opening l) (hheaded : Headed p) :
    p.turn = (conclude p (chain (exprWithin (fun _ => fail) l) .lowest (valueStart p).deeper).1,
      (atSemicolon ((chain (exprWithin (fun _ => fail) l) .lowest (valueStart p).deeper).2.unwind 0)).advance) := by
  rw [turn_eq hheaded, expr_of_opening .lowest hl h.valueStart]

theorem valueStart_spec (p : Parser) :
    (valueStart p).diagnostics = p.diagnostics ∧ (valueStart p).deepest = p.deepest := by
  unfold valueStart
  split <;> exact ⟨rfl, rfl⟩

theorem atSemicolon_spec (p : Parser) :
    (atSemicolon p).advance.diagnostics = p.diagnostics ∧ (atSemicolon p).advance.deepest = p.deepest := by
  unfold atSemicolon
  split <;> exact ⟨rfl, rfl⟩

/-- Where two expressions of the outermost level begin, the runs are in step. -/
theorem inStep_deeper (hl : 0 < l) (h : p.Abreast q) (hp : p.Opening l) (hq : q.Opening L) (hdeepest : q.deepest ≤ l) :
    InStep l L l L p.diagnostics.toList q.diagnostics.toList p.deeper q.deeper := by
  have hdepth : p.deeper.depth = 1 := congrArg (· + 1) hp.depth_eq
  refine ⟨h.deeper, hp.limit_eq, hq.limit_eq, hp.calm, hq.calm, Nat.succ_pos _, ?_, ?_, ?_, ?_, [], ?_, ?_⟩
  · rw [hdepth]
    exact hl
  · rw [hdepth]
    omega
  · rw [hdepth]
    omega
  · show max q.deepest (q.depth + 1) ≤ l
    rw [hq.depth_eq]
    exact Nat.max_le.mpr ⟨hdeepest, hl⟩
  · exact (List.append_nil _).symm
  · exact (List.append_nil _).symm

theorem inStep_valueStart (hl : 0 < l) (h : p.Abreast q) (hp : p.Opening l) (hq : q.Opening L)
    (hdeepest : q.deepest = 0) :
    InStep l L l L p.diagnostics.toList q.diagnostics.toList (valueStart p).deeper (valueStart q).deeper := by
  have hle : (valueStart q).deepest ≤ l := by
    rw [(valueStart_spec q).2, hdeepest]
    exact Nat.zero_le l
  have hstep := inStep_deeper hl h.valueStart hp.valueStart hq.valueStart hle
  rwa [(valueStart_spec p).1, (valueStart_spec q).1] at hstep

/-- Where a statement is parsed afresh, its deepest level tells which way a lower limit goes. -/
theorem turn_cases_of_fresh (hl : 0 < l) (hlL : l ≤ L) (h : p.Abreast q) (hp : p.Opening l) (hq : q.Opening L)
    (hdeepest : q.deepest = 0) (hquiet : q.turn.2.diagnostics = q.diagnostics) :
    (q.turn.2.deepest ≤ l ∧ p.turn.1 = q.turn.1 ∧ p.turn.2.Abreast q.turn.2 ∧ p.turn.2.diagnostics = p.diagnostics) ∨
      (l < q.turn.2.deepest ∧ (∃ position, p.turn.2.diagnostics = p.diagnostics.push ⟨.nestingTooDeep l, position⟩) ∧
        p.turn.2 =
          (atSemicolon (chain (exprWithin (fun _ => fail) l) .lowest (valueStart p).deeper).2.resumed).advance) := by
  have hheaded : Headed q := by
    apply headed_of_quiet expr hq.calm
    rw [← hquiet]
    rfl
  have hrun := (Sim.chain locked_inStep (sim_inStep_exprWithin hlL l L) (sim_inStep_descend hlL) .lowest).run _ _
    (inStep_valueStart hl h hp hq hdeepest)
  rw [turn_of_opening (Nat.lt_of_lt_of_le hl hlL) hq hheaded] at hquiet ⊢
  rw [turn_of_opening hl hp (h.headed hheaded)]
  -- Of the two values only how the runs compare matters from here on.
  generalize chain (exprWithin (fun _ => fail) l) .lowest (valueStart p).deeper = r at hrun ⊢
  generalize chain (exprWithin (fun _ => fail) L) .lowest (valueStart q).deeper = s at hrun hquiet ⊢
  have hclean : s.2.diagnostics = q.diagnostics := by
    rw [← hquiet, (atSemicolon_spec _).1, Parser.unwind_diagnostics]
  rw [(atSemicolon_spec _).1, (atSemicolon_spec _).2, Parser.unwind_deepest, Parser.unwind_diagnostics]
  rcases hrun with ⟨heq, -, hin⟩ | hparted
  · left
    obtain ⟨D, hleft, hright⟩ := hin.reported
    rw [hclean] at hright
    have hD : D = [] := List.self_eq_append_right.mp hright
    rw [hD, List.append_nil] at hleft
    refine ⟨hin.deepest_le, ?_, ?_, Array.toList_inj.mp hleft⟩
    · rw [heq]
      exact h.conclude s.1
    · rw [Parser.unwind_of_calm _ hin.calm_left, Parser.unwind_of_calm _ hin.calm_right]
      exact (hin.toAbreast.withDepth 0).atSemicolon.advance
  · right
    obtain ⟨D, position, hleft, hright⟩ := hparted.reported
    rw [hclean] at hright
    -- The run under the higher limit reports nothing, so the other one reported nothing before it gave up.
    have hD : D = [] := by
      have hle := hright.length_le
      rw [List.length_append] at hle
      exact List.length_eq_zero_iff.mp (by omega)
    rw [hD, List.append_nil] at hleft
    refine ⟨hparted.lt_deepest, ⟨position, ?_⟩, ?_⟩
    · apply Array.toList_inj.mp
      rw [hleft, Array.toList_push]
    · rw [Parser.unwind_zero hparted.overflowed]

theorem Alike.valueStart (h : Alike P Q p q) : Alike P Q (valueStart p) (valueStart q) :=
  Parser.valueStart_of_advance (fun _ _ h => h.advance) h.current_eq h

/-- A statement is left where `stoppedAt` says. -/
theorem stoppedAt_alike (h : Alike P Q p (q.restart l)) :
    Alike P Q (chain (exprWithin (fun _ => fail) l) .lowest (valueStart p).deeper).2 (q.stoppedAt l) := by
  have hsim := Sim.chain (locked_alike (P := P) (Q := Q)) (sim_alike_exprWithin l) sim_alike_descend .lowest
  rcases hsim.run _ _ h.valueStart.deeper with ⟨-, -, hstopped⟩ | hnever
  · exact hstopped
  · exact hnever.elim

theorem reads_stoppedAt (h : p.Abreast q) (hp : p.Opening l) (hq : q.overflowed = false) (hr : p.Reads stop ts) :
    (chain (exprWithin (fun _ => fail) l) .lowest (valueStart p).deeper).2.Reads stop (q.stoppedAt l).remaining := by
  have htrails : (valueStart p).Trails stop ts := by
    apply Parser.Trails.valueStart
    exact ⟨ts, hr, List.suffix_rfl⟩
  have hinvariant := invariant_trails stop ts
  have hchain := Sim.sim_same_iff.mp (hinvariant.chain (hinvariant.exprWithin l) .lowest)
  obtain ⟨us, hus, -⟩ := (hchain _ (hinvariant.deeper _ htrails)).2
  have halike : Alike p.diagnostics.toList [] p (q.restart l) :=
    ⟨⟨h.current_eq, h.peek_eq, h.source_eq, h.depth_eq⟩, hp.limit_eq, hp.calm.trans hq.symm, [],
      (List.append_nil _).symm, rfl⟩
  have hremaining : (q.stoppedAt l).remaining = us := ((stoppedAt_alike halike).toAbreast.symm.reads hus).remaining
  rw [hremaining]
  exact hus

/-- A statement of which nothing is reported under one limit fits into a lower one, and then nothing is different, or
it does not, and then it is given up with one report. -/
theorem turn_cases (hl : 0 < l) (hlL : l ≤ L) (h : p.Abreast q) (hp : p.Opening l) (hq : q.Opening L)
    (hr : q.Reads stop ts) (hquiet : q.turn.2.diagnostics = q.diagnostics) :
    (q.Fits l ∧ p.turn.1 = q.turn.1 ∧ p.turn.2.Abreast q.turn.2 ∧ p.turn.2.diagnostics = p.diagnostics) ∨
      (¬q.Fits l ∧ (∃ position, p.turn.2.diagnostics = p.diagnostics.push ⟨.nestingTooDeep l, position⟩) ∧
        p.turn.2.Reads stop (behindSemicolon (q.stoppedAt l).remaining.tail)) := by
  have halike := turn_alike q.restart_alike
  have hfresh : p.Abreast (q.restart q.limit) := ⟨h.current_eq, h.peek_eq, h.source_eq, h.depth_eq⟩
  have hopening : (q.restart q.limit).Opening L := ⟨hq.limit_eq, hq.depth_eq, hq.calm⟩
  rcases turn_cases_of_fresh hl hlL hfresh hp hopening rfl (quiet_restart hquiet) with
    ⟨hfits, hvalue, hafter, hsame⟩ | ⟨hlt, hreport, hskip⟩
  · left
    refine ⟨hfits, ?_, ?_, hsame⟩
    · rw [halike.1]
      exact hvalue
    · exact hafter.trans halike.2.toAbreast.symm
  · right
    refine ⟨Nat.not_le.mpr hlt, hreport, ?_⟩
    rw [hskip]
    exact (reads_stoppedAt h hp hq.calm (h.reads hr)).resumed

theorem exists_stmt_of_quiet (hq : q.Opening L) (hr : q.Reads stop ts) (hquiet : q.turn.2.diagnostics = q.diagnostics) :
    ∃ s, q.turn.1 = some s := by
  obtain ⟨us, -, hsentence⟩ := (describes_stmt .sound L stop).sound rfl q ts hq.ready hq.calm hr hquiet
  cases hvalue : (stmt expr q).1 with
  | none =>
    rw [hvalue] at hsentence
    exact hsentence.elim
  | some s => exact ⟨s, hvalue⟩

end Parse

/-! Whole programs -/

/-- Of a statement that fits nothing is different, and one that does not is given up with one report. -/
structure Keeps (limit : Nat) (p q : Parser) : Prop where
  remaining_eq : p.remaining = q.remaining
  kept : q.Fits limit → p.turn.1 = q.turn.1 ∧ p.turn.2.diagnostics = p.diagnostics
  givenUp : ¬q.Fits limit → ∃ position, p.turn.2.diagnostics = p.diagnostics.push ⟨.nestingTooDeep limit, position⟩

/-- Statement by statement, the run under the one limit keeps what the run under the other one makes. -/
def Confined (limit L : Nat) (T : List Token) : Prop :=
  List.Forall₂ (Keeps limit) (starts limit T) (starts L T)

namespace Parser

variable {stop : Position} {ts us vs : List Token} {p q : Parser} {l L : Nat}

/-- Where nothing is reported in the end, each statement is there. -/
theorem map_startsWithin (n : Nat) (hq : q.Opening L) (hr : q.Reads stop ts)
    (hquiet : (q.finishWithin n).diagnostics = q.diagnostics) :
    (q.startsWithin n).map (fun r => r.turn.1) = ((q.startsWithin n).filterMap fun r => r.turn.1).map some := by
  induction n generalizing q ts with
  | zero => rfl
  | succ n ih =>
    by_cases hts : ts = []
    · subst hts
      rw [startsWithin_nil hr]
      rfl
    · rw [finishWithin_cons hr hts] at hquiet
      obtain ⟨hturn, hrest⟩ := quiet_finishWithin n hquiet
      obtain ⟨us, hus, -⟩ := hr.turn hts
      obtain ⟨s, hs⟩ := Parse.exists_stmt_of_quiet hq hr hturn
      rw [startsWithin_cons hr hts, List.map_cons, List.filterMap_cons, hs, ih hq.turn hus hrest, List.map_cons]

theorem eq_of_forall₂_keeps (n : Nat) (hp : p.Reads stop us) (hq : q.Reads stop vs) (hus : us.length ≤ n)
    (hvs : vs.length ≤ n) (h : List.Forall₂ (Keeps l) (p.startsWithin n) (q.startsWithin n)) : us = vs := by
  by_cases hnil : us = []
  · subst hnil
    rw [startsWithin_nil hp, List.forall₂_nil_left_iff] at h
    by_cases hne : vs = []
    · exact hne.symm
    · cases n with
      | zero => exact (List.length_eq_zero_iff.mp (Nat.le_zero.mp hvs)).symm
      | succ n =>
        rw [startsWithin_cons hq hne] at h
        exact nomatch h
  · cases n with
    | zero => exact absurd (List.length_eq_zero_iff.mp (Nat.le_zero.mp hus)) hnil
    | succ n =>
      rw [startsWithin_cons hp hnil] at h
      by_cases hne : vs = []
      · subst hne
        rw [startsWithin_nil hq] at h
        exact nomatch h
      · rw [startsWithin_cons hq hne, List.forall₂_cons] at h
        rw [← hp.remaining, ← hq.remaining]
        exact h.1.remaining_eq

/-- As long as the statements given up end where their tokens are skipped to, the runs stay together. -/
theorem forall₂_keeps_iff (hl : 0 < l) (hlL : l ≤ L) (n : Nat) (hp : p.Opening l) (hq : q.Opening L)
    (hpr : p.Reads stop ts) (hqr : q.Reads stop ts) (hn : ts.length ≤ n)
    (hquiet : (q.finishWithin n).diagnostics = q.diagnostics) :
    List.Forall₂ (Keeps l) (p.startsWithin n) (q.startsWithin n) ↔
      ∀ r ∈ q.startsWithin n, ¬r.Fits l → r.EndsAtSemicolon l := by
  induction n generalizing p q ts with
  | zero => exact ⟨fun _ r hr => absurd hr List.not_mem_nil, fun _ => .nil⟩
  | succ n ih =>
    by_cases hts : ts = []
    · subst hts
      rw [startsWithin_nil hpr, startsWithin_nil hqr]
      exact ⟨fun _ r hr => absurd hr List.not_mem_nil, fun _ => .nil⟩
    · rw [finishWithin_cons hqr hts] at hquiet
      obtain ⟨hturn, hrest⟩ := quiet_finishWithin n hquiet
      obtain ⟨vs, hvs, hlt⟩ := hqr.turn hts
      have hbeside := hpr.abreast hqr (hp.depth_eq.trans hq.depth_eq.symm)
      have hremaining := hpr.remaining.trans hqr.remaining.symm
      have hvs' : vs.length ≤ n := by omega
      rw [startsWithin_cons hpr hts, startsWithin_cons hqr hts, List.forall₂_cons, List.forall_mem_cons]
      rcases Parse.turn_cases hl hlL hbeside hp hq hqr hturn with
        ⟨hfits, hvalue, hafter, hsame⟩ | ⟨hfits, hreport, hskip⟩
      · have hkeeps : Keeps l p q := ⟨hremaining, fun _ => ⟨hvalue, hsame⟩, fun h => absurd hfits h⟩
        have hiff := ih hp.turn hq.turn (hafter.reads hvs) hvs hvs' hrest
        constructor
        · intro h
          exact ⟨fun h' => absurd hfits h', hiff.mp h.2⟩
        · intro h
          exact ⟨hkeeps, hiff.mpr h.2⟩
      · have hkeeps : Keeps l p q := ⟨hremaining, fun h => absurd h hfits, fun _ => hreport⟩
        have hends : q.EndsAtSemicolon l ↔ vs = behindSemicolon (q.stoppedAt l).remaining.tail := by
          unfold EndsAtSemicolon
          rw [hvs.remaining]
        constructor
        · intro h
          obtain ⟨us, hus, hlt'⟩ := hpr.turn hts
          have husvs := eq_of_forall₂_keeps n hus hvs (by omega) hvs' h.2
          -- The next statements begin before the same tokens, so the skipping went just as far as the statement.
          have hskipped := hus.remaining.symm.trans hskip.remaining
          subst husvs
          exact ⟨fun _ => hends.mpr hskipped, (ih hp.turn hq.turn hus hvs hvs' hrest).mp h.2⟩
        · intro h
          have hus : p.turn.2.Reads stop vs := hends.mp (h.1 hfits) ▸ hskip
          exact ⟨hkeeps, (ih hp.turn hq.turn hus hvs hvs' hrest).mpr h.2⟩

/-- What is reported is that the statements that do not fit were given up. -/
theorem faults_of_forall₂_keeps (n : Nat) (hp : p.Reads stop us) (hq : q.Reads stop vs)
    (h : List.Forall₂ (Keeps l) (p.startsWithin n) (q.startsWithin n)) :
    (p.finishWithin n).diagnostics.toList.map Diagnostic.fault = p.diagnostics.toList.map Diagnostic.fault ++
      ((q.startsWithin n).filter fun r => ¬r.Fits l).map fun _ => .nestingTooDeep l := by
  induction n generalizing p q us vs with
  | zero => exact (List.append_nil _).symm
  | succ n ih =>
    by_cases hus : us = []
    · subst hus
      rw [startsWithin_nil hp, List.forall₂_nil_left_iff] at h
      rw [h, finishWithin_nil hp]
      exact (List.append_nil _).symm
    · rw [startsWithin_cons hp hus] at h
      by_cases hvs : vs = []
      · subst hvs
        rw [startsWithin_nil hq] at h
        exact nomatch h
      · rw [startsWithin_cons hq hvs, List.forall₂_cons] at h
        obtain ⟨us', hus', -⟩ := hp.turn hus
        obtain ⟨vs', hvs', -⟩ := hq.turn hvs
        rw [finishWithin_cons hp hus, startsWithin_cons hq hvs, ih hus' hvs' h.2]
        by_cases hfits : q.Fits l
        · rw [(h.1.kept hfits).2, List.filter_cons_of_neg (by simpa using hfits)]
        · obtain ⟨position, hreport⟩ := h.1.givenUp hfits
          rw [hreport, List.filter_cons_of_pos (by simpa using hfits), Array.toList_push, List.map_append,
            List.append_assoc]
          rfl

/-- The statements that fit are among those that are made of what is kept, in their order. -/
theorem sublist_of_forall₂_keeps {ps qs : List Parser} (h : List.Forall₂ (Keeps l) ps qs) :
    ((qs.filter fun q => q.Fits l).filterMap fun q => q.turn.1) <+ ps.filterMap fun p => p.turn.1 := by
  induction h with
  | nil => exact .slnil
  | @cons p q ps qs hkeeps _ ih =>
    rw [List.filterMap_cons]
    by_cases hfits : q.Fits l
    · rw [List.filter_cons_of_pos (by simpa using hfits), List.filterMap_cons, (hkeeps.kept hfits).1]
      cases q.turn.1 with
      | none => exact ih
      | some s => exact ih.cons_cons s
    · rw [List.filter_cons_of_neg (by simpa using hfits)]
      cases p.turn.1 with
      | none => exact ih
      | some s => exact ih.cons s

end Parser

variable {L : Nat} {T : List Token}

/-- Where a program is parsed with nothing to report under a higher limit, nesting too deep is confined to the
statements concerned if and only if each of them ends where its tokens are skipped to. Then the others are parsed as
they were, and one report is made of each of those. -/
theorem confined_iff (hL : maxNestingDepth ≤ L) (hT : ∀ t ∈ T, t.kind ≠ .eof) (hquiet : (parseWithin L T).2 = []) :
    (starts L T).map (fun q => q.turn.1) = (parseWithin L T).1.statements.map some ∧
      (Confined maxNestingDepth L T ↔
        ∀ q ∈ starts L T, ¬q.Fits maxNestingDepth → q.EndsAtSemicolon maxNestingDepth) ∧
      (Confined maxNestingDepth L T →
        ((starts L T).filter fun q => q.Fits maxNestingDepth).filterMap (fun q => q.turn.1) <+
            (parseTokens T).1.statements ∧
          (parseTokens T).2.map Diagnostic.fault =
            ((starts L T).filter fun q => ¬q.Fits maxNestingDepth).map fun _ => .nestingTooDeep maxNestingDepth) := by
  have hp := Parser.reads_withLimit maxNestingDepth hT
  have hq := Parser.reads_withLimit L hT
  have hopening := Parser.opening_withLimit L (.buffer (TokenBuffer.ofList T))
  rw [parseTokens_eq, parseWithin_eq, parseWithin_eq]
  rw [parseWithin_eq] at hquiet
  have hquiet := Array.toList_inj.mp hquiet
  refine ⟨Parser.map_startsWithin _ hopening hq hquiet, ?_, ?_⟩
  · exact Parser.forall₂_keeps_iff (by decide) hL _ (Parser.opening_withLimit _ _) hopening hp hq
      hq.length_le_left hquiet
  · intro h
    exact ⟨Parser.sublist_of_forall₂_keeps h, Parser.faults_of_forall₂_keeps _ hp hq h⟩

theorem confined_iff_tower : maxNestingDepth ≤ 257 ∧ (∀ t ∈ Tower.tokens 256, t.kind ≠ .eof) ∧
    (parseWithin 257 (Tower.tokens 256)).2 = [] ∧
    (starts 257 (Tower.tokens 256)).map (fun q => q.turn.1) =
      (parseWithin 257 (Tower.tokens 256)).1.statements.map some ∧
    (Confined maxNestingDepth 257 (Tower.tokens 256) ↔
      ∀ q ∈ starts 257 (Tower.tokens 256), ¬q.Fits maxNestingDepth → q.EndsAtSemicolon maxNestingDepth) ∧
    (Confined maxNestingDepth 257 (Tower.tokens 256) →
      ((starts 257 (Tower.tokens 256)).filter fun q => q.Fits maxNestingDepth).filterMap (fun q => q.turn.1) <+
          (parseTokens (Tower.tokens 256)).1.statements ∧
        (parseTokens (Tower.tokens 256)).2.map Diagnostic.fault =
          ((starts 257 (Tower.tokens 256)).filter fun q => ¬q.Fits maxNestingDepth).map
            fun _ => .nestingTooDeep maxNestingDepth) := by
  have hL : maxNestingDepth ≤ 257 := by decide
  have hfree := Tower.free_tokens 256
  have hquiet : (parseWithin 257 (Tower.tokens 256)).2 = [] := congrArg Prod.snd (Tower.parseWithin_tokens 256)
  exact ⟨hL, hfree, hquiet, confined_iff hL hfree hquiet⟩

/-- A number in 300 pairs of parentheses. -/
def deepNumber : List Token :=
  List.replicate 300 (.loose .openParen "(") ++ .loose .number "1" :: List.replicate 300 (.loose .closeParen ")")

/-- A binding behind the number, with no semicolon between them. -/
def numberThenBinding : List Token :=
  deepNumber ++ [.loose .letWord "let", .loose .identifier "b", .loose .assign "=", .loose .number "2",
    .loose .semicolon ";"]

/-- A function with the number as its first statement, and a block behind that. -/
def numberInFunction : List Token :=
  [.loose .fnWord "fn", .loose .openParen "(", .loose .closeParen ")", .loose .openCurly "\x7b"] ++ deepNumber ++
    [.loose .semicolon ";", .loose .ifWord "if", .loose .openParen "(", .loose .identifier "a",
      .loose .closeParen ")", .loose .openCurly "\x7b", .loose .identifier "b", .loose .closeCurly "\x7d",
      .loose .identifier "c", .loose .semicolon ";", .loose .closeCurly "\x7d", .loose .semicolon ";"]

/-- Nesting too deep is not confined where a statement ends without a semicolon: the binding goes with the number before
it. Nor is it where a statement has semicolons inside: what is left of the function is reported as well. -/
theorem not_confined_deepNumber :
    ((∀ t ∈ numberThenBinding, t.kind ≠ .eof) ∧ (parseWithin 301 numberThenBinding).2 = [] ∧
      (starts 301 numberThenBinding).map (fun q => decide (q.Fits maxNestingDepth)) = [false, true] ∧
      (parseTokens numberThenBinding).1.statements = []) ∧
    ((∀ t ∈ numberInFunction, t.kind ≠ .eof) ∧ (parseWithin 302 numberInFunction).2 = [] ∧
      (starts 302 numberInFunction).map (fun q => decide (q.Fits maxNestingDepth)) = [false] ∧
      (parseTokens numberInFunction).2.map Diagnostic.fault =
        [.nestingTooDeep maxNestingDepth, .noOperand .closeCurly "\x7d"]) := by
  refine ⟨⟨?_, ?_, ?_, ?_⟩, ?_, ?_, ?_, ?_⟩ <;> decide +kernel

end FrontEnd
