import FrontEnd.Proofs.Parser.Brace
import FrontEnd.Proofs.Parser.Confinement
import FrontEnd.Proofs.Parser.Halting
import FrontEnd.Proofs.Parser.Shared

/-!
Where a block ends. A statement in it may take the closing brace in two ways: where an operand should begin on the
brace, and where an expression is given up with no semicolon left before the brace.
-/

namespace FrontEnd

open Parse

variable {stop : Position} {t : Token} {ts us V T : List Token} {p q s : Parser} {limit n : Nat}

namespace Parser

/-- A parser is not both before and behind a token, unless that is an end. -/
theorem Sees.not_within (h : p.Sees stop (t :: ts)) (ht : t.kind ≠ .eof) : ¬p.Within stop ts := by
  rintro ⟨us, hus, pre, rfl⟩
  -- What is seen repeats as far apart as the two places are, and in the end there is nothing.
  have hshift : ∀ k, p.ahead k = p.ahead (k + (pre.length + 1)) := by
    intro k
    rw [hus.ahead_eq k, h.ahead_eq, ← List.cons_append]
    have hlength : k + (pre.length + 1) = (t :: pre).length + k := by
      rw [List.length_cons, Nat.add_comm]
    rw [hlength, List.getElem?_append_right (Nat.le_add_right _ _), Nat.add_sub_cancel_left]
  have hrepeat : ∀ m, p.ahead 0 = p.ahead (m * (pre.length + 1)) := by
    intro m
    induction m with
    | zero => rw [Nat.zero_mul]
    | succ m ih => rw [Nat.succ_mul, ← hshift, ← ih]
  have hend := h.endsWithin ((t :: (pre ++ us)).length * (pre.length + 1))
    (Nat.le_mul_of_pos_right _ (Nat.succ_pos _))
  rw [← hrepeat] at hend
  exact ht (hend ▸ congrArg Token.kind h.current_eq.symm)

theorem Within.tail (h : p.Within stop T) : p.advance.Within stop T.tail := by
  obtain ⟨us, hus, pre, rfl⟩ := h
  refine ⟨us.tail, hus.advance, ?_⟩
  cases pre with
  | nil => exact List.suffix_rfl
  | cons t pre => exact (List.tail_suffix us).trans (List.suffix_append pre us)

/-- Skipping stops before the next semicolon. -/
theorem Sees.skipWithin_semicolon (n : Nat) (h : p.Sees stop (us ++ V)) (hfree : ∀ t ∈ us, t.kind ≠ .eof)
    (hmem : ∃ t ∈ us.tail, t.kind = .semicolon) (hn : us.length ≤ n) :
    ∃ t u ws, (p.skipWithin n).Sees stop (t :: u :: ws ++ V) ∧ t :: u :: ws <:+ us ∧ u.kind = .semicolon := by
  obtain ⟨v, hv, hkind⟩ := hmem
  induction n generalizing p us with
  | zero =>
    obtain rfl := List.length_eq_zero_iff.mp (Nat.le_zero.mp hn)
    exact absurd hv List.not_mem_nil
  | succ n ih =>
    rcases us with _ | ⟨t, _ | ⟨u, us⟩⟩
    · exact absurd hv List.not_mem_nil
    · exact absurd hv List.not_mem_nil
    · have hpeek : p.peek = u := h.peek_eq
      have hu : u.kind ≠ .eof := hfree u (List.mem_cons_of_mem t List.mem_cons_self)
      rw [Parser.skipWithin, hpeek]
      by_cases hsemicolon : u.kind = .semicolon
      · rw [if_pos (.inl hsemicolon)]
        exact ⟨t, u, us, h, List.suffix_rfl, hsemicolon⟩
      · rw [if_neg (by simp [hsemicolon, hu])]
        have hrest : v ∈ us := by
          rcases List.mem_cons.mp hv with rfl | hrest
          · exact absurd hkind hsemicolon
          · exact hrest
        have hnext : p.advance.Sees stop (u :: us ++ V) := h.advance
        obtain ⟨t', u', ws, hws, hsuffix, hu'⟩ := ih hnext (List.forall_mem_cons.mp hfree).2
          (Nat.le_of_succ_le_succ hn) hrest
        exact ⟨t', u', ws, hws, hsuffix.trans (List.suffix_cons t _), hu'⟩

/-- With no semicolon before the tokens `V`, skipping reaches them. -/
theorem Sees.skipWithin_past (n : Nat) (h : p.Sees stop (us ++ V)) (hfree : ∀ t ∈ us, t.kind ≠ .eof)
    (hnone : ∀ t ∈ us.tail, t.kind ≠ .semicolon) (hV : headKind V = .closeCurly) (hn : us.length ≤ n) :
    (p.skipWithin n).Within stop V := by
  have hskip := fun n => @skipWithin_of_advance (Within stop V) (invariant_within stop V).advance n
  induction n generalizing p us with
  | zero =>
    obtain rfl := List.length_eq_zero_iff.mp (Nat.le_zero.mp hn)
    exact hskip 0 h.within
  | succ n ih =>
    cases us with
    | nil => exact hskip (n + 1) h.within
    | cons t us =>
      have hpeek : p.peek.kind ≠ .semicolon ∧ p.peek.kind ≠ .eof := by
        rw [h.peek_eq, headD_eof_kind]
        cases us with
        | nil =>
          show headKind V ≠ .semicolon ∧ headKind V ≠ .eof
          rw [hV]
          decide
        | cons u us => exact ⟨hnone u List.mem_cons_self, hfree u (List.mem_cons_of_mem t List.mem_cons_self)⟩
      rw [Parser.skipWithin, if_neg (by simp [hpeek])]
      have hnext : p.advance.Sees stop (us ++ V) := h.advance
      exact ih hnext (List.forall_mem_cons.mp hfree).2 (fun t ht => hnone t (List.mem_of_mem_tail ht))
        (Nat.le_of_succ_le_succ hn)

theorem Sees.length_le_left_of_append (h : p.Sees stop (us ++ V)) : us.length ≤ p.left := by
  have hle := h.length_le_left
  rw [List.length_append] at hle
  exact Nat.le_trans (Nat.le_add_right _ _) hle

/-- What is given up before the next semicolon goes on behind it. -/
theorem Sees.resumed_semicolon (h : p.Sees stop (us ++ V)) (hfree : ∀ t ∈ us, t.kind ≠ .eof)
    (hmem : ∃ t ∈ us.tail, t.kind = .semicolon) :
    ∃ ws, (atSemicolon p.resumed).advance.Sees stop (ws ++ V) ∧ ws <:+ us := by
  have hlevel : ({ p with depth := 0 } : Parser).Sees stop (us ++ V) := h.of_window rfl rfl rfl
  obtain ⟨t, u, ws, hws, hsuffix, hu⟩ := hlevel.skipWithin_semicolon p.left hfree hmem h.length_le_left_of_append
  have hresumed : p.resumed.Sees stop (t :: u :: ws ++ V) := hws.of_window rfl rfl rfl
  have hpeek : p.resumed.peek.kind = .semicolon := by
    rw [hresumed.peek_eq]
    exact hu
  refine ⟨ws, ?_, ((List.suffix_cons u ws).trans (List.suffix_cons t _)).trans hsuffix⟩
  unfold atSemicolon
  rw [if_pos hpeek]
  exact hresumed.advance.advance

theorem Within.atSemicolon (h : p.Within stop T) : (atSemicolon p).Within stop T := by
  unfold Parse.atSemicolon
  split
  · exact (invariant_within stop T).advance p h
  · exact h

/-- What is given up with no semicolon before the tokens `V` takes the first of them. -/
theorem Sees.resumed_past (h : p.Sees stop (us ++ V)) (hfree : ∀ t ∈ us, t.kind ≠ .eof)
    (hnone : ∀ t ∈ us.tail, t.kind ≠ .semicolon) (hV : headKind V = .closeCurly) : p.resumed.Within stop V := by
  have hlevel : ({ p with depth := 0 } : Parser).Sees stop (us ++ V) := h.of_window rfl rfl rfl
  obtain ⟨ws, hws, hsuffix⟩ := hlevel.skipWithin_past p.left hfree hnone hV h.length_le_left_of_append
  exact ⟨ws, hws.of_window rfl rfl rfl, hsuffix⟩

theorem Sees.exists_cons (h : p.Sees stop (t :: us ++ V)) (hV : headKind V = .closeCurly)
    (hpeek : p.peek.kind ≠ .closeCurly) : ∃ u ws, us = u :: ws := by
  cases us with
  | nil =>
    rw [h.peek_eq, headD_eof_kind] at hpeek
    exact absurd hV hpeek
  | cons u ws => exact ⟨u, ws, rfl⟩

/-- A statement that is left before a brace ends before it. -/
theorem Sees.atSemicolon (h : p.Sees stop (t :: us ++ V)) (hV : headKind V = .closeCurly) :
    ∃ ws, (Parse.atSemicolon p).advance.Sees stop (ws ++ V) ∧ ws <:+ us := by
  unfold Parse.atSemicolon
  split
  · rename_i hpeek
    obtain ⟨u, ws, rfl⟩ := h.exists_cons hV (by rw [hpeek]; decide)
    exact ⟨ws, h.advance.advance, List.suffix_cons u ws⟩
  · exact ⟨us, h.advance, List.suffix_rfl⟩

/-- An expression is being given up, with no semicolon left before the tokens `V`. -/
structure RunsOut (stop : Position) (V : List Token) (p : Parser) : Prop where
  overflowed : p.overflowed = true
  unended : ¬∃ us, (∀ t ∈ us, t.kind.Plain) ∧ p.Sees stop (us ++ V) ∧ ∃ t ∈ us.tail, t.kind = .semicolon

theorem RunsOut.congr (h : p.RunsOut stop V) (hq : q.Abreast p) (ho : q.overflowed = p.overflowed) :
    q.RunsOut stop V := by
  refine ⟨ho.trans h.overflowed, fun ⟨us, hplain, hsees, hmem⟩ => h.unended ⟨us, hplain, ?_, hmem⟩⟩
  exact hsees.of_window hq.current_eq.symm hq.peek_eq.symm hq.source_eq.symm

/-- The value of the statement that begins here is given up, and there is no semicolon for it to end at before the
tokens `V`. -/
def Overruns (limit : Nat) (stop : Position) (V : List Token) (s : Parser) : Prop :=
  Headed s ∧ (s.stoppedAt limit).RunsOut stop V

/-- The value of a statement begins before the brace or on it. -/
theorem Sees.facing_valueStart {b : Brace} (h : s.Sees b.stop (t :: us ++ b.tokens))
    (hplain : ∀ u ∈ t :: us, u.kind.Plain) (hs : s.Opening limit) (hb : b.earlier = s.diagnostics.toList)
    (hheaded : Headed s) : ∃ ws, b.Facing ws (valueStart s).deeper := by
  have hsees : ∃ ws, (valueStart s).Sees b.stop (ws ++ b.tokens) ∧ ws <:+ t :: us := by
    unfold Headed at hheaded
    unfold valueStart
    cases hform : s.current.kind.statement? with
    | none => exact ⟨t :: us, h, List.suffix_rfl⟩
    | some form =>
      cases form with
      | bind =>
        obtain ⟨hname, hassign⟩ := hheaded hform
        obtain ⟨u, ws, rfl⟩ := h.exists_cons b.closes (by rw [hname]; decide)
        have hadvance : s.advance.Sees b.stop (u :: ws ++ b.tokens) := h.advance
        obtain ⟨v, ws, rfl⟩ := hadvance.exists_cons b.closes (by rw [hassign]; decide)
        refine ⟨ws, hadvance.advance.advance, ?_⟩
        exact ((List.suffix_cons v ws).trans (List.suffix_cons u _)).trans (List.suffix_cons t _)
      | ret => exact ⟨us, h.advance, List.suffix_cons t us⟩
  obtain ⟨ws, hws, hsuffix⟩ := hsees
  refine ⟨ws, hws.of_window rfl rfl rfl, fun u hu => hplain u (hsuffix.subset hu), hs.valueStart.calm, ?_,
    Nat.succ_pos _⟩
  rw [hb]
  exact s.unharmed_refl.congr (valueStart_spec s).1

/-- A statement that is not begun well is left before the brace. -/
theorem Sees.turn_of_not_headed (h : s.Sees stop (t :: us ++ V)) (hV : headKind V = .closeCurly)
    (hheaded : ¬Headed s) :
    ∃ ws, s.turn.2.Sees stop (ws ++ V) ∧ ws <:+ us ∧ s.turn.2.Unharmed s.diagnostics.toList := by
  unfold Headed at hheaded
  obtain ⟨hform, hmissing⟩ := Classical.not_imp.mp hheaded
  unfold Parser.turn
  rw [(stmt_of_form expr s).1 hform]
  rcases bindStmt_cases expr s with ⟨hhead, -⟩ | ⟨-, expected, found, text, position, heq | ⟨hname, heq⟩⟩
  · exact absurd hhead hmissing
  · rw [heq]
    exact ⟨us, (h.report _).advance, List.suffix_rfl, (s.unharmed_refl.report rfl).congr rfl⟩
  · rw [heq]
    obtain ⟨u, ws, rfl⟩ := h.exists_cons hV (by rw [hname]; decide)
    refine ⟨ws, (h.advance.report _).advance, List.suffix_cons u ws, ?_⟩
    have hadvance : s.advance.Unharmed s.diagnostics.toList := s.unharmed_refl.congr rfl
    exact (hadvance.report rfl).congr rfl

/-- Behind a value that stops before the brace the statement ends before it; or the brace is moved past, in one of the
two ways. -/
theorem Within.before_cases {b : Brace} (hwithin : q.Within b.stop (ts ++ b.tokens)) (hplain : ∀ t ∈ ts, t.kind.Plain)
    (h : b.Before 1 q) :
    ((∃ ws, (Parse.atSemicolon (q.unwind 0)).advance.Sees b.stop (ws ++ b.tokens) ∧ ∀ t ∈ ws, t.kind.Plain) ∧
        q.Unharmed b.earlier ∧ ¬q.RunsOut b.stop b.tokens) ∨
      ((Parse.atSemicolon (q.unwind 0)).advance.Within b.stop b.tokens.tail ∧
        (q.BraceTaken b.earlier ∨ q.RunsOut b.stop b.tokens)) := by
  have hpast : (q.unwind 0).Within b.stop b.tokens →
      (Parse.atSemicolon (q.unwind 0)).advance.Within b.stop b.tokens.tail :=
    fun h => h.atSemicolon.tail
  rcases h.exists_cons with hspent | ⟨t, us, hfacing⟩
  · rcases hspent.cause with ⟨ho, hunharmed⟩ | hswallowed
    · by_cases hends : ∃ us, (∀ t ∈ us, t.kind.Plain) ∧ q.Sees b.stop (us ++ b.tokens) ∧
          ∃ t ∈ us.tail, t.kind = .semicolon
      · left
        obtain ⟨us, husplain, hus, hmem⟩ := hends
        obtain ⟨ws, hws, hsuffix⟩ := hus.resumed_semicolon (fun t ht => (husplain t ht).2.2) hmem
        rw [unwind_zero ho]
        refine ⟨⟨ws, hws, fun t ht => husplain t (hsuffix.subset ht)⟩, hunharmed, ?_⟩
        exact fun hrunsOut => hrunsOut.unended ⟨us, husplain, hus, hmem⟩
      · refine .inr ⟨hpast ?_, .inr ⟨ho, hends⟩⟩
        obtain ⟨us, hus, pre, hpre⟩ := hwithin
        -- It is given up before the brace or behind it.
        rcases List.append_eq_append_iff.mp hpre with ⟨as, rfl, rfl⟩ | ⟨as, -, htokens⟩
        · have hasplain := fun t ht => hplain t (List.mem_append_right pre ht)
          rw [unwind_zero ho]
          refine hus.resumed_past (fun t ht => (hasplain t ht).2.2) (fun t ht hkind => ?_) b.closes
          exact hends ⟨as, hasplain, hus, t, ht, hkind⟩
        · exact (invariant_within _ _).unwind 0 q ⟨us, hus, as, htokens.symm⟩
    · exact .inr ⟨hpast ((invariant_within _ _).unwind 0 q hswallowed.within), .inl hswallowed.taken⟩
  · left
    have hlevel : (q.unwind 0).Sees b.stop (t :: us ++ b.tokens) := by
      rw [unwind_of_calm 0 hfacing.calm]
      exact hfacing.sees.of_window rfl rfl rfl
    obtain ⟨ws, hws, hsuffix⟩ := hlevel.atSemicolon b.closes
    refine ⟨⟨ws, hws, fun u hu => hfacing.plain u (List.mem_cons_of_mem t (hsuffix.subset hu))⟩, hfacing.unharmed, ?_⟩
    exact fun hrunsOut => absurd (hfacing.calm.symm.trans hrunsOut.overflowed) (by decide)

/-- A statement that begins before the brace ends before it, with nothing wrong about braces; or it moves past the
brace, in one of the two ways. -/
theorem Sees.turn_cases (h : s.Sees stop (t :: us ++ V)) (hplain : ∀ u ∈ t :: us, u.kind.Plain)
    (hV : headKind V = .closeCurly) (hl : 0 < limit) (hs : s.Opening limit) :
    ((∃ ws, s.turn.2.Sees stop (ws ++ V) ∧ ∀ u ∈ ws, u.kind.Plain) ∧ s.turn.2.Unharmed s.diagnostics.toList ∧
        ¬s.Overruns limit stop V) ∨
      (s.turn.2.Within stop V.tail ∧ (s.turn.2.BraceTaken s.diagnostics.toList ∨ s.Overruns limit stop V)) := by
  by_cases hheaded : Headed s
  · obtain ⟨n, rfl⟩ : ∃ n, limit = n + 1 := Nat.exists_eq_succ_of_ne_zero (Nat.ne_of_gt hl)
    obtain ⟨ws, hfacing⟩ := h.facing_valueStart (b := ⟨stop, V, s.diagnostics.toList, hV⟩) hplain hs rfl hheaded
    have hroom : Room (n + 1) (n + 1) (valueStart s).deeper := by
      refine ⟨hs.valueStart.limit_eq, ?_⟩
      show n + 1 < (valueStart s).depth + 1 + (n + 1)
      omega
    have hchain := Brace.before_chain .lowest hroom (.inr ⟨ws, Nat.zero_le _, hfacing⟩)
    have hI := invariant_within stop (t :: us ++ V)
    have hwithin := Sim.sim_same_iff.mp (hI.chain (hI.exprWithin (n + 1)) .lowest)
    have hstart : (valueStart s).Within stop (t :: us ++ V) :=
      valueStart_of_advance (R := fun p _ => p.Within stop (t :: us ++ V)) (fun p _ h => hI.advance p h) rfl h.within
    have hstopped : Alike s.diagnostics.toList [] _ (s.stoppedAt (n + 1)) :=
      stoppedAt_alike (hs.limit_eq ▸ s.restart_alike)
    have hcases := (hwithin _ (hI.deeper _ hstart)).2.before_cases hplain hchain
    rw [turn_of_opening hl hs hheaded]
    generalize chain (exprWithin (fun _ => fail) (n + 1)) .lowest (valueStart s).deeper = r at hstopped hcases ⊢
    have hoverruns : s.Overruns (n + 1) stop V ↔ r.2.RunsOut stop V := by
      refine (and_iff_right hheaded).trans ⟨fun h => ?_, fun h => ?_⟩
      · exact h.congr hstopped.toAbreast hstopped.overflowed_eq
      · exact h.congr hstopped.toAbreast.symm hstopped.overflowed_eq.symm
    have hdiagnostics : (Parse.atSemicolon (r.2.unwind 0)).advance.diagnostics = r.2.diagnostics :=
      (atSemicolon_spec _).1.trans (r.2.unwind_diagnostics 0)
    rw [hoverruns]
    rcases hcases with ⟨hbefore, hunharmed, hends⟩ | ⟨hpast, htaken⟩
    · exact .inl ⟨hbefore, hunharmed.congr hdiagnostics, hends⟩
    · refine .inr ⟨hpast, htaken.imp_left fun htaken => htaken.grows ?_⟩
      exact hdiagnostics ▸ List.prefix_rfl
  · left
    obtain ⟨ws, hws, hsuffix, hunharmed⟩ := h.turn_of_not_headed hV hheaded
    refine ⟨⟨ws, hws, fun u hu => hplain u (List.mem_cons_of_mem t (hsuffix.subset hu))⟩, hunharmed, ?_⟩
    exact fun hoverruns => hheaded hoverruns.1

/-- Where statements are parsed one after another from `p` on, up to a closing brace or an end, one begins at `s`. -/
inductive StartsFrom : Parser → Parser → Prop
  | here {p : Parser} : p.current.kind ≠ .closeCurly → p.current.kind ≠ .eof → StartsFrom p p
  | later {p s : Parser} : p.current.kind ≠ .closeCurly → p.current.kind ≠ .eof → StartsFrom p.turn.2 s →
    StartsFrom p s

/-- What `q` has reported that `p` had not. -/
def reportedSince (p q : Parser) : List Diagnostic :=
  q.diagnostics.toList.drop p.diagnostics.size

theorem reportedSince_eq {D : List Diagnostic} (h : q.diagnostics.toList = p.diagnostics.toList ++ D) :
    p.reportedSince q = D := by
  unfold reportedSince
  rw [h]
  exact List.drop_left' p.diagnostics.length_toList

end Parser

/-- The statements before a brace end on it, with nothing wrong about braces; or one of them moves past it. -/
theorem statements_cases {found : Array Stmt} {r : Option (Array Stmt) × Parser}
    (hloop : Loops (fun p => !(p.current.kind == .closeCurly || p.current.kind == .eof)) (collect expr) found p r)
    (hp : p.Opening limit) (hl : 0 < limit) (hsees : p.Sees stop (us ++ V)) (hplain : ∀ t ∈ us, t.kind.Plain)
    (hV : headKind V = .closeCurly) :
    (r.2.Sees stop V ∧ r.2.Unharmed p.diagnostics.toList ∧ ∀ s, p.StartsFrom s → ¬s.Overruns limit stop V) ∨
      (r.2.Within stop V.tail ∧
        (r.2.BraceTaken p.diagnostics.toList ∨ ∃ s, p.StartsFrom s ∧ s.Overruns limit stop V)) := by
  induction hloop generalizing us with
  | @done found p hmore =>
    left
    have hends : p.current.kind = .closeCurly ∨ p.current.kind = .eof :=
      Decidable.or_iff_not_imp_left.mpr (by simpa using hmore)
    cases us with
    | nil =>
      refine ⟨hsees, p.unharmed_refl, fun s hs => ?_⟩
      rcases hs with ⟨hclose, heof⟩ | ⟨hclose, heof, -⟩ <;> exact absurd hends (not_or.mpr ⟨hclose, heof⟩)
    | cons t us =>
      have hcurrent : p.current = t := hsees.current_eq
      have htplain := hplain t List.mem_cons_self
      rw [hcurrent] at hends
      exact absurd hends (not_or.mpr htplain.2)
  | failed _ hs =>
    rw [collect_eq] at hs
    exact nomatch hs
  | @again found found' p q r hmore hs hloop ih =>
    rw [collect_eq] at hs
    obtain rfl : p.turn.2 = q := congrArg Prod.snd hs
    have hgo : p.current.kind ≠ .closeCurly ∧ p.current.kind ≠ .eof := by simpa using hmore
    cases us with
    | nil =>
      rw [hsees.current_eq, headD_eof_kind] at hgo
      exact absurd hV hgo.1
    | cons t us =>
      have hstep : ∀ I : Parser → Prop, Invariant I → ∀ found p, I p → I (collect expr found p).2 := by
        intro I hI found p hp
        rw [collect_eq]
        exact hI.turn hp
      rcases hsees.turn_cases hplain hV hl hp with ⟨⟨ws, hws, hwsplain⟩, hunharmed, hends⟩ | ⟨hpast, hcause⟩
      · rcases ih hp.turn hws hwsplain with ⟨hsees', hunharmed', hstarts⟩ | ⟨hpast, htaken | ⟨s, hs, hoverruns⟩⟩
        · refine .inl ⟨hsees', hunharmed.trans hunharmed', fun s hs => ?_⟩
          cases hs with
          | here => exact hends
          | later _ _ hlater => exact hstarts s hlater
        · exact .inr ⟨hpast, .inl (htaken.of_unharmed hunharmed)⟩
        · exact .inr ⟨hpast, .inr ⟨s, .later hgo.1 hgo.2 hs, hoverruns⟩⟩
      · refine .inr ⟨hloop.invariant (hstep _ (invariant_within stop V.tail)) hpast, ?_⟩
        rcases hcause with htaken | hoverruns
        · have hgrows := hloop.invariant (hstep _ (invariant_earlier p.turn.2.diagnostics.toList)) List.prefix_rfl
          exact .inl (htaken.grows hgrows)
        · exact .inr ⟨p, .here hgo.1 hgo.2, hoverruns⟩

theorem exists_found {more : Parser → Bool} {found : Array Stmt} {r : Option (Array Stmt) × Parser}
    (h : Loops more (collect expr) found p r) : ∃ found', r.1 = some found' := by
  induction h with
  | done => exact ⟨_, rfl⟩
  | failed _ hs =>
    rw [collect_eq] at hs
    exact nomatch hs
  | again _ _ _ ih => exact ih

/-- A block is its statements, and a report where they go on to an end. -/
theorem block_cases (p : Parser) : ∃ r : Option (Array Stmt) × Parser,
    Loops (fun p => !(p.current.kind == .closeCurly || p.current.kind == .eof)) (collect expr) #[] p.advance r ∧
      ((r.2.current.kind ≠ .eof ∧ (block expr p).2 = r.2) ∨
        (r.2.current.kind = .eof ∧
          (block expr p).2 = r.2.report ⟨.unterminatedBlock p.current.value, p.current.span.start⟩)) := by
  have hloop := (loopsHalt Steady.expr).statements (fun k => k == .closeCurly || k == .eof) rfl #[] p.advance
  refine ⟨_, hloop, ?_⟩
  have hblock : block expr p = (stmtsUntil expr (fun k => k == .closeCurly || k == .eof) >>= fun body =>
      currentIs .eof >>= fun unclosed => (do
        if unclosed then report ⟨.unterminatedBlock p.current.value, p.current.span.start⟩
        return .mk p.current body.toList)) p.advance := rfl
  unfold stmtsUntil at hblock
  rw [hblock, bind_apply]
  generalize repeatWhile _ (collect expr) #[] p.advance = r at hloop ⊢
  obtain ⟨found, hfound⟩ := exists_found hloop
  obtain ⟨o, q⟩ := r
  obtain rfl : o = some found := hfound
  have hcurrentIs : currentIs .eof q = (some (q.current.kind == .eof), q) := rfl
  show (_ ∧ ((currentIs .eof >>= _) q).2 = q) ∨ _ ∧ ((currentIs .eof >>= _) q).2 = _
  rw [bind_apply, hcurrentIs]
  by_cases heof : q.current.kind = .eof
  · have hunclosed : (q.current.kind == .eof) = true := beq_iff_eq.mpr heof
    rw [hunclosed]
    exact .inr ⟨heof, rfl⟩
  · have hclosed : (q.current.kind == .eof) = false := beq_eq_false_iff_ne.mpr heof
    rw [hclosed]
    exact .inl ⟨heof, rfl⟩

/-- A block whose statements hold no brace ends on its closing brace if and only if no operand should begin on a closing
brace and no expression is given up without a semicolon left in the block. -/
theorem block_stops_iff {left right : Token} {B R : List Token} (hl : 0 < limit) (hp : p.Opening limit)
    (hB : ∀ t ∈ B, t.kind.Plain) (hright : right.kind = .closeCurly)
    (hsees : p.Sees stop (left :: (B ++ right :: R))) :
    ((block expr p).2.Sees stop (right :: R) ∧ ∀ d ∈ p.reportedSince (block expr p).2, d.fault.unclosed = false) ↔
      (∀ d ∈ p.reportedSince (block expr p).2, d.fault.swallows = false) ∧
        ∀ s, p.advance.StartsFrom s → ¬s.Overruns limit stop (right :: R) := by
  obtain ⟨⟨o, q⟩, hloop, hend⟩ := block_cases p
  have hadvance : p.advance.Opening limit := ⟨hp.limit_eq, hp.depth_eq, hp.calm⟩
  have hbody : p.advance.Sees stop (B ++ right :: R) := hsees.advance
  have hV : headKind (right :: R) = .closeCurly := hright
  rcases statements_cases hloop hadvance hl hbody hB hV with ⟨hstops, ⟨D, hD, hharmless⟩, hstarts⟩ | ⟨hpast, hcause⟩
  · have hcurrent : q.current.kind = .closeCurly := by
      rw [hstops.current_eq]
      exact hright
    rcases hend with ⟨-, heq⟩ | ⟨heof, -⟩
    · have hreported : p.reportedSince q = D := Parser.reportedSince_eq hD
      have hboth : ∀ d ∈ D, d.fault.swallows = false ∧ d.fault.unclosed = false := by
        intro d hd
        simpa [Fault.harmless] using hharmless d hd
      rw [heq, hreported]
      exact iff_of_true ⟨hstops, fun d hd => (hboth d hd).2⟩ ⟨fun d hd => (hboth d hd).1, hstarts⟩
    · exact absurd (hcurrent.symm.trans heof) (by decide)
  · have hI := invariant_within stop R
    have hafter : (block expr p).2.Within stop R ∧
        q.diagnostics.toList <+: (block expr p).2.diagnostics.toList := by
      rcases hend with ⟨-, heq⟩ | ⟨-, heq⟩ <;> rw [heq]
      · exact ⟨hpast, List.prefix_rfl⟩
      · exact ⟨hI.report _ (by intro _ h; cases h) q hpast, (q.grows_report _).earlier⟩
    refine iff_of_false (fun h => h.1.not_within (by rw [hright]; decide) hafter.1) fun h => ?_
    rcases hcause with htaken | ⟨s, hs, hoverruns⟩
    · obtain ⟨D, hD, d, hd, hswallows⟩ := htaken.grows hafter.2
      have hreported : p.reportedSince (block expr p).2 = D := Parser.reportedSince_eq hD
      rw [hreported] at h
      exact absurd (h.1 d hd) (by simp [hswallows])
    · exact h.2 s hs hoverruns

/-- The tokens of `{ return }`. -/
def bareReturn : List Token :=
  [.loose .openCurly "\x7b", .loose .returnWord "return", .loose .closeCurly "\x7d"]

/-- The value of the `return` should begin on the brace, so the block does not stop there. -/
theorem block_stops_iff_bareReturn : 0 < maxNestingDepth ∧ (Parser.ofTokens bareReturn).Opening maxNestingDepth ∧
    (∀ t ∈ [Token.loose .returnWord "return"], t.kind.Plain) ∧
    (Parser.ofTokens bareReturn).Sees Position.null bareReturn ∧
    ¬((block expr (Parser.ofTokens bareReturn)).2.Sees Position.null [.loose .closeCurly "\x7d"] ∧
      ∀ d ∈ (Parser.ofTokens bareReturn).reportedSince (block expr (Parser.ofTokens bareReturn)).2,
        d.fault.unclosed = false) := by
  have hopening : (Parser.ofTokens bareReturn).Opening maxNestingDepth := Parser.opening_withLimit _ _
  have hplain : ∀ t ∈ [Token.loose .returnWord "return"], t.kind.Plain := by decide
  have hsees : (Parser.ofTokens bareReturn).Sees Position.null bareReturn := ⟨rfl, rfl, rfl⟩
  have htaken : ¬∀ d ∈ (Parser.ofTokens bareReturn).reportedSince (block expr (Parser.ofTokens bareReturn)).2,
      d.fault.swallows = false := by decide
  refine ⟨by decide, hopening, hplain, hsees, fun h => htaken ?_⟩
  exact ((block_stops_iff (by decide) hopening hplain rfl hsees).mp h).1

end FrontEnd
