import FrontEnd.Proofs.Parser.Limit
import FrontEnd.Proofs.Parser.Program

/-!
Programs statement by statement: where each statement begins, and what the parser still has before it there.
-/

namespace FrontEnd

/-- The tokens from here on of a parser that takes them from a buffer. -/
def Parser.remaining (p : Parser) : List Token :=
  match p.source with
  | .buffer b => (p.current :: p.peek :: b.tokens).takeWhile fun t => t.kind ≠ .eof
  | .text _ => []

/-- One statement of a program, and the move onto the token behind it. -/
def Parser.turn (p : Parser) : Option Stmt × Parser :=
  ((Parse.stmt Parse.expr p).1, (Parse.stmt Parse.expr p).2.advance)

/-- The states in which the next statements begin, up to so many. -/
def Parser.startsWithin : Nat → Parser → List Parser
  | 0, _ => []
  | n + 1, p => if p.current.kind = .eof then [] else p :: startsWithin n p.turn.2

def Parser.finishWithin : Nat → Parser → Parser
  | 0, p => p
  | n + 1, p => if p.current.kind = .eof then p else finishWithin n p.turn.2

/-- The states in which the statements of the program begin. -/
def starts (limit : Nat) (T : List Token) : List Parser :=
  let p := Parser.withLimit limit (.buffer (TokenBuffer.ofList T))
  p.startsWithin p.left

variable {stop : Position} {T ts : List Token} {p q : Parser} {limit : Nat}

theorem Parser.Reads.remaining (h : p.Reads stop ts) : p.remaining = ts := by
  unfold Parser.remaining
  rw [h.source_eq, h.current_eq, h.peek_eq]
  rcases ts with _ | ⟨t, _ | ⟨u, ts⟩⟩
  · rfl
  · have ht := h.free t List.mem_cons_self
    simp [ht, Token.eof]
  · have hfree : ∀ v ∈ t :: u :: ts, decide (v.kind ≠ .eof) = true := fun v hv => decide_eq_true (h.free v hv)
    have htake := @List.takeWhile_append_of_pos _ (fun v : Token => decide (v.kind ≠ .eof)) (t :: u :: ts) [] hfree
    rw [List.takeWhile_nil, List.append_nil] at htake
    exact htake

theorem Parser.Sees.abreast (hp : p.Sees stop ts) (hq : q.Sees stop ts) (hd : p.depth = q.depth) : p.Abreast q :=
  ⟨hp.current_eq.trans hq.current_eq.symm, hp.peek_eq.trans hq.peek_eq.symm, hp.source_eq.trans hq.source_eq.symm, hd⟩

theorem Parser.Reads.abreast (hp : p.Reads stop ts) (hq : q.Reads stop ts) (hd : p.depth = q.depth) : p.Abreast q :=
  hp.sees.abreast hq.sees hd

theorem Parser.Abreast.reads (h : p.Abreast q) (hq : q.Reads stop ts) : p.Reads stop ts :=
  ⟨h.current_eq.trans hq.current_eq, h.peek_eq.trans hq.peek_eq, h.source_eq.trans hq.source_eq, hq.free⟩

namespace Parser

/-- Before the last ones of the tokens `T`. -/
def Trails (stop : Position) (T : List Token) (p : Parser) : Prop :=
  ∃ us, p.Reads stop us ∧ us <:+ T

theorem Trails.advance (h : p.Trails stop T) : p.advance.Trails stop T := by
  obtain ⟨us, hus, hsuffix⟩ := h
  exact ⟨us.tail, hus.advance, (List.tail_suffix us).trans hsuffix⟩

theorem Trails.of_window (h : q.Trails stop T) (hcurrent : p.current = q.current) (hpeek : p.peek = q.peek)
    (hsource : p.source = q.source) : p.Trails stop T := by
  obtain ⟨us, hus, hsuffix⟩ := h
  exact ⟨us, ⟨hcurrent.trans hus.current_eq, hpeek.trans hus.peek_eq, hsource.trans hus.source_eq, hus.free⟩, hsuffix⟩

end Parser

namespace Parse

/-- The tokens before a parser are always the last ones of those that it began with. -/
theorem invariant_trails (stop : Position) (T : List Token) : Invariant (Parser.Trails stop T) :=
  invariant_of_window (fun _ h => h.advance) fun _ _ hcurrent hpeek hsource h => h.of_window hcurrent hpeek hsource

theorem invariant_limit (limit : Nat) : Invariant fun p => p.limit = limit :=
  ⟨fun _ h => h, fun d _ p h => (Parser.report_limit d p).trans h, fun _ h => h, fun _ _ h => h,
    fun depth p h => (p.unwind_limit depth).trans h⟩

theorem invariant_earlier (C : List Diagnostic) : Invariant fun p => C <+: p.diagnostics.toList :=
  ⟨fun _ h => h, fun d _ p h => h.trans (p.grows_report d).earlier, fun _ h => h,
    fun p _ h => h.trans p.grows_gaveUp.earlier, fun depth p h => h.trans (p.grows_unwind depth).earlier⟩

theorem Invariant.turn {I : Parser → Prop} (hI : Invariant I) (h : I p) : I p.turn.2 :=
  hI.advance _ (hI.stmt h)

/-- What comes before the value is as its statement asks for. -/
def Headed (p : Parser) : Prop :=
  p.current.kind.statement? = some .bind → p.peek.kind = .identifier ∧ p.advance.peek.kind = .assign

/-- Where the value of a statement begins. -/
def valueStart (p : Parser) : Parser :=
  match p.current.kind.statement? with
  | some .bind => p.advance.advance.advance
  | some .ret => p.advance
  | none => p

/-- The statement around a value, if there is one. -/
def conclude (p : Parser) (value : Option Expr) : Option Stmt :=
  match p.current.kind.statement? with
  | some .bind => some (.bind p.current ⟨p.peek, p.peek.value⟩ (value.map (Expr.labelled p.peek.value)))
  | some .ret => some (.ret p.current value)
  | none => value.map (.expr p.current)

/-- Onto the semicolon, if it is next. -/
def atSemicolon (p : Parser) : Parser :=
  if p.peek.kind = .semicolon then p.advance else p

theorem skipSemicolon_eq (p : Parser) : skipSemicolon p = (some (), atSemicolon p) := by
  unfold skipSemicolon atSemicolon
  rw [bind_apply]
  by_cases h : p.peek.kind = .semicolon
  · have hpeek : peekIs .semicolon p = (some true, p) := by simp [peekIs, view, h]
    rw [hpeek, if_pos h]
    rfl
  · have hpeek : peekIs .semicolon p = (some false, p) := by simp [peekIs, view, h]
    rw [hpeek, if_neg h]
    rfl

/-- A value and the semicolon, if there is one. -/
theorem value_apply {β : Type} (sub : SubExpr) (f : Option Expr → Parse β) (p : Parser) :
    (attempt (sub .lowest) >>= fun value => skipSemicolon >>= fun _ => f value) p =
      f (sub .lowest p).1 (atSemicolon (sub .lowest p).2) := by
  have hattempt : attempt (sub .lowest) p = (some (sub .lowest p).1, (sub .lowest p).2) := rfl
  rw [bind_apply, hattempt]
  show (skipSemicolon >>= fun _ => f (sub .lowest p).1) (sub .lowest p).2 = _
  rw [bind_apply, skipSemicolon_eq]

theorem ident_of_peek (h : p.peek.kind = .identifier) : ident p = (some ⟨p.peek, p.peek.value⟩, p.advance) := by
  unfold ident
  rw [bind_apply]
  rcases expect_cases .identifier p with ⟨-, hx⟩ | ⟨hne, -⟩
  · rw [hx]
    rfl
  · exact absurd h hne

/-- Which of the statements it is, the first token tells. -/
theorem stmt_of_form (sub : SubExpr) (p : Parser) :
    (p.current.kind.statement? = some .bind → stmt sub p = bindStmt sub p) ∧
      (p.current.kind.statement? = some .ret → stmt sub p = retStmt sub p) ∧
      (p.current.kind.statement? = none → stmt sub p = exprStmt sub p) := by
  have hcurrent : current p = (some p.current, p) := rfl
  unfold stmt
  rw [bind_apply, hcurrent]
  refine ⟨fun h => ?_, fun h => ?_, fun h => ?_⟩ <;> simp only [h]

/-- A binding gets as far as its value, or to where the name or the sign between them is missing. -/
theorem bindStmt_cases (sub : SubExpr) (p : Parser) :
    ((p.peek.kind = .identifier ∧ p.advance.peek.kind = .assign) ∧ bindStmt sub p =
      (some (.bind p.current ⟨p.peek, p.peek.value⟩
        ((sub .lowest p.advance.advance.advance).1.map (Expr.labelled p.peek.value))),
          atSemicolon (sub .lowest p.advance.advance.advance).2)) ∨
      (¬(p.peek.kind = .identifier ∧ p.advance.peek.kind = .assign) ∧ ∃ expected found text position,
        bindStmt sub p = (none, p.report ⟨.unexpectedToken expected found text, position⟩) ∨
          (p.peek.kind = .identifier ∧
            bindStmt sub p = (none, p.advance.report ⟨.unexpectedToken expected found text, position⟩))) := by
  generalize hr : bindStmt sub p = r
  have hcurrent : current p = (some p.current, p) := rfl
  unfold bindStmt at hr
  rw [bind_apply, hcurrent] at hr
  change (ident >>= _) p = r at hr
  rw [bind_apply] at hr
  rcases expect_cases .identifier p with ⟨hname, -⟩ | ⟨hname, hx⟩
  · rw [ident_of_peek hname] at hr
    change (expect .assign >>= _) p.advance = r at hr
    rw [bind_apply] at hr
    rcases expect_cases .assign p.advance with ⟨hassign, hx⟩ | ⟨hassign, hx⟩
    · rw [hx] at hr
      have hvalue := value_apply sub (fun value =>
        Pure.pure (Stmt.bind p.current ⟨p.peek, p.peek.value⟩ (value.map (Expr.labelled p.peek.value))))
          p.advance.advance.advance
      exact .inl ⟨⟨hname, hassign⟩, hr.symm.trans hvalue⟩
    · rw [hx] at hr
      exact .inr ⟨fun h => hassign h.2, _, _, _, _, .inr ⟨hname, hr.symm⟩⟩
  · have hident : ident p = (none, (expect .identifier p).2) := by
      unfold ident
      rw [bind_apply, hx]
    rw [hident, hx] at hr
    exact .inr ⟨fun h => hname h.1, _, _, _, _, .inl hr.symm⟩

/-- A statement that is begun well is its value and the semicolon, if there is one. -/
theorem stmt_eq (sub : SubExpr) (h : Headed p) :
    stmt sub p = (conclude p (sub .lowest (valueStart p)).1, atSemicolon (sub .lowest (valueStart p)).2) := by
  obtain ⟨hbind, hret, hexpr⟩ := stmt_of_form sub p
  unfold valueStart conclude
  cases hform : p.current.kind.statement? with
  | none =>
    refine (hexpr hform).trans ?_
    refine (value_apply sub (fun value => ofOption value >>= fun e => Pure.pure (Stmt.expr p.current e)) p).trans ?_
    cases (sub .lowest p).1 <;> rfl
  | some form =>
    cases form with
    | bind =>
      refine (hbind hform).trans ?_
      rcases bindStmt_cases sub p with ⟨-, heq⟩ | ⟨hnot, -⟩
      · exact heq
      · exact absurd (h hform) hnot
    | ret =>
      refine (hret hform).trans ?_
      exact value_apply sub (fun value => Pure.pure (Stmt.ret p.current value)) p.advance

theorem turn_eq (h : Headed p) : p.turn = (conclude p (expr .lowest (valueStart p)).1,
    (atSemicolon (expr .lowest (valueStart p)).2).advance) := by
  unfold Parser.turn
  rw [stmt_eq expr h]

/-- A statement that is not begun well is reported. -/
theorem headed_of_quiet (sub : SubExpr) (ho : p.overflowed = false) (h : (stmt sub p).2.diagnostics = p.diagnostics) :
    Headed p := by
  intro hform
  have hreport : ∀ (d : Diagnostic) (q : Parser), q.overflowed = false → (q.report d).diagnostics ≠ q.diagnostics := by
    intro d q hq heq
    rw [q.report_of_calm d hq] at heq
    exact absurd (congrArg Array.size heq) (by simp)
  rw [(stmt_of_form sub p).1 hform] at h
  rcases bindStmt_cases sub p with ⟨hhead, -⟩ | ⟨-, _, _, _, _, heq | ⟨-, heq⟩⟩
  · exact hhead
  · rw [heq] at h
    exact absurd h (hreport _ p ho)
  · rw [heq] at h
    exact absurd h (hreport _ p.advance ho)

end Parse

/-! One statement after another -/

/-- On the outermost level, with no expression being given up. -/
structure Parser.Opening (limit : Nat) (p : Parser) : Prop where
  limit_eq : p.limit = limit
  depth_eq : p.depth = 0
  calm : p.overflowed = false

namespace Parser

theorem Opening.ready (h : p.Opening limit) : p.Ready limit (limit + 1) :=
  ⟨h.limit_eq, Nat.lt_add_left p.depth (Nat.lt_succ_self limit), fun _ => h.depth_eq ▸ Nat.zero_le p.limit⟩

theorem opening_withLimit (limit : Nat) (source : TokenSource) : (withLimit limit source).Opening limit :=
  ⟨rfl, rfl, rfl⟩

/-- Whatever happens to a statement, the next one begins on the outermost level again. -/
theorem Opening.turn (h : p.Opening limit) : p.turn.2.Opening limit := by
  have hlocked := @Parse.Sim.locked_same (Opening limit) (fun _ h => ⟨h.limit_eq, h.depth_eq, h.calm⟩) (by
    intro d _ p h
    unfold Parser.report
    split <;> exact ⟨h.limit_eq, h.depth_eq, h.calm⟩)
  have hexpr : ∀ power, Parse.Sim (Parse.Sim.Same (Opening limit)) Parse.Sim.Never (fun _ => True) (Parse.expr power)
      (Parse.expr power) := by
    intro power
    apply Parse.Sim.sim_same_iff.mpr
    intro p hp
    have hlimit := ((Parse.invariant_limit limit).expr power).run p p ⟨rfl, hp.limit_eq⟩
    -- Whatever an expression does, it goes back to where it began in the end.
    have hunwind : ∃ q : Parser, (Parse.expr power p).2 = q.unwind 0 := by
      rw [← hp.depth_eq]
      exact ⟨_, rfl⟩
    refine ⟨fun _ _ => trivial, ?_⟩
    obtain ⟨q, hq⟩ := hunwind
    rcases hlimit with ⟨-, -, -, hlimit⟩ | hnever
    · rw [hq] at hlimit ⊢
      refine ⟨hlimit, q.unwind_depth 0, ?_⟩
      cases ho : (q.unwind 0).overflowed with
      | false => rfl
      | true => exact absurd rfl ((q.unwind_overflowed 0).mp ho).1
    · exact hnever.elim
  have hstmt := Parse.Sim.stmt (Q := fun _ => True) hlocked hexpr fun _ _ _ => trivial
  have hopening := (Parse.Sim.sim_same_iff.mp hstmt p h).2
  exact ⟨hopening.limit_eq, hopening.depth_eq, hopening.calm⟩

/-- A statement takes at least one token. -/
theorem Reads.turn (h : p.Reads stop ts) (hts : ts ≠ []) :
    ∃ us, p.turn.2.Reads stop us ∧ us.length < ts.length := by
  obtain ⟨vs, hvs, hsuffix⟩ := (Parse.invariant_trails stop ts).stmt ⟨ts, h, List.suffix_rfl⟩
  refine ⟨vs.tail, hvs.advance, ?_⟩
  have hle := hsuffix.length_le
  have hpos := List.length_pos_iff.mpr hts
  rw [List.length_tail]
  omega

theorem Reads.current_ne_eof (h : p.Reads stop ts) (hts : ts ≠ []) : p.current.kind ≠ .eof := by
  intro heof
  rw [h.current_kind] at heof
  exact hts (h.eq_nil heof)

theorem startsWithin_of_eof (h : p.current.kind = .eof) (n : Nat) : p.startsWithin n = [] := by
  cases n with
  | zero => rfl
  | succ n => exact if_pos h

theorem startsWithin_of_ne_eof (h : p.current.kind ≠ .eof) (n : Nat) :
    p.startsWithin (n + 1) = p :: p.turn.2.startsWithin n :=
  if_neg h

theorem startsWithin_nil (h : p.Reads stop []) (n : Nat) : p.startsWithin n = [] :=
  startsWithin_of_eof h.current_kind n

theorem startsWithin_cons (h : p.Reads stop ts) (hts : ts ≠ []) (n : Nat) :
    p.startsWithin (n + 1) = p :: p.turn.2.startsWithin n :=
  startsWithin_of_ne_eof (h.current_ne_eof hts) n

theorem finishWithin_of_eof (h : p.current.kind = .eof) (n : Nat) : p.finishWithin n = p := by
  cases n with
  | zero => rfl
  | succ n => exact if_pos h

theorem finishWithin_of_ne_eof (h : p.current.kind ≠ .eof) (n : Nat) :
    p.finishWithin (n + 1) = p.turn.2.finishWithin n :=
  if_neg h

theorem finishWithin_nil (h : p.Reads stop []) (n : Nat) : p.finishWithin n = p :=
  finishWithin_of_eof h.current_kind n

theorem finishWithin_cons (h : p.Reads stop ts) (hts : ts ≠ []) (n : Nat) :
    p.finishWithin (n + 1) = p.turn.2.finishWithin n :=
  finishWithin_of_ne_eof (h.current_ne_eof hts) n

theorem earlier_turn (p : Parser) : p.diagnostics.toList <+: p.turn.2.diagnostics.toList :=
  (Parse.invariant_earlier p.diagnostics.toList).stmt List.prefix_rfl

theorem earlier_finishWithin (n : Nat) (p : Parser) :
    p.diagnostics.toList <+: (p.finishWithin n).diagnostics.toList := by
  induction n generalizing p with
  | zero => exact List.prefix_rfl
  | succ n ih =>
    rw [finishWithin]
    split
    · exact List.prefix_rfl
    · exact p.earlier_turn.trans (ih p.turn.2)

/-- Where nothing is reported in the end, nothing is reported of the first statement or of those behind it. -/
theorem quiet_finishWithin (n : Nat) (h : (p.turn.2.finishWithin n).diagnostics = p.diagnostics) :
    p.turn.2.diagnostics = p.diagnostics ∧ (p.turn.2.finishWithin n).diagnostics = p.turn.2.diagnostics := by
  have hlater := earlier_finishWithin n p.turn.2
  rw [h] at hlater
  have heq : p.turn.2.diagnostics = p.diagnostics :=
    Array.toList_inj.mp (hlater.eq_of_length_le p.earlier_turn.length_le)
  exact ⟨heq, h.trans heq.symm⟩

end Parser

namespace Parse

theorem collect_eq (found : Array Stmt) (p : Parser) :
    collect expr found p = (some (found ++ p.turn.1.toList.toArray), p.turn.2) := by
  have hattempt : attempt (stmt expr) p = (some p.turn.1, (stmt expr p).2) := rfl
  unfold collect
  rw [bind_apply, hattempt]
  cases p.turn.1 with
  | none => exact Prod.ext (congrArg some (by simp)) rfl
  | some s => exact Prod.ext (congrArg some (by simp)) rfl

/-- The loop over the statements of a program, a turn at a time. -/
theorem stmtsUntil_eof (p : Parser) : stmtsUntil expr (fun k => k == .eof) p =
    (some ((p.startsWithin p.left).filterMap fun q => q.turn.1).toArray, p.finishWithin p.left) := by
  have hloop : ∀ (n : Nat) (found : Array Stmt) (p : Parser),
      repeatWithin (fun p => !(p.current.kind == .eof)) (collect expr) n found p =
        (some (found ++ ((p.startsWithin n).filterMap fun q => q.turn.1).toArray), p.finishWithin n) := by
    intro n
    induction n with
    | zero => exact fun found p => by simp [repeatWithin, Parser.startsWithin, Parser.finishWithin]
    | succ n ih =>
      intro found p
      rw [Parser.startsWithin, Parser.finishWithin, repeatWithin, collect_eq]
      by_cases heof : p.current.kind = .eof
      · simp [heof]
      · have hmore : (!(p.current.kind == .eof)) = true := by simpa using heof
        rw [if_pos hmore, if_neg heof, if_neg heof]
        refine (ih _ p.turn.2).trans ?_
        rw [List.filterMap_cons]
        cases p.turn.1 with
        | none => simp
        | some s => simp
  refine (hloop p.left #[] p).trans ?_
  simp

theorem program_eq (p : Parser) :
    program p = (some ⟨(p.startsWithin p.left).filterMap fun q => q.turn.1⟩, p.finishWithin p.left) := by
  unfold program
  rw [bind_apply, stmtsUntil_eof]
  rfl

end Parse

theorem parseWithin_eq (limit : Nat) (T : List Token) :
    parseWithin limit T = (⟨(starts limit T).filterMap fun q => q.turn.1⟩,
      ((Parser.withLimit limit (.buffer (TokenBuffer.ofList T))).finishWithin
        (Parser.withLimit limit (.buffer (TokenBuffer.ofList T))).left).diagnostics.toList) := by
  unfold parseWithin
  rw [Parse.program_eq]
  rfl

end FrontEnd
