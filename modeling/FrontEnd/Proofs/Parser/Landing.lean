import FrontEnd.Proofs.Parser.Program

/-!
Runs that go well: from which tokens to which others they get, with what result, and how deep they go.
-/

namespace FrontEnd

/-- The tokens from the current one on, the level of nesting, and the deepest one so far. -/
structure Place where
  tokens : List Token
  level : Nat
  deepest : Nat

/-- The parser is at the place, with nothing reported or being given up. -/
structure Parser.At (limit : Nat) (stop : Position) (s : Place) (p : Parser) : Prop extends p.Reads stop s.tokens where
  limit_eq : p.limit = limit
  depth_eq : p.depth = s.level
  deepest_eq : p.deepest = s.deepest
  level_le : s.level ≤ s.deepest
  calm : p.overflowed = false
  quiet : p.diagnostics = #[]

variable {limit : Nat} {stop : Position} {s s₁ s₂ : Place} {t u : Token} {ts us : List Token} {d D d' D' : Nat} {p : Parser}

theorem Parser.at_withLimit {T : List Token} (h : (withLimit limit (.buffer ⟨T, stop⟩)).Reads stop T) :
    (withLimit limit (.buffer ⟨T, stop⟩)).At limit stop ⟨T, 0, 0⟩ :=
  ⟨h, rfl, rfl, rfl, Nat.le_refl 0, rfl, rfl⟩

theorem Parser.At.deeper (h : p.At limit stop ⟨ts, d, D⟩) : p.deeper.At limit stop ⟨ts, d + 1, max D (d + 1)⟩ := by
  obtain ⟨hreads, hlimit, hdepth, hdeepest, -, hcalm, hquiet⟩ := h
  refine ⟨hreads.deeper, hlimit, congrArg (· + 1) hdepth, ?_, Nat.le_max_right _ _, hcalm, hquiet⟩
  show max p.deepest (p.depth + 1) = max D (d + 1)
  rw [hdeepest, hdepth]

namespace Parse

variable {α β σ : Type}

/-- From the one place the step gets to the other, with this result. -/
def Lands (limit : Nat) (stop : Position) (x : Parse α) (s : Place) (a : α) (s' : Place) : Prop :=
  ∀ p : Parser, p.At limit stop s → ∃ q, x p = (some a, q) ∧ q.At limit stop s'

namespace Lands

theorem bind {x : Parse α} {f : α → Parse β} {a : α} {b : β} (hx : Lands limit stop x s a s₁)
    (hf : Lands limit stop (f a) s₁ b s₂) : Lands limit stop (x >>= f) s b s₂ := by
  intro p hp
  obtain ⟨q, hxp, hq⟩ := hx p hp
  obtain ⟨r, hfq, hr⟩ := hf q hq
  refine ⟨r, ?_, hr⟩
  rw [bind_apply, hxp]
  exact hfq

theorem pure (a : α) : Lands limit stop (Pure.pure a) s a s :=
  fun p hp => ⟨p, rfl, hp⟩

theorem ofOption (a : α) : Lands limit stop (Parse.ofOption (some a)) s a s :=
  fun p hp => ⟨p, rfl, hp⟩

theorem current : Lands limit stop Parse.current ⟨t :: ts, d, D⟩ t ⟨t :: ts, d, D⟩ :=
  fun p hp => ⟨p, congrArg (fun t => (some t, p)) hp.current_eq, hp⟩

theorem peekIs (k : Kind) : Lands limit stop (Parse.peekIs k) s (headKind s.tokens.tail == k) s :=
  fun p hp => ⟨p, congrArg (fun k' => (some (k' == k), p)) hp.peek_kind, hp⟩

theorem advance : Lands limit stop Parse.advance ⟨t :: ts, d, D⟩ () ⟨ts, d, D⟩ :=
  fun p hp => ⟨p.advance, rfl, hp.toReads.advance, hp.limit_eq, hp.depth_eq, hp.deepest_eq, hp.level_le, hp.calm,
    hp.quiet⟩

theorem expect {k : Kind} (hk : u.kind = k) :
    Lands limit stop (Parse.expect k) ⟨t :: u :: ts, d, D⟩ () ⟨u :: ts, d, D⟩ := by
  intro p hp
  rcases expect_cases k p with ⟨-, h⟩ | ⟨hne, -⟩
  · obtain ⟨q, hq, hat⟩ := advance p hp
    obtain rfl := (Prod.mk.inj hq).2
    exact ⟨_, h, hat⟩
  · exact absurd (hp.peek_kind.trans hk) hne

theorem attempt {x : Parse α} {a : α} (h : Lands limit stop x s a s₁) :
    Lands limit stop (Parse.attempt x) s (some a) s₁ := by
  intro p hp
  obtain ⟨q, hxp, hq⟩ := h p hp
  refine ⟨q, ?_, hq⟩
  unfold Parse.attempt
  rw [hxp]

theorem descend (hroom : d < limit) : Lands limit stop Parse.descend ⟨ts, d, D⟩ () ⟨ts, d + 1, max D (d + 1)⟩ := by
  intro p hp
  rcases descend_cases p with ⟨ho, -⟩ | ⟨-, -, h⟩ | ⟨-, hle, -⟩
  · exact absurd (hp.calm.symm.trans ho) (by decide)
  · exact ⟨p.deeper, h, hp.deeper⟩
  · rw [hp.limit_eq, hp.depth_eq] at hle
    exact absurd hroom (Nat.not_lt.mpr hle)

/-- No place is deeper than the deepest so far. -/
theorem of_level_le {x : Parse α} {a : α} (h : s.level ≤ s.deepest → Lands limit stop x s a s₁) :
    Lands limit stop x s a s₁ :=
  fun p hp => h hp.level_le p hp

section Loop

variable {more : Parser → Bool} {step : σ → Parse σ} {a b c : σ} {n : Nat}

theorem done (hmore : ∀ p : Parser, p.At limit stop s → more p = false) :
    Lands limit stop (repeatWithin more step n a) s a s :=
  fun p hp => ⟨p, repeatWithin_of_done (hmore p hp) n, hp⟩

theorem again (hmore : ∀ p : Parser, p.At limit stop s → more p = true) (hstep : Lands limit stop (step a) s b s₁)
    (h : Lands limit stop (repeatWithin more step n b) s₁ c s₂) :
    Lands limit stop (repeatWithin more step (n + 1) a) s c s₂ := by
  intro p hp
  obtain ⟨q, hq, hat⟩ := hstep p hp
  obtain ⟨r, hr, hat'⟩ := h q hat
  refine ⟨r, ?_, hat'⟩
  rw [repeatWithin, hmore p hp, if_pos rfl, hq]
  exact hr

theorem done_before (f : Kind → Bool) (hf : f (headKind us) = false) :
    Lands limit stop (repeatWithin (fun p => f p.peek.kind) step n a) ⟨t :: us, d, D⟩ a ⟨t :: us, d, D⟩ :=
  done fun _ hp => (congrArg f hp.peek_kind).trans hf

theorem again_before (f : Kind → Bool) (hf : f (headKind us) = true) (hstep : Lands limit stop (step a) ⟨t :: us, d, D⟩ b s)
    (h : Lands limit stop (repeatWithin (fun p => f p.peek.kind) step n b) s c s₁) :
    Lands limit stop (repeatWithin (fun p => f p.peek.kind) step (n + 1) a) ⟨t :: us, d, D⟩ c s₁ :=
  again (fun _ hp => (congrArg f hp.peek_kind).trans hf) hstep h

/-- There are more rounds than tokens. -/
theorem repeatWhile (h : ∀ n, s.tokens.length ≤ n → Lands limit stop (repeatWithin more step n a) s b s₁) :
    Lands limit stop (Parse.repeatWhile more step a) s b s₁ :=
  fun p hp => h p.left hp.length_le_left p hp

end Loop

end Lands

/-! Routines -/

variable {sub : SubExpr} {power next : BindingPower} {form : OperatorForm} {e e' : Expr}

namespace Lands

theorem atom (h : Grammar.Atom t e) : Lands limit stop (operand sub) ⟨t :: ts, d, D⟩ e ⟨t :: ts, d, D⟩ := by
  refine current.bind ?_
  cases h with
  | int hk hv =>
    rw [hk]
    refine current.bind ?_
    rw [hk]
    unfold Parse.int
    rw [hv]
    exact pure _
  | ident hk | str hk | trueWord hk | falseWord hk =>
    rw [hk]
    refine current.bind ?_
    rw [hk]
    exact pure _

theorem unary (hk : t.kind = .bang ∨ t.kind = .dash) (h : Lands limit stop (sub .unary) ⟨ts, d, D⟩ e s) :
    Lands limit stop (operand sub) ⟨t :: ts, d, D⟩ (.unary t t.value e) s := by
  have hform : t.kind.operand? = some .unary := by rcases hk with hk | hk <;> rw [hk] <;> rfl
  refine current.bind ?_
  rw [hform]
  exact current.bind (advance.bind (h.bind (pure _)))

theorem group {right : Token} (hk : t.kind = .openParen) (hright : right.kind = .closeParen)
    (h : Lands limit stop (sub .lowest) ⟨ts, d, D⟩ e ⟨u :: right :: us, d', D'⟩) :
    Lands limit stop (operand sub) ⟨t :: ts, d, D⟩ e ⟨right :: us, d', D'⟩ := by
  refine current.bind ?_
  rw [hk]
  exact advance.bind (h.attempt.bind ((expect hright).bind (ofOption e)))

theorem array {es : List Expr} (hk : t.kind = .openBracket)
    (h : Lands limit stop (items sub .closeBracket) ⟨t :: ts, d, D⟩ es s) :
    Lands limit stop (operand sub) ⟨t :: ts, d, D⟩ (.array t es) s := by
  refine current.bind ?_
  rw [hk]
  exact current.bind (h.bind (pure _))

theorem hash {es : List Entry} {right : Token} (hk : t.kind = .openCurly) (hright : right.kind = .closeCurly)
    (h : Lands limit stop (Parse.repeatWhile (fun p => p.peek.kind != .closeCurly)
      (fun found => do return found.push (← entry sub)) #[]) ⟨t :: ts, d, D⟩ (es.map some).toArray
        ⟨u :: right :: us, d', D'⟩) :
    Lands limit stop (operand sub) ⟨t :: ts, d, D⟩ (.hash t es) ⟨right :: us, d', D'⟩ := by
  refine current.bind ?_
  rw [hk]
  have hall : (es.map some).toArray.toList.mapM id = some es := mapM_id_map_some es
  refine current.bind (h.bind ((expect hright).bind ?_))
  rw [hall]
  exact (ofOption es).bind (pure _)

theorem fold (hroom : d < limit)
    (h : Lands limit stop (foldAt sub e t) ⟨t :: ts, d + 1, max D (d + 1)⟩ e' s) :
    Lands limit stop (Parse.fold sub e) ⟨u :: t :: ts, d, D⟩ e' s :=
  (descend hroom).bind (advance.bind (current.bind h))

theorem foldAt_binary (hoperator : t.kind.operator? = some (next, .binary))
    (h : Lands limit stop (sub next) ⟨ts, d, D⟩ e' s) :
    Lands limit stop (foldAt sub e t) ⟨t :: ts, d, D⟩ (.binary t e t.value e') s := by
  unfold foldAt
  rw [hoperator]
  exact current.bind (advance.bind (h.bind (pure _)))

theorem foldAt_call {es : List Expr} (hk : t.kind = .openParen)
    (h : Lands limit stop (items sub .closeParen) ⟨t :: ts, d, D⟩ es s) :
    Lands limit stop (foldAt sub e t) ⟨t :: ts, d, D⟩ (.call t e es) s := by
  unfold foldAt
  rw [hk]
  exact current.bind (h.bind (pure _))

theorem foldAt_index {right : Token} (hk : t.kind = .openBracket) (hright : right.kind = .closeBracket)
    (h : Lands limit stop (sub .lowest) ⟨ts, d, D⟩ e' ⟨u :: right :: us, d', D'⟩) :
    Lands limit stop (foldAt sub e t) ⟨t :: ts, d, D⟩ (.index t e e') ⟨right :: us, d', D'⟩ := by
  unfold foldAt
  rw [hk]
  exact current.bind (advance.bind (h.attempt.bind ((expect hright).bind ((ofOption e').bind (pure _)))))

section Items

variable {close : Kind} {left right comma : Token} {es : List Expr}

theorem items_nil (hright : right.kind = close) :
    Lands limit stop (items sub close) ⟨left :: right :: us, d, D⟩ [] ⟨right :: us, d, D⟩ := by
  refine (peekIs close).bind ?_
  rw [List.tail_cons, headKind_cons, beq_iff_eq.mpr hright]
  exact advance.bind (pure _)

theorem items_cons (hts : headKind ts ≠ close) (hright : right.kind = close)
    (hfirst : Lands limit stop (sub .lowest) ⟨ts, d, D⟩ e s)
    (hothers : Lands limit stop (Parse.repeatWhile (fun p => p.peek.kind == .comma)
      (fun found => do
        Parse.advance
        Parse.advance
        return found.push (← Parse.attempt (sub .lowest))) #[some e]) s ((e :: es).map some).toArray
          ⟨u :: right :: us, d', D'⟩) :
    Lands limit stop (items sub close) ⟨left :: ts, d, D⟩ (e :: es) ⟨right :: us, d', D'⟩ := by
  have hall : ((e :: es).map some).toArray.toList.mapM id = some (e :: es) := mapM_id_map_some _
  refine (peekIs close).bind ?_
  rw [List.tail_cons, beq_eq_false_iff_ne.mpr hts]
  refine advance.bind (hfirst.attempt.bind (hothers.bind ((expect hright).bind ?_)))
  rw [hall]
  exact ofOption _

theorem item (found : List Expr) (h : Lands limit stop (sub .lowest) ⟨ts, d, D⟩ e s) :
    Lands limit stop (do
      Parse.advance
      Parse.advance
      return (found.map some).toArray.push (← Parse.attempt (sub .lowest))) ⟨t :: comma :: ts, d, D⟩
        ((found ++ [e]).map some).toArray s := by
  have hpush : (found.map some).toArray.push (some e) = ((found ++ [e]).map some).toArray := by simp
  rw [← hpush]
  exact advance.bind (advance.bind (h.attempt.bind (pure _)))

theorem member {entry : Entry} (found : List Entry) (h : Lands limit stop (Parse.entry sub) s (some entry) s₁) :
    Lands limit stop (do return (found.map some).toArray.push (← Parse.entry sub)) s
      ((found ++ [entry]).map some).toArray s₁ := by
  have hpush : (found.map some).toArray.push (some entry) = ((found ++ [entry]).map some).toArray := by simp
  rw [← hpush]
  exact h.bind (pure _)

end Items

section Program

theorem expr (h : Lands limit stop (exprWithin (fun _ => fail) (limit + 1) power) s e s₁) :
    Lands limit stop (Parse.expr power) s e s₁ := by
  intro p hp
  unfold Parse.expr
  rw [hp.limit_eq]
  exact h p hp

theorem stmt (hform : t.kind.statement? = none) (h : Lands limit stop (sub .lowest) ⟨t :: ts, d, D⟩ e ⟨[u], d', D'⟩) :
    Lands limit stop (Parse.stmt sub) ⟨t :: ts, d, D⟩ (.expr t e) ⟨[u], d', D'⟩ := by
  refine current.bind ?_
  rw [hform]
  have hend : Lands limit stop skipSemicolon ⟨[u], d', D'⟩ () ⟨[u], d', D'⟩ := (peekIs .semicolon).bind (pure ())
  exact current.bind (h.attempt.bind (hend.bind ((ofOption e).bind (pure _))))

/-- A single expression is a whole program. -/
theorem program (ht : t.kind.operand? ≠ none)
    (h : Lands limit stop (Parse.expr .lowest) ⟨t :: ts, d, D⟩ e ⟨[u], d', D'⟩) :
    Lands limit stop Parse.program ⟨t :: ts, d, D⟩ ⟨[.expr t e]⟩ ⟨[], d', D'⟩ := by
  have hround : Lands limit stop (collect Parse.expr #[]) ⟨t :: ts, d, D⟩ #[.expr t e] ⟨[], d', D'⟩ :=
    (stmt (Kind.statement?_eq_none ht) h).attempt.bind (advance.bind (pure _))
  have hmore : ∀ p : Parser, p.At limit stop ⟨t :: ts, d, D⟩ → (!(p.current.kind == .eof)) = true := by
    intro p hp
    rw [hp.current_kind, headKind_cons]
    cases hk : t.kind <;> first | rfl | exact absurd (hk ▸ rfl) ht
  have hend : ∀ p : Parser, p.At limit stop ⟨[], d', D'⟩ → (!(p.current.kind == .eof)) = false := by
    intro p hp
    rw [hp.current_kind]
    rfl
  have hstmts : Lands limit stop (stmtsUntil Parse.expr fun k => k == .eof) ⟨t :: ts, d, D⟩ #[.expr t e] ⟨[], d', D'⟩ := by
    refine repeatWhile fun n hn => ?_
    obtain ⟨n, rfl⟩ : ∃ m, n = m + 1 := ⟨n - 1, by simp only [List.length_cons] at hn; omega⟩
    exact again hmore hround (done hend)
  exact hstmts.bind (pure _)

end Program

end Lands

/-! Operators -/

/-- So far there is this expression, and what is left of the step folds operators onto it. -/
def Chains (limit : Nat) (stop : Position) (sub : SubExpr) (power : BindingPower) (s : Place) (e : Expr) (s' : Place) :
    Prop :=
  ∀ p : Parser, p.At limit stop s → ∃ n q, s'.tokens.length ≤ n + 1 ∧ q.At limit stop s' ∧
    chain sub power p = repeatWithin (bindsTighter power) (fold sub) n e q

theorem Lands.chains (h : Lands limit stop (operand sub) s e s₁) : Chains limit stop sub power s e s₁ := by
  intro p hp
  obtain ⟨q, hq, hat⟩ := h p hp
  refine ⟨q.left, q, Nat.le_succ_of_le hat.length_le_left, hat, ?_⟩
  unfold chain
  rw [bind_apply, hq]
  rfl

theorem Chains.fold (h : Chains limit stop sub power s e ⟨t :: us, d, D⟩)
    (hoperator : (headKind us).operator? = some (next, form)) (hpower : power < next)
    (hfold : Lands limit stop (Parse.fold sub e) ⟨t :: us, d, D⟩ e' s₂) (hlength : s₂.tokens.length ≤ us.length) :
    Chains limit stop sub power s e' s₂ := by
  intro p hp
  obtain ⟨n, q, hn, hat, hchain⟩ := h p hp
  obtain ⟨r, hr, hat'⟩ := hfold q hat
  have hmore : bindsTighter power q = true :=
    (bindsTighter_iff power q _ hat.sees).mpr ⟨(next, form), hoperator, hpower⟩
  have hus : 0 < us.length := by
    cases us with
    | nil => exact nomatch hoperator
    | cons u us => exact Nat.succ_pos _
  obtain ⟨m, rfl⟩ : ∃ m, n = m + 1 := ⟨n - 1, by simp only [List.length_cons] at hn; omega⟩
  refine ⟨m, r, Nat.le_trans hlength (Nat.le_of_succ_le_succ hn), hat', ?_⟩
  rw [hchain, repeatWithin, hmore, if_pos rfl, hr]

/-- Behind the last operator the expression is whole, and the level is again the one before it. -/
theorem Chains.exprStep (h : Chains limit stop sub power ⟨ts, d + 1, max D (d + 1)⟩ e ⟨us, d', D'⟩)
    (hroom : d < limit) (hend : ¬Tighter power us) (hD : D ≤ D') :
    Lands limit stop (Parse.exprStep sub power) ⟨ts, d, D⟩ e ⟨us, d, D'⟩ := by
  intro p hp
  obtain ⟨n, q, -, hat, hchain⟩ := h p.deeper hp.deeper
  have hdone : bindsTighter power q = false :=
    Bool.eq_false_iff.mpr fun hmore => hend ((bindsTighter_iff power q _ hat.sees).mp hmore)
  rw [repeatWithin_of_done hdone] at hchain
  rcases exprStep_cases sub power p with ⟨ho, -⟩ | ⟨-, -, hstep⟩ | ⟨-, hle, -⟩
  · exact absurd (hp.calm.symm.trans ho) (by decide)
  · rw [hchain, Parser.unwind_of_calm p.depth hat.calm] at hstep
    refine ⟨_, hstep, ⟨hat.current_eq, hat.peek_eq, hat.source_eq, hat.free⟩, hat.limit_eq, hp.depth_eq,
      hat.deepest_eq, ?_, hat.calm, hat.quiet⟩
    exact Nat.le_trans hp.level_le hD
  · rw [hp.limit_eq, hp.depth_eq] at hle
    exact absurd hroom (Nat.not_lt.mpr hle)

end Parse

end FrontEnd
