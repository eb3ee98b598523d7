import FrontEnd.Proofs.Parser.Lockstep
import FrontEnd.Proofs.Tree

/-!
Runs side by side through statements and operands, given runs side by side of the expressions inside. What holds of
every expression that is parsed holds of the parts of what is built from them.
-/

namespace FrontEnd.Parse

variable {α β : Type}

/-- What a fold does once it has gone a level deeper. -/
def foldBody (sub : SubExpr) (left : Expr) : Parse Expr := do
  advance
  foldAt sub left (← current)

theorem fold_eq (sub : SubExpr) (left : Expr) : fold sub left = (descend >>= fun _ => foldBody sub left) := rfl

namespace Sim

variable {R E : Parser → Parser → Prop} (hL : Locked R E)

include hL

theorem ident : Sim R E (fun _ => True) Parse.ident Parse.ident :=
  (expect hL _).bind fun _ => (current hL).bind fun _ => pure fun _ _ => trivial

theorem skipSemicolon : Sim R E (fun _ => True) Parse.skipSemicolon Parse.skipSemicolon := by
  refine (peekIs hL _).bind fun more => ?_
  cases more with
  | false => exact pure fun _ => trivial
  | true => exact (advance hL).mono fun _ _ _ => trivial

theorem noOperand {V : Expr → Prop} (token : Token) : Sim R E V (Parse.noOperand token) (Parse.noOperand token) :=
  (report hL (by intro _ h; cases h)).bind fun _ => fail

variable {Q : Expr → Prop}

theorem int (token : Token) : Sim R E (Expr.Parts Q) (Parse.int token) (Parse.int token) := by
  unfold Parse.int
  split
  · exact pure trivial
  · exact (report hL (by intro _ h; cases h)).bind fun _ => fail

theorem atom : Sim R E (Expr.Parts Q) Parse.atom Parse.atom := by
  refine (current hL).bind fun token => ?_
  split
  · exact (int hL token).mono fun _ h _ => h
  · exact pure fun _ => trivial
  · exact pure fun _ => trivial
  · exact pure fun _ => trivial
  · exact pure fun _ => trivial
  · exact noOperand hL token

theorem parameters : Sim R E (fun _ => True) Parse.parameters Parse.parameters := by
  refine (peekIs hL _).bind fun close => ?_
  cases close with
  | true => exact (advance hL).bind fun _ => pure fun _ _ => trivial
  | false =>
    have hstep : ∀ found : Array Ident, Sim R E (fun _ => True → True)
        (Parse.advance >>= fun _ => Parse.ident >>= fun id => Pure.pure (found.push id))
        (Parse.advance >>= fun _ => Parse.ident >>= fun id => Pure.pure (found.push id)) :=
      fun found => (advance hL).bind fun _ => (ident hL).bind fun _ => pure fun _ _ _ => trivial
    refine (ident hL).bind fun first => (repeatWhile hL (fun p q hR => ?_) hstep #[first]).bind fun found =>
      (expect hL _).bind fun _ => pure fun _ _ _ _ => trivial
    rw [hL.peek_eq p q hR]

variable {sub sub' : SubExpr} (hsub : ∀ power, Sim R E Q (sub power) (sub' power))

include hsub

theorem unary : Sim R E (Expr.Parts Q) (Parse.unary sub) (Parse.unary sub') :=
  (current hL).bind fun _ => (advance hL).bind fun _ => (hsub .unary).bind fun _ => pure fun hright _ _ => hright

theorem group : Sim R E Q (Parse.group sub) (Parse.group sub') := by
  refine (advance hL).bind fun _ => (hsub .lowest).attempt.bind fun value => (expect hL _).bind fun _ => ?_
  exact ofOption value fun e he _ hvalue _ => hvalue e he

theorem binary (left : Expr) (power : BindingPower) :
    Sim R E (Expr.OnTopOf left Q) (Parse.binary sub left power) (Parse.binary sub' left power) :=
  (current hL).bind fun _ => (advance hL).bind fun _ => (hsub power).bind fun _ =>
    pure fun hright _ _ => ⟨rfl, hright⟩

theorem index (collection : Expr) :
    Sim R E (Expr.OnTopOf collection Q) (Parse.index sub collection) (Parse.index sub' collection) := by
  refine (current hL).bind fun token => (advance hL).bind fun _ => (hsub .lowest).attempt.bind fun value =>
    (expect hL _).bind fun _ => ?_
  have hvalue : Sim R E (fun i => value = some i) (Parse.ofOption value) (Parse.ofOption value) :=
    ofOption value fun i hi => hi
  exact hvalue.bind fun i => pure fun hi _ hQ _ _ => ⟨rfl, hQ i hi⟩

theorem items (close : Kind) : Sim R E (fun es => ∀ e ∈ es, Q e) (Parse.items sub close) (Parse.items sub' close) := by
  refine (peekIs hL _).bind fun empty => ?_
  cases empty with
  | true => exact (advance hL).bind fun _ => pure fun _ _ e he => nomatch he
  | false =>
    have hstep : ∀ found : Array (Option Expr), Sim R E
        (fun found' => (∀ o ∈ found, ∀ e, o = some e → Q e) → ∀ o ∈ found', ∀ e, o = some e → Q e)
        (Parse.advance >>= fun _ => Parse.advance >>= fun _ => Parse.attempt (sub .lowest) >>= fun e =>
          Pure.pure (found.push e))
        (Parse.advance >>= fun _ => Parse.advance >>= fun _ => Parse.attempt (sub' .lowest) >>= fun e =>
          Pure.pure (found.push e)) := by
      intro found
      refine (advance hL).bind fun _ => (advance hL).bind fun _ => (hsub .lowest).attempt.bind fun value => ?_
      refine pure fun hvalue _ _ hfound o ho => ?_
      rcases Array.mem_push.mp ho with ho | rfl
      · exact hfound o ho
      · exact hvalue
    have hmore : ∀ p q, R p q → (p.peek.kind == Kind.comma) = (q.peek.kind == Kind.comma) :=
      fun p q hR => by rw [hL.peek_eq p q hR]
    refine (advance hL).bind fun _ => (hsub .lowest).attempt.bind fun first =>
      (repeatWhile hL hmore hstep #[first]).bind fun found => (expect hL _).bind fun _ => ?_
    refine ofOption _ fun es hes _ hfound hfirst _ _ e he => ?_
    have hall : ∀ o ∈ found, ∀ e, o = some e → Q e := by
      apply hfound
      intro o ho
      rw [Array.mem_singleton.mp ho]
      exact hfirst
    have hmem : some e ∈ found.toList := by
      rw [eq_map_some_of_mapM_id hes]
      exact List.mem_map_of_mem he
    exact hall (some e) (Array.mem_toList_iff.mp hmem) e rfl

theorem array : Sim R E (Expr.Parts Q) (Parse.array sub) (Parse.array sub') :=
  (current hL).bind fun _ => (items hL hsub .closeBracket).bind fun _ => pure fun hes _ => hes

theorem call (callee : Expr) :
    Sim R E (Expr.OnTopOf callee Q) (Parse.call sub callee) (Parse.call sub' callee) :=
  (current hL).bind fun _ => (items hL hsub .closeParen).bind fun _ =>
    pure fun hes _ => ⟨rfl, hes⟩

theorem entry : Sim R E (fun o => ∀ entry, o = some entry → Q entry.key ∧ Q entry.value) (Parse.entry sub)
    (Parse.entry sub') := by
  refine (advance hL).bind fun _ => (hsub .lowest).attempt.bind fun key => (expect hL _).bind fun _ =>
    (advance hL).bind fun _ => (hsub .lowest).attempt.bind fun value => (peekIs hL _).bind fun last => ?_
  have hentry : ∀ entry : Entry, Entry.mk <$> key <*> value = some entry →
      key = some entry.key ∧ value = some entry.value := by
    intro entry h
    cases key with
    | none => exact nomatch h
    | some k =>
      cases value with
      | none => exact nomatch h
      | some v =>
        obtain rfl := Option.some.inj h
        exact ⟨rfl, rfl⟩
  cases last with
  | true =>
    refine pure fun _ hvalue _ _ hkey _ entry h => ?_
    obtain ⟨hk, hv⟩ := hentry entry h
    exact ⟨hkey _ hk, hvalue _ hv⟩
  | false =>
    refine (expect hL _).bind fun _ => pure fun _ _ hvalue _ _ hkey _ entry h => ?_
    obtain ⟨hk, hv⟩ := hentry entry h
    exact ⟨hkey _ hk, hvalue _ hv⟩

theorem hash : Sim R E (Expr.Parts Q) (Parse.hash sub) (Parse.hash sub') := by
  have hstep : ∀ found : Array (Option Entry), Sim R E
      (fun found' => (∀ o ∈ found, ∀ entry, o = some entry → Q entry.key ∧ Q entry.value) →
        ∀ o ∈ found', ∀ entry, o = some entry → Q entry.key ∧ Q entry.value)
      (Parse.entry sub >>= fun entry => Pure.pure (found.push entry))
      (Parse.entry sub' >>= fun entry => Pure.pure (found.push entry)) := by
    intro found
    refine (entry hL hsub).bind fun entry => pure fun hentry hfound o ho => ?_
    rcases Array.mem_push.mp ho with ho | rfl
    · exact hfound o ho
    · exact hentry
  have hmore : ∀ p q, R p q → (p.peek.kind != Kind.closeCurly) = (q.peek.kind != Kind.closeCurly) :=
    fun p q hR => by rw [hL.peek_eq p q hR]
  refine (current hL).bind fun token => (repeatWhile hL hmore hstep #[]).bind fun found =>
    (expect hL _).bind fun _ => ?_
  have hentries : Sim R E (fun entries => found.toList.mapM id = some entries) (Parse.ofOption (found.toList.mapM id))
      (Parse.ofOption (found.toList.mapM id)) :=
    ofOption _ fun entries h => h
  refine hentries.bind fun entries => pure fun h _ hfound _ entry he => ?_
  have hall := hfound fun o ho => absurd ho (Array.not_mem_empty o)
  have hmem : some entry ∈ found.toList := by
    rw [eq_map_some_of_mapM_id h]
    exact List.mem_map_of_mem he
  exact hall (some entry) (Array.mem_toList_iff.mp hmem) entry rfl

variable (hlabel : ∀ label e, Q e → Q (e.labelled label))

include hlabel

theorem bindStmt : Sim R E (Stmt.Parts Q) (Parse.bindStmt sub) (Parse.bindStmt sub') := by
  refine (current hL).bind fun token => (ident hL).bind fun name => (expect hL _).bind fun _ =>
    (advance hL).bind fun _ => (hsub .lowest).attempt.bind fun value => (skipSemicolon hL).bind fun _ => ?_
  refine pure fun _ hvalue _ _ _ _ e he => ?_
  obtain ⟨e', he', rfl⟩ := Option.map_eq_some_iff.mp he
  exact hlabel _ e' (hvalue e' he')

omit hlabel in
theorem retStmt : Sim R E (Stmt.Parts Q) (Parse.retStmt sub) (Parse.retStmt sub') :=
  (current hL).bind fun _ => (advance hL).bind fun _ => (hsub .lowest).attempt.bind fun _ =>
    (skipSemicolon hL).bind fun _ => pure fun _ hvalue _ _ => hvalue

omit hlabel in
theorem exprStmt : Sim R E (Stmt.Parts Q) (Parse.exprStmt sub) (Parse.exprStmt sub') := by
  refine (current hL).bind fun token => (hsub .lowest).attempt.bind fun value => (skipSemicolon hL).bind fun _ => ?_
  have hvalue : Sim R E (fun e => value = some e) (Parse.ofOption value) (Parse.ofOption value) :=
    ofOption value fun e he => he
  exact hvalue.bind fun e => pure fun he _ hQ _ => hQ e he

theorem stmt : Sim R E (Stmt.Parts Q) (Parse.stmt sub) (Parse.stmt sub') := by
  refine (current hL).bind fun token => ?_
  split
  · exact (bindStmt hL hsub hlabel).mono fun _ h _ => h
  · exact (retStmt hL hsub).mono fun _ h _ => h
  · exact (exprStmt hL hsub).mono fun _ h _ => h

theorem stmtsUntil (boundary : Kind → Bool) : Sim R E (fun found => ∀ s ∈ found, s.Parts Q)
    (Parse.stmtsUntil sub boundary) (Parse.stmtsUntil sub' boundary) := by
  have hstep : ∀ found : Array Stmt, Sim R E (fun found' => (∀ s ∈ found, s.Parts Q) → ∀ s ∈ found', s.Parts Q)
      (Parse.collect sub found) (Parse.collect sub' found) := by
    intro found
    refine (stmt hL hsub hlabel).attempt.bind fun o => (advance hL).bind fun _ => pure fun _ hs hfound => ?_
    cases o with
    | none => exact hfound
    | some s =>
      intro s' hs'
      rcases Array.mem_push.mp hs' with hs' | rfl
      · exact hfound s' hs'
      · exact hs s' rfl
  have hmore : ∀ p q, R p q → (!boundary p.current.kind) = !boundary q.current.kind :=
    fun p q hR => by rw [hL.current_eq p q hR]
  exact (repeatWhile hL hmore hstep #[]).mono fun _ h => h fun s hs => absurd hs (Array.not_mem_empty s)

theorem block : Sim R E (Block.Parts Q) (Parse.block sub) (Parse.block sub') := by
  refine (current hL).bind fun token => (advance hL).bind fun _ => (stmtsUntil hL hsub hlabel _).bind fun body =>
    (currentIs hL _).bind fun unclosed => ?_
  have hbody : (∀ s ∈ body, s.Parts Q) → (Block.mk token body.toList).Parts Q :=
    fun h s hs => h s (Array.mem_toList_iff.mp hs)
  cases unclosed with
  | true => exact (report hL (by intro _ h; cases h)).bind fun _ => pure fun _ _ h _ _ => hbody h
  | false => exact pure fun _ h _ _ => hbody h

theorem alternative :
    Sim R E (fun o => ∀ b, o = some b → b.Parts Q) (Parse.alternative sub) (Parse.alternative sub') := by
  refine (peekIs hL _).bind fun more => ?_
  cases more with
  | true =>
    refine (advance hL).bind fun _ => (expect hL _).bind fun _ => (block hL hsub hlabel).bind fun b => ?_
    exact pure fun hb _ _ _ b' hb' => Option.some.inj hb' ▸ hb
  | false => exact pure fun _ _ h => nomatch h

theorem cond : Sim R E (Expr.Parts Q) (Parse.cond sub) (Parse.cond sub') := by
  refine (current hL).bind fun token => (expect hL _).bind fun _ => (advance hL).bind fun _ =>
    (hsub .lowest).attempt.bind fun condition => (expect hL _).bind fun _ => (expect hL _).bind fun _ =>
      (block hL hsub hlabel).bind fun consequence => (alternative hL hsub hlabel).bind fun alternative => ?_
  have hcondition : Sim R E (fun e => condition = some e) (Parse.ofOption condition) (Parse.ofOption condition) :=
    ofOption condition fun e he => he
  exact hcondition.bind fun e => pure fun he halternative hconsequence _ _ hQ _ _ _ =>
    ⟨hQ e he, hconsequence, halternative⟩

theorem fn : Sim R E (Expr.Parts Q) (Parse.fn sub) (Parse.fn sub') :=
  (current hL).bind fun _ => (expect hL _).bind fun _ => (parameters hL).bind fun _ => (expect hL _).bind fun _ =>
    (block hL hsub hlabel).bind fun _ => pure fun hbody _ _ _ _ => hbody

/-- A group is the expression inside it; every other operand is built from its parts. -/
theorem operand : Sim R E (fun e => Q e ∨ e.Parts Q) (Parse.operand sub) (Parse.operand sub') := by
  refine (current hL).bind fun token => ?_
  split
  · exact (atom hL).mono fun _ h _ => .inr h
  · exact (unary hL hsub).mono fun _ h _ => .inr h
  · exact (group hL hsub).mono fun _ h _ => .inl h
  · exact (cond hL hsub hlabel).mono fun _ h _ => .inr h
  · exact (fn hL hsub hlabel).mono fun _ h _ => .inr h
  · exact (array hL hsub).mono fun _ h _ => .inr h
  · exact (hash hL hsub).mono fun _ h _ => .inr h
  · exact noOperand hL token

omit hlabel in
/-- A fold puts an operator on top of what is to its left, or leaves that as it is. -/
theorem foldBody (left : Expr) : Sim R E (fun e => e = left ∨ Expr.OnTopOf left Q e)
    (Parse.foldBody sub left) (Parse.foldBody sub' left) := by
  refine (advance hL).bind fun _ => (current hL).bind fun token => ?_
  unfold foldAt
  split
  · exact (binary hL hsub left _).mono fun _ h _ _ => .inr h
  · exact (call hL hsub left).mono fun _ h _ _ => .inr h
  · exact (index hL hsub left).mono fun _ h _ _ => .inr h
  · exact pure fun _ _ => .inl rfl

omit hsub hlabel in
/-- Where the values do not matter, it is enough that going a level deeper keeps the runs in step. -/
theorem chain (hsub : ∀ power, Sim R E (fun _ => True) (sub power) (sub' power))
    (hdescend : Sim R E (fun _ => True) Parse.descend Parse.descend) (power : BindingPower) :
    Sim R E (fun _ => True) (Parse.chain sub power) (Parse.chain sub' power) := by
  have hmore : ∀ p q, R p q → bindsTighter power p = bindsTighter power q := by
    intro p q hR
    unfold bindsTighter
    rw [hL.peek_eq p q hR]
  have hfold : ∀ left, Sim R E (fun _ => True → True) (Parse.fold sub left) (Parse.fold sub' left) := by
    intro left
    rw [fold_eq, fold_eq]
    exact hdescend.bind fun _ => (foldBody hL hsub left).mono fun _ _ _ _ => trivial
  have hoperand := operand hL hsub fun _ _ _ => trivial
  exact hoperand.bind fun left => (repeatWhile hL hmore hfold left).mono fun _ _ _ => trivial

section Levels

variable (hdescend : Sim R E (fun _ => True) Parse.descend Parse.descend)
  (hnested : ∀ x y : Parse Expr, Sim R E (fun _ => True) x y →
    Sim R E (fun _ => True) (Parse.nested x) (Parse.nested y))

omit hsub hlabel
include hdescend hnested

/-- Runs that go a level deeper and come back from it in step do so for whole expressions. -/
theorem exprWithin (n : Nat) (power : BindingPower) : Sim R E (fun _ => True)
    (Parse.exprWithin (fun _ => Parse.fail) n power) (Parse.exprWithin (fun _ => Parse.fail) n power) := by
  induction n generalizing power with
  | zero => exact fail
  | succ n ih =>
    have hchain := chain hL ih hdescend power
    exact hnested _ _ (hdescend.bind fun _ => hchain.mono fun _ _ _ => trivial)

theorem expr (hlimit : ∀ p q, R p q → p.limit = q.limit) (power : BindingPower) :
    Sim R E (fun _ => True) (Parse.expr power) (Parse.expr power) where
  run p q hR := by
    have hrun := (exprWithin hL hdescend hnested (p.limit + 1) power).run p q hR
    unfold Parse.expr
    rwa [← hlimit p q hR]
  left p q hE := (exprWithin hL hdescend hnested (p.limit + 1) power).left p q hE
  right p q hE := (exprWithin hL hdescend hnested (q.limit + 1) power).right p q hE

end Levels

end Sim

/-- States that no step leaves. -/
structure Invariant (I : Parser → Prop) : Prop where
  advance : ∀ p, I p → I p.advance
  report : ∀ d : Diagnostic, d.Ordinary → ∀ p, I p → I (p.report d)
  deeper : ∀ p, I p → I p.deeper
  gaveUp : ∀ p : Parser, p.limit ≤ p.depth → I p → I p.gaveUp
  unwind : ∀ depth p, I p → I (p.unwind depth)

theorem skipWithin_of_advance {I : Parser → Prop} (hadvance : ∀ p, I p → I p.advance) (n : Nat) {p : Parser} (h : I p) :
    I (p.skipWithin n) := by
  induction n generalizing p with
  | zero => exact h
  | succ n ih =>
    rw [Parser.skipWithin]
    split
    · exact h
    · exact ih (hadvance p h)

/-- Going back skips tokens at most, so what the tokens ahead and the reports decide holds on. -/
theorem unwind_of_advance {I : Parser → Prop} (hadvance : ∀ p, I p → I p.advance)
    (hwindow : ∀ p q : Parser, p.current = q.current → p.peek = q.peek → p.source = q.source →
      p.diagnostics = q.diagnostics → I q → I p) (depth : Nat) {p : Parser} (h : I p) : I (p.unwind depth) := by
  have hlevel : I { p with depth := depth } := hwindow _ p rfl rfl rfl rfl h
  unfold Parser.unwind
  split
  · exact hwindow _ ({ p with depth := depth } : Parser).skipToBoundary rfl rfl rfl rfl
      (skipWithin_of_advance hadvance _ hlevel)
  · exact hlevel

/-- What only the tokens before a parser decide holds on, if it does where a token is taken. -/
theorem invariant_of_window {I : Parser → Prop} (hadvance : ∀ p, I p → I p.advance)
    (hwindow : ∀ p q : Parser, p.current = q.current → p.peek = q.peek → p.source = q.source → I q → I p) :
    Invariant I := by
  constructor
  · exact hadvance
  · intro d _ p h
    unfold Parser.report
    split
    · exact h
    · exact hwindow _ p rfl rfl rfl h
  · exact fun p h => hwindow _ p rfl rfl rfl h
  · exact fun p _ h => hwindow _ p rfl rfl rfl h
  · exact fun depth p h =>
      unwind_of_advance hadvance (fun p q hcurrent hpeek hsource _ => hwindow p q hcurrent hpeek hsource) depth h

namespace Invariant

variable {I : Parser → Prop} (hI : Invariant I)

include hI

theorem locked : Locked (Sim.Same I) Sim.Never :=
  Sim.locked_same hI.advance hI.report

theorem descend : Sim (Sim.Same I) Sim.Never (fun _ => True) Parse.descend Parse.descend := by
  apply Sim.sim_same_iff.mpr
  intro p hp
  rcases descend_cases p with ⟨-, h⟩ | ⟨-, -, h⟩ | ⟨-, hle, h⟩ <;> rw [h]
  · exact ⟨fun _ _ => trivial, hp⟩
  · exact ⟨fun _ _ => trivial, hI.deeper p hp⟩
  · exact ⟨fun _ _ => trivial, hI.gaveUp p hle hp⟩

theorem nested (x y : Parse Expr) (h : Sim (Sim.Same I) Sim.Never (fun _ => True) x y) :
    Sim (Sim.Same I) Sim.Never (fun _ => True) (Parse.nested x) (Parse.nested y) := by
  refine ⟨fun p q hpq => ?_, fun _ _ hE => hE, fun _ _ hE => hE⟩
  rcases h.run p q hpq with ⟨heq, hV, hsame, hx⟩ | hnever
  · refine .inl ⟨heq, hV, ?_, hI.unwind p.depth _ hx⟩
    show (x p).2.unwind p.depth = (y q).2.unwind q.depth
    rw [hsame, hpq.1]
  · exact hnever.elim

theorem chain {sub : SubExpr} (hsub : ∀ power, Sim (Sim.Same I) Sim.Never (fun _ => True) (sub power) (sub power))
    (power : BindingPower) :
    Sim (Sim.Same I) Sim.Never (fun _ => True) (Parse.chain sub power) (Parse.chain sub power) :=
  Sim.chain hI.locked hsub hI.descend power

theorem exprWithin (n : Nat) (power : BindingPower) : Sim (Sim.Same I) Sim.Never (fun _ => True)
    (Parse.exprWithin (fun _ => Parse.fail) n power) (Parse.exprWithin (fun _ => Parse.fail) n power) :=
  Sim.exprWithin hI.locked hI.descend hI.nested n power

theorem expr (power : BindingPower) :
    Sim (Sim.Same I) Sim.Never (fun _ => True) (Parse.expr power) (Parse.expr power) :=
  Sim.expr hI.locked hI.descend hI.nested (fun _ _ h => congrArg Parser.limit h.1) power

theorem stmt {p : Parser} (hp : I p) : I (Parse.stmt Parse.expr p).2 := by
  have hstmt := Sim.stmt hI.locked (expr hI) fun _ _ _ => trivial
  exact (Sim.sim_same_iff.mp hstmt p hp).2

theorem stmtsUntil (boundary : Kind → Bool) {p : Parser} (hp : I p) :
    I (Parse.stmtsUntil Parse.expr boundary p).2 := by
  have hstmts := Sim.stmtsUntil hI.locked (expr hI) (fun _ _ _ => trivial) boundary
  exact (Sim.sim_same_iff.mp hstmts p hp).2

end Invariant

end FrontEnd.Parse
