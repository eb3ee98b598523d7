import FrontEnd.Proofs.Parser.Step
import FrontEnd.Proofs.Parser.Text
import FrontEnd.Proofs.Print.Moved

/-!
Where tokens stand makes no difference to how they are parsed. Tokens that are moved are parsed to the same program with
its tokens moved, and the same is reported at the places moved to.
-/

namespace FrontEnd

variable {move : Position → Position}

def TokenBuffer.moved (move : Position → Position) (b : TokenBuffer) : TokenBuffer :=
  ⟨b.tokens.map (Token.moved move), move b.stop⟩

namespace TokenBuffer

theorem next_moved (b : TokenBuffer) :
    (b.moved move).next = (b.next.1.moved move, b.next.2.moved move) := by
  obtain ⟨ts, stop⟩ := b
  cases ts <;> rfl

theorem moved_ofList (hnull : move Position.null = Position.null) (T : List Token) :
    ofList (T.map (Token.moved move)) = (ofList T).moved move := by
  unfold ofList TokenBuffer.moved
  rw [List.getLast?_map]
  cases T.getLast? with
  | none => exact congrArg (TokenBuffer.mk _) hnull.symm
  | some t => rfl

end TokenBuffer

namespace Parser

/-- On the right, the tokens of a buffer and the diagnostics are those on the left, moved. All else is the same. -/
structure Mirrors (move : Position → Position) (p q : Parser) : Prop where
  current_eq : q.current = p.current.moved move
  peek_eq : q.peek = p.peek.moved move
  source_eq : ∃ b, p.source = .buffer b ∧ q.source = .buffer (b.moved move)
  diagnostics_eq : q.diagnostics = p.diagnostics.map (Diagnostic.moved move)
  limit_eq : q.limit = p.limit
  depth_eq : q.depth = p.depth
  deepest_eq : q.deepest = p.deepest
  overflowed_eq : q.overflowed = p.overflowed

namespace Mirrors

variable {p q : Parser}

theorem current_kind (h : p.Mirrors move q) : q.current.kind = p.current.kind := by
  rw [h.current_eq]
  rfl

theorem peek_kind (h : p.Mirrors move q) : q.peek.kind = p.peek.kind := by
  rw [h.peek_eq]
  rfl

theorem left_eq (h : p.Mirrors move q) : q.left = p.left := by
  obtain ⟨b, hp, hq⟩ := h.source_eq
  unfold Parser.left
  rw [hp, hq]
  exact congrArg (· + 2) (List.length_map _)

theorem advance (h : p.Mirrors move q) : p.advance.Mirrors move q.advance := by
  obtain ⟨b, hp, hq⟩ := h.source_eq
  refine ⟨h.peek_eq, ?_, ⟨b.next.2, ?_, ?_⟩, h.diagnostics_eq, h.limit_eq, h.depth_eq, h.deepest_eq, h.overflowed_eq⟩
  · show q.source.next.1 = p.source.next.1.moved move
    rw [hp, hq, TokenSource.next, TokenBuffer.next_moved]
    rfl
  · show p.source.next.2 = _
    rw [hp]
    rfl
  · show q.source.next.2 = _
    rw [hq, TokenSource.next, TokenBuffer.next_moved]

theorem report (h : p.Mirrors move q) (d : Diagnostic) : (p.report d).Mirrors move (q.report (d.moved move)) := by
  unfold Parser.report
  rw [h.overflowed_eq, h.diagnostics_eq]
  split
  · exact h
  · exact ⟨h.current_eq, h.peek_eq, h.source_eq, Array.map_push.symm, h.limit_eq, h.depth_eq, h.deepest_eq, rfl⟩

theorem deeper (h : p.Mirrors move q) : p.deeper.Mirrors move q.deeper := by
  refine ⟨h.current_eq, h.peek_eq, h.source_eq, h.diagnostics_eq, h.limit_eq, congrArg (· + 1) h.depth_eq, ?_,
    h.overflowed_eq⟩
  show max q.deepest (q.depth + 1) = max p.deepest (p.depth + 1)
  rw [h.deepest_eq, h.depth_eq]

theorem gaveUp (h : p.Mirrors move q) : p.gaveUp.Mirrors move q.gaveUp := by
  refine ⟨h.current_eq, h.peek_eq, h.source_eq, ?_, h.limit_eq, h.deeper.depth_eq, h.deeper.deepest_eq, rfl⟩
  show q.diagnostics.push _ = (p.diagnostics.push _).map _
  rw [h.diagnostics_eq, h.limit_eq, h.current_eq, Array.map_push]
  rfl

theorem withDepth (h : p.Mirrors move q) (depth : Nat) :
    Mirrors move { p with depth := depth } { q with depth := depth } :=
  ⟨h.current_eq, h.peek_eq, h.source_eq, h.diagnostics_eq, h.limit_eq, rfl, h.deepest_eq, h.overflowed_eq⟩

theorem skipWithin (h : p.Mirrors move q) (n : Nat) : (p.skipWithin n).Mirrors move (q.skipWithin n) := by
  induction n generalizing p q with
  | zero => exact h
  | succ n ih =>
    rw [Parser.skipWithin, Parser.skipWithin, h.peek_kind]
    split
    · exact h
    · exact ih h.advance

theorem resumed (h : p.Mirrors move q) : p.resumed.Mirrors move q.resumed := by
  have hlevel := h.withDepth 0
  have hskip := hlevel.skipWithin p.left
  have hleft : ({ q with depth := 0 } : Parser).left = p.left := hlevel.left_eq
  unfold Parser.resumed Parser.skipToBoundary
  rw [hleft]
  exact ⟨hskip.current_eq, hskip.peek_eq, hskip.source_eq, hskip.diagnostics_eq, hskip.limit_eq, hskip.depth_eq,
    hskip.deepest_eq, rfl⟩

theorem unwind (h : p.Mirrors move q) (depth : Nat) : (p.unwind depth).Mirrors move (q.unwind depth) := by
  have heq := h.overflowed_eq
  cases ho : p.overflowed with
  | false =>
    rw [unwind_of_calm depth ho, unwind_of_calm depth (heq.trans ho)]
    exact h.withDepth depth
  | true =>
    cases depth with
    | zero =>
      rw [unwind_zero ho, unwind_zero (heq.trans ho)]
      exact h.resumed
    | succ depth =>
      rw [unwind_of_ne_zero _ (Nat.succ_ne_zero depth), unwind_of_ne_zero _ (Nat.succ_ne_zero depth)]
      exact h.withDepth (depth + 1)

end Mirrors

theorem mirrors_ofTokens (hnull : move Position.null = Position.null) (T : List Token) :
    (ofTokens T).Mirrors move (ofTokens (T.map (Token.moved move))) := by
  unfold ofTokens
  rw [TokenBuffer.moved_ofList hnull]
  obtain ⟨ts, stop⟩ := TokenBuffer.ofList T
  rcases ts with _ | ⟨t, _ | ⟨u, ts⟩⟩ <;>
    exact ⟨rfl, rfl, ⟨_, rfl, rfl⟩, Array.map_empty.symm, rfl, rfl, rfl, rfl⟩

end Parser

namespace Parse

variable {α β σ : Type}

/-- Before the moved tokens `y` does what `x` does before the tokens, and returns what that does, moved by `e`. -/
def Follows (move : Position → Position) (e : α → α) (x y : Parse α) : Prop :=
  ∀ p q : Parser, p.Mirrors move q → (y q).1 = (x p).1.map e ∧ (x p).2.Mirrors move (y q).2

namespace Follows

theorem ofOption {e : α → α} {o o' : Option α} (h : o' = o.map e) :
    Follows move e (Parse.ofOption o) (Parse.ofOption o') :=
  fun _ _ hpq => ⟨h, hpq⟩

theorem pure {e : α → α} {a a' : α} (h : a' = e a) :
    Follows move e (Pure.pure a) (Pure.pure a') :=
  ofOption (congrArg some h)

theorem fail {e : α → α} : Follows move e Parse.fail Parse.fail :=
  ofOption rfl

theorem view {e : α → α} {f : Parser → α} (hf : ∀ p q : Parser, p.Mirrors move q → f q = e (f p)) :
    Follows move e (Parse.view f) (Parse.view f) :=
  fun p q h => ⟨congrArg some (hf p q h), h⟩

theorem current : Follows move (Token.moved move) Parse.current Parse.current :=
  view fun _ _ h => h.current_eq

theorem currentIs (k : Kind) : Follows move id (Parse.currentIs k) (Parse.currentIs k) :=
  view fun _ _ h => by rw [h.current_kind, id]

theorem peekIs (k : Kind) : Follows move id (Parse.peekIs k) (Parse.peekIs k) :=
  view fun _ _ h => by rw [h.peek_kind, id]

theorem advance : Follows move id Parse.advance Parse.advance :=
  fun _ _ h => ⟨rfl, h.advance⟩

theorem report (d : Diagnostic) : Follows move id (Parse.report d) (Parse.report (d.moved move)) :=
  fun _ _ h => ⟨rfl, h.report d⟩

theorem expect (k : Kind) : Follows move id (Parse.expect k) (Parse.expect k) := by
  intro p q h
  have hpeek := h.peek_kind
  rcases expect_cases k p with ⟨hp, hxp⟩ | ⟨hp, hxp⟩ <;> rcases expect_cases k q with ⟨hq, hxq⟩ | ⟨hq, hxq⟩ <;>
    rw [hxp, hxq]
  · exact ⟨rfl, h.advance⟩
  · exact absurd (hpeek.trans hp) hq
  · exact absurd (hpeek.symm.trans hq) hp
  · rw [h.peek_eq]
    exact ⟨rfl, h.report _⟩

theorem descend : Follows move id Parse.descend Parse.descend := by
  intro p q h
  have ho := h.overflowed_eq
  have hd := h.depth_eq
  have hl := h.limit_eq
  rcases descend_cases p with ⟨hp, hxp⟩ | ⟨hp, hlt, hxp⟩ | ⟨hp, hle, hxp⟩ <;>
    rcases descend_cases q with ⟨hq, hxq⟩ | ⟨hq, hlt', hxq⟩ | ⟨hq, hle', hxq⟩
  · rw [hxp, hxq]
    exact ⟨rfl, h⟩
  · exact absurd (hq.symm.trans (ho.trans hp)) (by decide)
  · exact absurd (hq.symm.trans (ho.trans hp)) (by decide)
  · exact absurd (hq.symm.trans (ho.trans hp)) (by decide)
  · rw [hxp, hxq]
    exact ⟨rfl, h.deeper⟩
  · omega
  · exact absurd (hq.symm.trans (ho.trans hp)) (by decide)
  · omega
  · rw [hxp, hxq]
    exact ⟨rfl, h.gaveUp⟩

theorem attempt {e : α → α} {x y : Parse α} (h : Follows move e x y) :
    Follows move (Option.map e) (Parse.attempt x) (Parse.attempt y) :=
  fun p q hpq => ⟨congrArg some (h p q hpq).1, (h p q hpq).2⟩

theorem bind {e : α → α} {e' : β → β} {x y : Parse α} {f f' : α → Parse β} (h : Follows move e x y)
    (hf : ∀ a, Follows move e' (f a) (f' (e a))) : Follows move e' (x >>= f) (y >>= f') := by
  intro p q hpq
  have hnext := h p q hpq
  rw [bind_apply, bind_apply]
  generalize x p = r at hnext ⊢
  generalize y q = t at hnext ⊢
  obtain ⟨o, p'⟩ := r
  obtain ⟨o', q'⟩ := t
  obtain ⟨rfl, hmirrors⟩ : o' = o.map e ∧ p'.Mirrors move q' := hnext
  cases o with
  | none => exact ⟨rfl, hmirrors⟩
  | some a => exact hf a p' q' hmirrors

theorem nested {e : α → α} {x y : Parse α} (h : Follows move e x y) :
    Follows move e (Parse.nested x) (Parse.nested y) := by
  intro p q hpq
  have hnext := h p q hpq
  refine ⟨hnext.1, ?_⟩
  show ((x p).2.unwind p.depth).Mirrors move ((y q).2.unwind q.depth)
  rw [hpq.depth_eq]
  exact hnext.2.unwind p.depth

/-- A round and the rounds behind it are two steps, one after the other. -/
theorem repeatWhile {e : σ → σ} {more : Parser → Bool} {step : σ → Parse σ}
    (hmore : ∀ p q : Parser, p.Mirrors move q → more q = more p)
    (hstep : ∀ s, Follows move e (step s) (step (e s))) {s s' : σ} (hs : s' = e s) :
    Follows move e (Parse.repeatWhile more step s) (Parse.repeatWhile more step s') := by
  subst hs
  have hwithin : ∀ n s, Follows move e (repeatWithin more step n s) (repeatWithin more step n (e s)) := by
    intro n
    induction n with
    | zero => exact fun s => pure rfl
    | succ n ih =>
      intro s p q h
      have hround := (hstep s).bind ih p q h
      have hunfold : ∀ (s : σ) (p : Parser), repeatWithin more step (n + 1) s p =
          if more p then (step s >>= repeatWithin more step n) p else (some s, p) := by
        intro s p
        rfl
      rw [hunfold, hunfold, hmore p q h]
      split
      · exact hround
      · exact ⟨rfl, h⟩
  intro p q h
  unfold Parse.repeatWhile
  rw [h.left_eq]
  exact hwithin p.left s p q h

/-! Statements and operands -/

theorem ident : Follows move (Ident.moved move) Parse.ident Parse.ident :=
  (expect .identifier).bind fun _ => current.bind fun _ => pure rfl

theorem skipSemicolon : Follows move id Parse.skipSemicolon Parse.skipSemicolon := by
  refine (peekIs .semicolon).bind fun more => ?_
  cases more with
  | true => exact advance
  | false => exact pure rfl

theorem noOperand (token : Token) :
    Follows move (Expr.moved move) (Parse.noOperand token) (Parse.noOperand (token.moved move)) :=
  (report _).bind fun _ => fail

theorem int (token : Token) :
    Follows move (Expr.moved move) (Parse.int token) (Parse.int (token.moved move)) := by
  unfold Parse.int
  rw [Token.moved_value]
  cases Numeral.value? token.value with
  | some value => exact pure rfl
  | none => exact (report ⟨.badNumber token.value, token.span.start⟩).bind fun _ => fail

theorem atom : Follows move (Expr.moved move) Parse.atom Parse.atom := by
  refine current.bind fun token => ?_
  rw [Token.moved_kind]
  generalize token.kind = k
  cases k with
  | number => exact int token
  | identifier | string | trueWord | falseWord => exact pure rfl
  | _ => exact noOperand token

theorem commaLoop {e : σ → σ} {step : σ → Parse σ} (hstep : ∀ s, Follows move e (step s) (step (e s))) {s s' : σ}
    (hs : s' = e s) :
    Follows move e (Parse.repeatWhile (fun p => p.peek.kind == .comma) step s)
      (Parse.repeatWhile (fun p => p.peek.kind == .comma) step s') :=
  repeatWhile (fun p q h => by rw [h.peek_kind]) hstep hs

theorem parameters : Follows move (List.map (Ident.moved move)) Parse.parameters Parse.parameters := by
  refine (peekIs .closeParen).bind fun close => ?_
  cases close with
  | true => exact advance.bind fun _ => pure rfl
  | false =>
    have hround : ∀ found : Array Ident, Follows move (Array.map (Ident.moved move))
        (Parse.advance >>= fun _ => Parse.ident >>= fun name => Pure.pure (found.push name))
        (Parse.advance >>= fun _ => Parse.ident >>= fun name =>
          Pure.pure ((found.map (Ident.moved move)).push name)) :=
      fun found => advance.bind fun _ => ident.bind fun _ => pure Array.map_push.symm
    refine ident.bind fun first => ?_
    have hfirst : #[first.moved move] = #[first].map (Ident.moved move) := by simp
    have hloop := commaLoop hround hfirst
    exact hloop.bind fun _ => (expect .closeParen).bind fun _ => pure Array.toList_map

/-- The values found, or none where one is missing. -/
theorem allFound {e : α → α} (found : Array (Option α)) :
    Follows move (List.map e) (Parse.ofOption (found.toList.mapM id))
      (Parse.ofOption ((found.map (Option.map e)).toList.mapM id)) := by
  refine ofOption ?_
  rw [Array.toList_map]
  induction found.toList with
  | nil => rfl
  | cons o os ih =>
    cases o with
    | none => rfl
    | some a =>
      rw [List.map_cons, List.mapM_cons, List.mapM_cons, ih]
      cases os.mapM id <;> rfl

section Expressions

variable {sub : SubExpr} (hsub : ∀ power, Follows move (Expr.moved move) (sub power) (sub power))

include hsub

theorem unary : Follows move (Expr.moved move) (Parse.unary sub) (Parse.unary sub) :=
  current.bind fun _ => advance.bind fun _ => (hsub .unary).bind fun _ => pure rfl

theorem group : Follows move (Expr.moved move) (Parse.group sub) (Parse.group sub) :=
  advance.bind fun _ => (hsub .lowest).attempt.bind fun _ => (expect .closeParen).bind fun _ => ofOption rfl

theorem binary (left : Expr) (power : BindingPower) :
    Follows move (Expr.moved move) (Parse.binary sub left power) (Parse.binary sub (left.moved move) power) :=
  current.bind fun _ => advance.bind fun _ => (hsub power).bind fun _ => pure rfl

theorem index (collection : Expr) :
    Follows move (Expr.moved move) (Parse.index sub collection) (Parse.index sub (collection.moved move)) := by
  refine current.bind fun token => advance.bind fun _ => (hsub .lowest).attempt.bind fun value =>
    (expect .closeBracket).bind fun _ => ?_
  have hvalue : Follows move (Expr.moved move) (Parse.ofOption value) (Parse.ofOption (value.map (Expr.moved move))) :=
    ofOption rfl
  exact hvalue.bind fun _ => pure rfl

theorem items (close : Kind) :
    Follows move (List.map (Expr.moved move)) (Parse.items sub close) (Parse.items sub close) := by
  refine (peekIs close).bind fun empty => ?_
  cases empty with
  | true => exact advance.bind fun _ => pure rfl
  | false =>
    have hround : ∀ found : Array (Option Expr), Follows move (Array.map (Option.map (Expr.moved move)))
        (Parse.advance >>= fun _ => Parse.advance >>= fun _ => Parse.attempt (sub .lowest) >>= fun value =>
          Pure.pure (found.push value))
        (Parse.advance >>= fun _ => Parse.advance >>= fun _ => Parse.attempt (sub .lowest) >>= fun value =>
          Pure.pure ((found.map (Option.map (Expr.moved move))).push value)) :=
      fun found => advance.bind fun _ => advance.bind fun _ => (hsub .lowest).attempt.bind fun _ =>
        pure Array.map_push.symm
    refine advance.bind fun _ => (hsub .lowest).attempt.bind fun first => ?_
    have hfirst : #[first.map (Expr.moved move)] = #[first].map (Option.map (Expr.moved move)) := by simp
    have hloop := commaLoop hround hfirst
    exact hloop.bind fun _ => (expect close).bind fun _ => allFound _

theorem array : Follows move (Expr.moved move) (Parse.array sub) (Parse.array sub) :=
  current.bind fun token => (items hsub .closeBracket).bind fun elements =>
    pure (congrArg (Expr.array (token.moved move)) (movedExprs_eq_map move elements).symm)

theorem call (callee : Expr) :
    Follows move (Expr.moved move) (Parse.call sub callee) (Parse.call sub (callee.moved move)) :=
  current.bind fun token => (items hsub .closeParen).bind fun arguments =>
    pure (congrArg (Expr.call (token.moved move) (callee.moved move)) (movedExprs_eq_map move arguments).symm)

theorem entry : Follows move (Option.map (Entry.moved move)) (Parse.entry sub) (Parse.entry sub) := by
  refine advance.bind fun _ => (hsub .lowest).attempt.bind fun key => (expect .colon).bind fun _ =>
    advance.bind fun _ => (hsub .lowest).attempt.bind fun value => (peekIs .closeCurly).bind fun last => ?_
  have hentry : Follows move (Option.map (Entry.moved move)) (Pure.pure (Entry.mk <$> key <*> value))
      (Pure.pure (Entry.mk <$> key.map (Expr.moved move) <*> value.map (Expr.moved move))) := by
    refine pure ?_
    cases key <;> cases value <;> rfl
  cases last with
  | true => exact hentry
  | false => exact (expect .comma).bind fun _ => hentry

theorem hash : Follows move (Expr.moved move) (Parse.hash sub) (Parse.hash sub) := by
  have hround : ∀ found : Array (Option Entry), Follows move (Array.map (Option.map (Entry.moved move)))
      (Parse.entry sub >>= fun entry => Pure.pure (found.push entry))
      (Parse.entry sub >>= fun entry => Pure.pure ((found.map (Option.map (Entry.moved move))).push entry)) :=
    fun found => (entry hsub).bind fun _ => pure Array.map_push.symm
  refine current.bind fun token => (repeatWhile ?_ hround Array.map_empty.symm).bind fun _ =>
    (expect .closeCurly).bind fun _ => (allFound _).bind fun entries =>
      pure (congrArg (Expr.hash (token.moved move)) (movedEntries_eq_map move entries).symm)
  intro p q h
  rw [h.peek_kind]

theorem bindStmt : Follows move (Stmt.moved move) (Parse.bindStmt sub) (Parse.bindStmt sub) := by
  refine current.bind fun token => ident.bind fun name => (expect .assign).bind fun _ => advance.bind fun _ =>
    (hsub .lowest).attempt.bind fun value => skipSemicolon.bind fun _ => pure ?_
  cases value with
  | none => rfl
  | some e =>
    have hlabelled := e.labelled_moved move name.name
    exact congrArg (fun e => Stmt.bind (token.moved move) (name.moved move) (some e)) hlabelled.symm

theorem retStmt : Follows move (Stmt.moved move) (Parse.retStmt sub) (Parse.retStmt sub) :=
  current.bind fun token => advance.bind fun _ => (hsub .lowest).attempt.bind fun value => skipSemicolon.bind fun _ =>
    pure (congrArg (Stmt.ret (token.moved move)) (movedValue_eq_map move value).symm)

theorem exprStmt : Follows move (Stmt.moved move) (Parse.exprStmt sub) (Parse.exprStmt sub) := by
  refine current.bind fun token => (hsub .lowest).attempt.bind fun value => skipSemicolon.bind fun _ => ?_
  have hvalue : Follows move (Expr.moved move) (Parse.ofOption value) (Parse.ofOption (value.map (Expr.moved move))) :=
    ofOption rfl
  exact hvalue.bind fun _ => pure rfl

theorem stmt : Follows move (Stmt.moved move) (Parse.stmt sub) (Parse.stmt sub) := by
  refine current.bind fun token => ?_
  rw [Token.moved_kind]
  cases token.kind.statement? with
  | none => exact exprStmt hsub
  | some form =>
    cases form with
    | bind => exact bindStmt hsub
    | ret => exact retStmt hsub

theorem collect (found : Array Stmt) : Follows move (Array.map (Stmt.moved move)) (Parse.collect sub found)
    (Parse.collect sub (found.map (Stmt.moved move))) := by
  refine (stmt hsub).attempt.bind fun s => advance.bind fun _ => pure ?_
  cases s with
  | none => rfl
  | some s => exact Array.map_push.symm

theorem stmtsUntil (boundary : Kind → Bool) :
    Follows move (Array.map (Stmt.moved move)) (Parse.stmtsUntil sub boundary) (Parse.stmtsUntil sub boundary) :=
  repeatWhile (fun p q h => by rw [h.current_kind]) (collect hsub) Array.map_empty.symm

theorem block : Follows move (Block.moved move) (Parse.block sub) (Parse.block sub) := by
  refine current.bind fun token => advance.bind fun _ => (stmtsUntil hsub _).bind fun body =>
    (currentIs .eof).bind fun unclosed => ?_
  have hblock : Follows move (Block.moved move) (Pure.pure (.mk token body.toList))
      (Pure.pure (.mk (token.moved move) (body.map (Stmt.moved move)).toList)) := by
    refine pure (congrArg (Block.mk (token.moved move)) ?_)
    rw [Array.toList_map, movedStmts_eq_map]
  cases unclosed with
  | true => exact (report ⟨.unterminatedBlock token.value, token.span.start⟩).bind fun _ => hblock
  | false => exact hblock

theorem alternative :
    Follows move (Option.map (Block.moved move)) (Parse.alternative sub) (Parse.alternative sub) := by
  refine (peekIs .elseWord).bind fun more => ?_
  cases more with
  | true => exact advance.bind fun _ => (expect .openCurly).bind fun _ => (block hsub).bind fun _ => pure rfl
  | false => exact pure rfl

theorem cond : Follows move (Expr.moved move) (Parse.cond sub) (Parse.cond sub) := by
  refine current.bind fun token => (expect .openParen).bind fun _ => advance.bind fun _ =>
    (hsub .lowest).attempt.bind fun condition => (expect .closeParen).bind fun _ => (expect .openCurly).bind fun _ =>
      (block hsub).bind fun consequence => (alternative hsub).bind fun alternative => ?_
  have hcondition : Follows move (Expr.moved move) (Parse.ofOption condition)
      (Parse.ofOption (condition.map (Expr.moved move))) :=
    ofOption rfl
  exact hcondition.bind fun condition =>
    pure (congrArg (Expr.cond (token.moved move) (condition.moved move) (consequence.moved move))
      (movedElse_eq_map move alternative).symm)

theorem fn : Follows move (Expr.moved move) (Parse.fn sub) (Parse.fn sub) :=
  current.bind fun _ => (expect .openParen).bind fun _ => parameters.bind fun _ => (expect .openCurly).bind fun _ =>
    (block hsub).bind fun _ => pure rfl

theorem operand : Follows move (Expr.moved move) (Parse.operand sub) (Parse.operand sub) := by
  refine current.bind fun token => ?_
  rw [Token.moved_kind]
  cases token.kind.operand? with
  | none => exact noOperand token
  | some form =>
    cases form with
    | atom => exact atom
    | unary => exact unary hsub
    | group => exact group hsub
    | cond => exact cond hsub
    | fn => exact fn hsub
    | array => exact array hsub
    | hash => exact hash hsub

theorem foldAt (left : Expr) (token : Token) :
    Follows move (Expr.moved move) (Parse.foldAt sub left token)
      (Parse.foldAt sub (left.moved move) (token.moved move)) := by
  unfold Parse.foldAt
  rw [Token.moved_kind]
  rcases token.kind.operator? with _ | ⟨power, form⟩
  · exact pure rfl
  · cases form with
    | binary => exact binary hsub left power
    | call => exact call hsub left
    | index => exact index hsub left

theorem fold (left : Expr) :
    Follows move (Expr.moved move) (Parse.fold sub left) (Parse.fold sub (left.moved move)) :=
  descend.bind fun _ => advance.bind fun _ => current.bind fun token => foldAt hsub left token

theorem exprStep (power : BindingPower) :
    Follows move (Expr.moved move) (Parse.exprStep sub power) (Parse.exprStep sub power) := by
  have hmore : ∀ p q : Parser, p.Mirrors move q → bindsTighter power q = bindsTighter power p := by
    intro p q h
    unfold bindsTighter
    rw [h.peek_kind]
  exact nested (descend.bind fun _ => (operand hsub).bind fun left => repeatWhile hmore (fold hsub) rfl)

end Expressions

theorem exprWithin (n : Nat) (power : BindingPower) : Follows move (Expr.moved move)
    (Parse.exprWithin (fun _ => Parse.fail) n power) (Parse.exprWithin (fun _ => Parse.fail) n power) := by
  induction n generalizing power with
  | zero => exact fail
  | succ n ih => exact exprStep ih power

theorem expr (power : BindingPower) : Follows move (Expr.moved move) (Parse.expr power) (Parse.expr power) := by
  intro p q h
  have hwithin := exprWithin (p.limit + 1) power p q h
  unfold Parse.expr
  rwa [h.limit_eq]

theorem program : Follows move (Program.moved move) Parse.program Parse.program := by
  refine (stmtsUntil expr _).bind fun statements => pure (congrArg Program.mk ?_)
  rw [Array.toList_map, movedStmts_eq_map]

end Follows

end Parse

/-- Moving tokens moves what is parsed of them, and what is reported. -/
theorem parseTokens_moved (hnull : move Position.null = Position.null) (T : List Token) :
    parseTokens (T.map (Token.moved move)) =
      ((parseTokens T).1.moved move, (parseTokens T).2.map (Diagnostic.moved move)) := by
  obtain ⟨hvalue, hmirrors⟩ := Parse.Follows.program _ _ (Parser.mirrors_ofTokens hnull T)
  apply Prod.ext
  · show (Parse.program (Parser.ofTokens _)).1.getD ⟨[]⟩ = ((Parse.program (Parser.ofTokens T)).1.getD ⟨[]⟩).moved move
    rw [hvalue]
    cases (Parse.program (Parser.ofTokens T)).1 <;> rfl
  · show (Parse.program (Parser.ofTokens _)).2.diagnostics.toList =
      (Parse.program (Parser.ofTokens T)).2.diagnostics.toList.map (Diagnostic.moved move)
    rw [hmirrors.diagnostics_eq, Array.toList_map]

variable {T T' : List Token}

theorem map_moved_erased_eq (h : T.map Token.lexeme = T'.map Token.lexeme) :
    T.map (Token.moved Position.erased) = T'.map (Token.moved Position.erased) := by
  have hlexeme : ∀ T : List Token, T.map (Token.moved Position.erased) =
      (T.map Token.lexeme).map fun l => ⟨l.1, l.2, ⟨Position.null, Position.null⟩⟩ := by
    intro T
    rw [List.map_map]
    rfl
  rw [hlexeme, h, ← hlexeme]

theorem parseTokens_erased (h : T.map Token.lexeme = T'.map Token.lexeme) :
    (parseTokens T).1.moved Position.erased = (parseTokens T').1.moved Position.erased ∧
      (parseTokens T).2.map Diagnostic.fault = (parseTokens T').2.map Diagnostic.fault := by
  have herased : ∀ T : List Token, parseTokens (T.map (Token.moved Position.erased)) =
      ((parseTokens T).1.moved Position.erased, (parseTokens T).2.map (Diagnostic.moved Position.erased)) :=
    parseTokens_moved rfl
  have hmoved := herased T
  rw [map_moved_erased_eq h, herased T'] at hmoved
  obtain ⟨hprogram, hdiagnostics⟩ := Prod.mk.inj hmoved
  have hfault : ∀ D : List Diagnostic, (D.map (Diagnostic.moved Position.erased)).map Diagnostic.fault =
      D.map Diagnostic.fault := by
    intro D
    rw [List.map_map]
    rfl
  exact ⟨hprogram.symm, by rw [← hfault, ← hdiagnostics, hfault]⟩

theorem messages_ofString (source : String) (file : Option String) :
    (Parser.ofString source file).program.2.messages =
      ((parseTokens (tokenize source file)).2.map Diagnostic.fault).map Fault.message := by
  rw [← parse_eq_parseTokens, List.map_map]
  rfl

/-- Only the kinds and values of tokens matter: those that agree in them are parsed to the same program, spans apart,
and the same is reported, positions apart; and of texts that agree in them the programs are printed alike and the
messages are the same. -/
theorem layout_immaterial :
    (∀ T T' : List Token, T.map Token.lexeme = T'.map Token.lexeme →
        (parseTokens T).1.moved Position.erased = (parseTokens T').1.moved Position.erased ∧
          (parseTokens T).2.map Diagnostic.fault = (parseTokens T').2.map Diagnostic.fault) ∧
      ∀ (source source' : String) (file file' : Option String),
        (tokenize source file).map Token.lexeme = (tokenize source' file').map Token.lexeme →
          (parse source file).1.print = (parse source' file').1.print ∧
            (Parser.ofString source file).program.2.messages =
              (Parser.ofString source' file').program.2.messages := by
  refine ⟨fun T T' h => parseTokens_erased h, fun source source' file file' h => ?_⟩
  obtain ⟨hprogram, hfaults⟩ := parseTokens_erased h
  constructor
  · rw [parse_eq_parseTokens, parse_eq_parseTokens]
    exact Program.print_eq_of_moved_eq hprogram
  · rw [messages_ofString, messages_ofString, hfaults]

theorem layout_immaterial_spread :
    ((identityBinding.map Token.lexeme = (identityBinding.map (Token.moved fun _ => ⟨7, "spread"⟩)).map Token.lexeme) ∧
        (parseTokens identityBinding).1.moved Position.erased =
          (parseTokens (identityBinding.map (Token.moved fun _ => ⟨7, "spread"⟩))).1.moved Position.erased) ∧
      (tokenize "f(1 +);" none).map Token.lexeme = (tokenize "f ( 1 // one\n + ) ;" (some "spread")).map Token.lexeme ∧
        (Parser.ofString "f(1 +);" none).program.2.messages =
          (Parser.ofString "f ( 1 // one\n + ) ;" (some "spread")).program.2.messages := by
  have htokens : identityBinding.map Token.lexeme =
      (identityBinding.map (Token.moved fun _ => ⟨7, "spread"⟩)).map Token.lexeme := by decide
  have htexts : (tokenize "f(1 +);" none).map Token.lexeme =
      (tokenize "f ( 1 // one\n + ) ;" (some "spread")).map Token.lexeme := by decide +kernel
  exact ⟨⟨htokens, (layout_immaterial.1 _ _ htokens).1⟩, htexts, (layout_immaterial.2 _ _ _ _ htexts).2⟩

end FrontEnd
