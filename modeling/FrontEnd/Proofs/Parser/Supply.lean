import FrontEnd.Parser.Program
import FrontEnd.Proofs.Lexer.Lexeme
import FrontEnd.Proofs.Parser.Triple

/-!
What a parser does depends on the tokens before it and not on where they come from. The sources differ in how they bound
the rounds of a loop, but every round takes a token, so no bound is ever reached.
-/

namespace FrontEnd

namespace Parser

/-- The token so many places behind the current one. -/
def ahead (p : Parser) : Nat → Token
  | 0 => p.current
  | 1 => p.peek
  | k + 2 => p.source.nth k

/-- There are at most so many tokens from the current one on. -/
def EndsWithin (n : Nat) (p : Parser) : Prop :=
  ∀ k, n ≤ k → (p.ahead k).kind = .eof

/-- The same tokens come before the two, and all else is the same. -/
structure Twins (p q : Parser) : Prop where
  ahead_eq : ∀ k, p.ahead k = q.ahead k
  diagnostics_eq : p.diagnostics = q.diagnostics
  limit_eq : p.limit = q.limit
  depth_eq : p.depth = q.depth
  deepest_eq : p.deepest = q.deepest
  overflowed_eq : p.overflowed = q.overflowed

variable {p q : Parser} {n m : Nat}

theorem ahead_advance (p : Parser) (k : Nat) : p.advance.ahead k = p.ahead (k + 1) := by
  rcases k with _ | _ | k <;> rfl

theorem EndsWithin.mono (h : p.EndsWithin n) (hnm : n ≤ m) : p.EndsWithin m :=
  fun k hk => h k (Nat.le_trans hnm hk)

theorem EndsWithin.advance (h : p.EndsWithin (n + 1)) : p.advance.EndsWithin n := by
  intro k hk
  rw [ahead_advance]
  exact h (k + 1) (Nat.succ_le_succ hk)

theorem EndsWithin.peek_kind (h : p.EndsWithin 1) : p.peek.kind = .eof :=
  h 1 (Nat.le_refl 1)

theorem EndsWithin.report (h : p.EndsWithin n) (d : Diagnostic) : (p.report d).EndsWithin n := by
  unfold Parser.report
  split <;> exact h

theorem EndsWithin.skipWithin (h : p.EndsWithin n) (m : Nat) : (p.skipWithin m).EndsWithin n := by
  induction m generalizing p with
  | zero => exact h
  | succ m ih =>
    rw [Parser.skipWithin]
    split
    · exact h
    · exact ih (h.mono (Nat.le_succ n)).advance

theorem EndsWithin.unwind (h : p.EndsWithin n) (depth : Nat) : (p.unwind depth).EndsWithin n := by
  have hlevel : ({ p with depth := depth } : Parser).EndsWithin n := h
  unfold Parser.unwind
  split
  · exact hlevel.skipWithin _
  · exact hlevel

theorem Twins.current_eq (h : p.Twins q) : p.current = q.current :=
  h.ahead_eq 0

theorem Twins.peek_eq (h : p.Twins q) : p.peek = q.peek :=
  h.ahead_eq 1

theorem Twins.endsWithin (h : p.Twins q) (hq : q.EndsWithin n) : p.EndsWithin n := by
  intro k hk
  rw [h.ahead_eq]
  exact hq k hk

theorem Twins.advance (h : p.Twins q) : p.advance.Twins q.advance := by
  refine ⟨fun k => ?_, h.diagnostics_eq, h.limit_eq, h.depth_eq, h.deepest_eq, h.overflowed_eq⟩
  rw [ahead_advance, ahead_advance]
  exact h.ahead_eq (k + 1)

theorem Twins.report (h : p.Twins q) (d : Diagnostic) : (p.report d).Twins (q.report d) := by
  unfold Parser.report
  rw [h.overflowed_eq, h.diagnostics_eq]
  split
  · exact h
  · exact ⟨h.ahead_eq, rfl, h.limit_eq, h.depth_eq, h.deepest_eq, rfl⟩

theorem Twins.deeper (h : p.Twins q) : p.deeper.Twins q.deeper := by
  have hdepth : p.depth + 1 = q.depth + 1 := congrArg (· + 1) h.depth_eq
  refine ⟨h.ahead_eq, h.diagnostics_eq, h.limit_eq, hdepth, ?_, h.overflowed_eq⟩
  show max p.deepest (p.depth + 1) = max q.deepest (q.depth + 1)
  rw [h.deepest_eq, h.depth_eq]

theorem Twins.gaveUp (h : p.Twins q) : p.gaveUp.Twins q.gaveUp := by
  refine ⟨h.ahead_eq, ?_, h.limit_eq, h.deeper.depth_eq, h.deeper.deepest_eq, rfl⟩
  show p.diagnostics.push _ = q.diagnostics.push _
  rw [h.diagnostics_eq, h.limit_eq, h.current_eq]

theorem Twins.withDepth (h : p.Twins q) (depth : Nat) :
    Twins { p with depth := depth } { q with depth := depth } :=
  ⟨h.ahead_eq, h.diagnostics_eq, h.limit_eq, rfl, h.deepest_eq, h.overflowed_eq⟩

theorem skipWithin_of_boundary (h : p.peek.kind = .semicolon ∨ p.peek.kind = .eof) (n : Nat) : p.skipWithin n = p := by
  cases n with
  | zero => rfl
  | succ n => exact if_pos h

/-- Both skip as far, if both may skip as many tokens as there are. -/
theorem Twins.skipWithin (k : Nat) (h : p.Twins q) (hk : p.EndsWithin k) (hn : k ≤ n) (hm : k ≤ m) :
    (p.skipWithin n).Twins (q.skipWithin m) := by
  induction k generalizing p q n m with
  | zero =>
    have hpeek := (hk.mono (Nat.zero_le 1)).peek_kind
    rw [skipWithin_of_boundary (.inr hpeek), skipWithin_of_boundary (.inr (h.peek_eq ▸ hpeek))]
    exact h
  | succ k ih =>
    obtain ⟨n, rfl⟩ := Nat.exists_eq_add_of_le' hn
    obtain ⟨m, rfl⟩ := Nat.exists_eq_add_of_le' hm
    by_cases hpeek : p.peek.kind = .semicolon ∨ p.peek.kind = .eof
    · rw [skipWithin_of_boundary hpeek, skipWithin_of_boundary (h.peek_eq ▸ hpeek)]
      exact h
    · have hnext := ih h.advance hk.advance (Nat.le_add_left k n) (Nat.le_add_left k m)
      rw [← Nat.add_assoc, ← Nat.add_assoc, Parser.skipWithin, Parser.skipWithin, ← h.peek_eq, if_neg hpeek,
        if_neg hpeek]
      exact hnext

theorem endsWithin_left (p : Parser) : p.EndsWithin p.left := by
  intro k hk
  obtain ⟨k, rfl⟩ := Nat.exists_eq_add_of_le' (Nat.le_trans (Nat.le_add_left 2 p.source.size) hk)
  exact TokenSource.nth_kind_of_size_le (Nat.le_of_add_le_add_right hk)

theorem Twins.endsWithin_min (h : p.Twins q) : p.EndsWithin (min p.left q.left) := by
  rcases Nat.le_total p.left q.left with hle | hle
  · rw [Nat.min_eq_left hle]
    exact p.endsWithin_left
  · rw [Nat.min_eq_right hle]
    exact h.endsWithin q.endsWithin_left

theorem Twins.resumed (h : p.Twins q) : p.resumed.Twins q.resumed := by
  have hlevel := h.withDepth 0
  have hskip := hlevel.skipWithin _ hlevel.endsWithin_min (Nat.min_le_left _ _) (Nat.min_le_right _ _)
  exact ⟨hskip.ahead_eq, hskip.diagnostics_eq, hskip.limit_eq, hskip.depth_eq, hskip.deepest_eq, rfl⟩

theorem Twins.unwind (h : p.Twins q) (depth : Nat) : (p.unwind depth).Twins (q.unwind depth) := by
  have heq := h.overflowed_eq
  cases ho : q.overflowed with
  | false =>
    rw [unwind_of_calm depth (heq.trans ho), unwind_of_calm depth ho]
    exact h.withDepth depth
  | true =>
    cases depth with
    | zero =>
      rw [unwind_zero (heq.trans ho), unwind_zero ho]
      exact h.resumed
    | succ depth =>
      rw [unwind_of_ne_zero _ (Nat.succ_ne_zero depth), unwind_of_ne_zero _ (Nat.succ_ne_zero depth)]
      exact h.withDepth (depth + 1)

end Parser

namespace Parse

variable {α β σ : Type}

/-- The step does the same before the same tokens, wherever they come from, and puts no token back. -/
structure Steady (x : Parse α) : Prop where
  twins : ∀ p q : Parser, p.Twins q → (x p).1 = (x q).1 ∧ (x p).2.Twins (x q).2
  endsWithin : ∀ n (p : Parser), p.EndsWithin n → (x p).2.EndsWithin n

/-- Where the step succeeds it takes a token. -/
def Takes (x : Parse α) : Prop :=
  ∀ n (p : Parser) a, p.EndsWithin (n + 1) → (x p).1 = some a → (x p).2.EndsWithin n

/-- Each round of the loop takes a token, and the round that takes the last one is followed by no other. -/
structure Progresses (more : Parser → Bool) (step : σ → Parse σ) : Prop where
  takes : ∀ s, Takes (step s)
  last : ∀ s (p : Parser) s', p.EndsWithin 1 → more p = true → (step s p).1 = some s' → more (step s p).2 = false

namespace Steady

theorem ofOption (o : Option α) : Steady (Parse.ofOption o) :=
  ⟨fun _ _ h => ⟨rfl, h⟩, fun _ _ h => h⟩

theorem pure (a : α) : Steady (Pure.pure a : Parse α) :=
  ofOption (some a)

theorem fail : Steady (Parse.fail : Parse α) :=
  ofOption none

theorem view {f : Parser → α} (hf : ∀ p q : Parser, p.Twins q → f p = f q) : Steady (Parse.view f) :=
  ⟨fun p q h => ⟨congrArg some (hf p q h), h⟩, fun _ _ h => h⟩

theorem current : Steady Parse.current :=
  view fun _ _ h => h.current_eq

theorem currentIs (k : Kind) : Steady (Parse.currentIs k) :=
  view fun _ _ h => by rw [h.current_eq]

theorem peekIs (k : Kind) : Steady (Parse.peekIs k) :=
  view fun _ _ h => by rw [h.peek_eq]

theorem advance : Steady Parse.advance :=
  ⟨fun _ _ h => ⟨rfl, h.advance⟩, fun n _ h => (h.mono (Nat.le_succ n)).advance⟩

theorem report (d : Diagnostic) : Steady (Parse.report d) :=
  ⟨fun _ _ h => ⟨rfl, h.report d⟩, fun _ _ h => h.report d⟩

theorem expect (k : Kind) : Steady (Parse.expect k) where
  twins p q h := by
    have hpeek := h.peek_eq
    rcases expect_cases k p with ⟨hp, hxp⟩ | ⟨hp, hxp⟩ <;> rcases expect_cases k q with ⟨hq, hxq⟩ | ⟨hq, hxq⟩ <;>
      rw [hxp, hxq]
    · exact ⟨rfl, h.advance⟩
    · exact absurd (hpeek ▸ hp) hq
    · exact absurd (hpeek ▸ hq) hp
    · rw [hpeek]
      exact ⟨rfl, h.report _⟩
  endsWithin n p h := by
    rcases expect_cases k p with ⟨-, hx⟩ | ⟨-, hx⟩ <;> rw [hx]
    · exact (h.mono (Nat.le_succ n)).advance
    · exact h.report _

theorem descend : Steady Parse.descend where
  twins p q h := by
    have ho := h.overflowed_eq
    have hd := h.depth_eq
    have hl := h.limit_eq
    rcases descend_cases p with ⟨hp, hxp⟩ | ⟨hp, hlt, hxp⟩ | ⟨hp, hle, hxp⟩ <;>
      rcases descend_cases q with ⟨hq, hxq⟩ | ⟨hq, hlt', hxq⟩ | ⟨hq, hle', hxq⟩
    · rw [hxp, hxq]
      exact ⟨rfl, h⟩
    · exact absurd (hp.symm.trans (ho.trans hq)) (by decide)
    · exact absurd (hp.symm.trans (ho.trans hq)) (by decide)
    · exact absurd (hp.symm.trans (ho.trans hq)) (by decide)
    · rw [hxp, hxq]
      exact ⟨rfl, h.deeper⟩
    · omega
    · exact absurd (hp.symm.trans (ho.trans hq)) (by decide)
    · omega
    · rw [hxp, hxq]
      exact ⟨rfl, h.gaveUp⟩
  endsWithin n p h := by
    rcases descend_cases p with ⟨-, hx⟩ | ⟨-, -, hx⟩ | ⟨-, -, hx⟩ <;> rw [hx] <;> exact h

theorem attempt {x : Parse α} (hx : Steady x) : Steady (Parse.attempt x) where
  twins p q h := ⟨congrArg some (hx.twins p q h).1, (hx.twins p q h).2⟩
  endsWithin := hx.endsWithin

theorem bind {x : Parse α} {f : α → Parse β} (hx : Steady x) (hf : ∀ a, Steady (f a)) : Steady (x >>= f) where
  twins p q h := by
    have hnext := hx.twins p q h
    rw [bind_apply, bind_apply]
    generalize x p = r at hnext ⊢
    generalize x q = t at hnext ⊢
    obtain ⟨o, p'⟩ := r
    obtain ⟨o', q'⟩ := t
    obtain ⟨rfl, htwins⟩ : o = o' ∧ p'.Twins q' := hnext
    cases o with
    | none => exact ⟨rfl, htwins⟩
    | some a => exact (hf a).twins p' q' htwins
  endsWithin n p h := by
    have hnext := hx.endsWithin n p h
    rw [bind_apply]
    generalize x p = r at hnext ⊢
    rcases r with ⟨_ | a, q⟩
    · exact hnext
    · exact (hf a).endsWithin n q hnext

theorem nested {x : Parse α} (hx : Steady x) : Steady (Parse.nested x) where
  twins p q h := by
    have hnext := hx.twins p q h
    refine ⟨hnext.1, ?_⟩
    show ((x p).2.unwind p.depth).Twins ((x q).2.unwind q.depth)
    rw [h.depth_eq]
    exact hnext.2.unwind q.depth
  endsWithin n p h := (hx.endsWithin n p h).unwind p.depth

end Steady

namespace Takes

theorem advance : Takes Parse.advance :=
  fun _ _ _ h _ => h.advance

theorem bind_left {x : Parse α} {f : α → Parse β} (hx : Takes x) (hf : ∀ a, Steady (f a)) : Takes (x >>= f) := by
  intro n p b h hb
  have hnext := hx n p
  rw [bind_apply] at hb ⊢
  generalize x p = r at hnext hb ⊢
  rcases r with ⟨_ | a, q⟩
  · exact nomatch hb
  · exact (hf a).endsWithin n q (hnext a h rfl)

theorem bind_right {x : Parse α} {f : α → Parse β} (hx : Steady x) (hf : ∀ a, Takes (f a)) : Takes (x >>= f) := by
  intro n p b h hb
  have hnext := hx.endsWithin (n + 1) p h
  rw [bind_apply] at hb ⊢
  generalize x p = r at hnext hb ⊢
  rcases r with ⟨_ | a, q⟩
  · exact nomatch hb
  · exact hf a n q b hnext hb

end Takes

section Loop

variable {more : Parser → Bool} {step : σ → Parse σ}

variable (hmore : ∀ p q : Parser, p.Twins q → more p = more q) (hstep : ∀ s, Steady (step s))
  (hprogress : Progresses more step)

include hmore hstep hprogress

omit hprogress in
theorem repeatWithin_twins_succ {n m : Nat} (s : σ) {p q : Parser} (h : p.Twins q)
    (hnext : ∀ s₁, more p = true → (step s p).1 = some s₁ →
      (repeatWithin more step n s₁ (step s p).2).1 = (repeatWithin more step m s₁ (step s q).2).1 ∧
        (repeatWithin more step n s₁ (step s p).2).2.Twins (repeatWithin more step m s₁ (step s q).2).2) :
    (repeatWithin more step (n + 1) s p).1 = (repeatWithin more step (m + 1) s q).1 ∧
      (repeatWithin more step (n + 1) s p).2.Twins (repeatWithin more step (m + 1) s q).2 := by
  have hsame := (hstep s).twins p q h
  rw [repeatWithin, repeatWithin, ← hmore p q h]
  cases hgo : more p with
  | false => exact ⟨rfl, h⟩
  | true =>
    have hnext := fun s₁ => hnext s₁ hgo
    rw [if_pos rfl, if_pos rfl]
    generalize step s p = r at hsame hnext ⊢
    generalize step s q = t at hsame hnext ⊢
    obtain ⟨o, p₁⟩ := r
    obtain ⟨o', q₁⟩ := t
    obtain ⟨rfl, htwins⟩ : o = o' ∧ p₁.Twins q₁ := hsame
    cases o with
    | none => exact ⟨rfl, htwins⟩
    | some s₁ => exact hnext s₁ rfl

/-- As each round takes a token, bounds that are no lower than the number of tokens make no difference. -/
theorem repeatWithin_twins (k : Nat) {n m : Nat} (s : σ) {p q : Parser} (h : p.Twins q) (hk : p.EndsWithin k)
    (hn : k ≤ n) (hm : k ≤ m) (hn₀ : 0 < n) (hm₀ : 0 < m) :
    (repeatWithin more step n s p).1 = (repeatWithin more step m s q).1 ∧
      (repeatWithin more step n s p).2.Twins (repeatWithin more step m s q).2 := by
  have hend : ∀ (s : σ) {n m : Nat} {p q : Parser}, p.Twins q → p.EndsWithin 1 → 0 < n → 0 < m →
      (repeatWithin more step n s p).1 = (repeatWithin more step m s q).1 ∧
        (repeatWithin more step n s p).2.Twins (repeatWithin more step m s q).2 := by
    intro s n m p q h hlate hn hm
    obtain ⟨n, rfl⟩ := Nat.exists_eq_add_of_le' hn
    obtain ⟨m, rfl⟩ := Nat.exists_eq_add_of_le' hm
    refine repeatWithin_twins_succ hmore hstep s h fun s₁ hgo hs => ?_
    have htwins := ((hstep s).twins p q h).2
    have hdone := hprogress.last s p s₁ hlate hgo hs
    rw [repeatWithin_of_done hdone, repeatWithin_of_done (hmore _ _ htwins ▸ hdone)]
    exact ⟨rfl, htwins⟩
  induction k generalizing n m s p q with
  | zero => exact hend s h (hk.mono (Nat.zero_le 1)) hn₀ hm₀
  | succ k ih =>
    cases k with
    | zero => exact hend s h hk hn₀ hm₀
    | succ k =>
      obtain ⟨n, rfl⟩ := Nat.exists_eq_add_of_le' hn₀
      obtain ⟨m, rfl⟩ := Nat.exists_eq_add_of_le' hm₀
      refine repeatWithin_twins_succ hmore hstep s h fun s₁ _ hs => ?_
      have htwins := ((hstep s).twins p q h).2
      have hk' := hprogress.takes s (k + 1) p s₁ hk hs
      exact ih s₁ htwins hk' (Nat.le_of_succ_le_succ hn) (Nat.le_of_succ_le_succ hm)
        (Nat.lt_of_lt_of_le (Nat.succ_pos k) (Nat.le_of_succ_le_succ hn))
        (Nat.lt_of_lt_of_le (Nat.succ_pos k) (Nat.le_of_succ_le_succ hm))

theorem Steady.repeatWhile (s : σ) : Steady (Parse.repeatWhile more step s) where
  twins p q h := by
    unfold Parse.repeatWhile
    exact repeatWithin_twins hmore hstep hprogress (min p.left q.left) s h h.endsWithin_min (Nat.min_le_left _ _)
      (Nat.min_le_right _ _) (Nat.succ_pos _) (Nat.succ_pos _)
  endsWithin n p h := by
    have hround : ∀ s, Triple (Parser.EndsWithin n) (step s) (fun _ => Parser.EndsWithin n) (Parser.EndsWithin n) :=
      fun s q hq => ⟨fun _ _ => (hstep s).endsWithin n q hq, fun _ => (hstep s).endsWithin n q hq⟩
    exact (Triple.repeatWhile hround s).ends (fun _ _ hq => hq) h

end Loop

namespace Steady

theorem ident : Steady Parse.ident :=
  (expect .identifier).bind fun _ => current.bind fun _ => pure _

theorem skipSemicolon : Steady Parse.skipSemicolon := by
  refine (peekIs .semicolon).bind fun more => ?_
  cases more with
  | true => exact advance
  | false => exact pure ()

theorem noOperand (token : Token) : Steady (Parse.noOperand token) :=
  (report _).bind fun _ => fail

theorem int (token : Token) : Steady (Parse.int token) := by
  unfold Parse.int
  split
  · exact pure _
  · exact (report _).bind fun _ => fail

theorem atom : Steady Parse.atom := by
  refine current.bind fun token => ?_
  split
  · exact int token
  · exact pure _
  · exact pure _
  · exact pure _
  · exact pure _
  · exact noOperand token

/-- Behind the last token there is no comma to go on with. -/
theorem progresses_commas {step : σ → Parse σ} (htakes : ∀ s, Takes (step s)) :
    Progresses (fun p => p.peek.kind == .comma) step := by
  refine ⟨htakes, fun _ p _ hend hmore _ => ?_⟩
  rw [hend.peek_kind] at hmore
  exact nomatch hmore

theorem commaLoop {step : σ → Parse σ} (hstep : ∀ s, Steady (step s)) (htakes : ∀ s, Takes (step s)) (s : σ) :
    Steady (Parse.repeatWhile (fun p => p.peek.kind == .comma) step s) :=
  repeatWhile (fun p q h => by rw [h.peek_eq]) hstep (progresses_commas htakes) s

theorem takes_parameter (found : Array Ident) :
    Takes (Parse.advance >>= fun _ => Parse.ident >>= fun name => Pure.pure (found.push name)) :=
  Takes.advance.bind_left fun _ => ident.bind fun _ => pure _

theorem parameters : Steady Parse.parameters := by
  refine (peekIs .closeParen).bind fun close => ?_
  cases close with
  | true => exact advance.bind fun _ => pure _
  | false =>
    refine ident.bind fun first => (commaLoop (fun found => ?_) takes_parameter _).bind fun found =>
      (expect .closeParen).bind fun _ => pure _
    exact advance.bind fun _ => ident.bind fun _ => pure _

section Expressions

variable {sub : SubExpr} (hsub : ∀ power, Steady (sub power))

include hsub

theorem unary : Steady (Parse.unary sub) :=
  current.bind fun _ => advance.bind fun _ => (hsub .unary).bind fun _ => pure _

theorem group : Steady (Parse.group sub) :=
  advance.bind fun _ => (hsub .lowest).attempt.bind fun _ => (expect .closeParen).bind fun _ => ofOption _

theorem binary (left : Expr) (power : BindingPower) : Steady (Parse.binary sub left power) :=
  current.bind fun _ => advance.bind fun _ => (hsub power).bind fun _ => pure _

theorem index (collection : Expr) : Steady (Parse.index sub collection) :=
  current.bind fun _ => advance.bind fun _ => (hsub .lowest).attempt.bind fun _ => (expect .closeBracket).bind fun _ =>
    (ofOption _).bind fun _ => pure _

theorem takes_item (found : Array (Option Expr)) :
    Takes (Parse.advance >>= fun _ => Parse.advance >>= fun _ => Parse.attempt (sub .lowest) >>= fun value =>
      Pure.pure (found.push value)) :=
  Takes.advance.bind_left fun _ => advance.bind fun _ => (hsub .lowest).attempt.bind fun _ => pure _

theorem items (close : Kind) : Steady (Parse.items sub close) := by
  refine (peekIs close).bind fun empty => ?_
  cases empty with
  | true => exact advance.bind fun _ => pure _
  | false =>
    refine advance.bind fun _ => (hsub .lowest).attempt.bind fun first =>
      (commaLoop (fun found => ?_) (takes_item hsub) _).bind fun found => (expect close).bind fun _ => ofOption _
    exact advance.bind fun _ => advance.bind fun _ => (hsub .lowest).attempt.bind fun _ => pure _

theorem array : Steady (Parse.array sub) :=
  current.bind fun _ => (items hsub .closeBracket).bind fun _ => pure _

theorem call (callee : Expr) : Steady (Parse.call sub callee) :=
  current.bind fun _ => (items hsub .closeParen).bind fun _ => pure _

theorem entry : Steady (Parse.entry sub) := by
  refine advance.bind fun _ => (hsub .lowest).attempt.bind fun _ => (expect .colon).bind fun _ => advance.bind fun _ =>
    (hsub .lowest).attempt.bind fun _ => (peekIs .closeCurly).bind fun last => ?_
  cases last with
  | true => exact pure _
  | false => exact (expect .comma).bind fun _ => pure _

theorem takes_entry : Takes (Parse.entry sub) := by
  refine Takes.advance.bind_left fun _ => (hsub .lowest).attempt.bind fun _ => (expect .colon).bind fun _ =>
    advance.bind fun _ => (hsub .lowest).attempt.bind fun _ => (peekIs .closeCurly).bind fun last => ?_
  cases last with
  | true => exact pure _
  | false => exact (expect .comma).bind fun _ => pure _

/-- Behind the last token there is no colon, so no entry either. -/
theorem entry_eq_none {p : Parser} (h : p.EndsWithin 1) : (Parse.entry sub p).1 = none := by
  have hkey := (hsub .lowest).endsWithin 0 p.advance h.advance
  unfold Parse.entry
  show ((Parse.expect .colon >>= _) (sub .lowest p.advance).2).1 = none
  rw [bind_apply]
  rcases expect_cases .colon (sub .lowest p.advance).2 with ⟨hcolon, -⟩ | ⟨-, hx⟩
  · exact nomatch (hkey 1 (Nat.zero_le 1)).symm.trans hcolon
  · rw [hx]

theorem progresses_entries : Progresses (fun p => p.peek.kind != .closeCurly)
    fun found : Array (Option Entry) => Parse.entry sub >>= fun entry => Pure.pure (found.push entry) := by
  refine ⟨fun _ => (takes_entry hsub).bind_left fun _ => pure _, fun found p s' hend _ hs => ?_⟩
  have hnone := entry_eq_none hsub hend
  rw [bind_apply] at hs
  generalize Parse.entry sub p = r at hnone hs
  obtain ⟨o, q⟩ := r
  obtain rfl : o = none := hnone
  exact nomatch hs

theorem hash : Steady (Parse.hash sub) := by
  have hround : ∀ found : Array (Option Entry),
      Steady (Parse.entry sub >>= fun entry => Pure.pure (found.push entry)) :=
    fun found => (entry hsub).bind fun _ => pure _
  have hloop := repeatWhile (fun p q h => by rw [h.peek_eq]) hround (progresses_entries hsub)
  exact current.bind fun _ => (hloop _).bind fun _ => (expect .closeCurly).bind fun _ => (ofOption _).bind fun _ =>
    pure _

theorem bindStmt : Steady (Parse.bindStmt sub) :=
  current.bind fun _ => ident.bind fun _ => (expect .assign).bind fun _ => advance.bind fun _ =>
    (hsub .lowest).attempt.bind fun _ => skipSemicolon.bind fun _ => pure _

theorem retStmt : Steady (Parse.retStmt sub) :=
  current.bind fun _ => advance.bind fun _ => (hsub .lowest).attempt.bind fun _ => skipSemicolon.bind fun _ => pure _

theorem exprStmt : Steady (Parse.exprStmt sub) :=
  current.bind fun _ => (hsub .lowest).attempt.bind fun _ => skipSemicolon.bind fun _ => (ofOption _).bind fun _ =>
    pure _

theorem stmt : Steady (Parse.stmt sub) := by
  refine current.bind fun token => ?_
  split
  · exact bindStmt hsub
  · exact retStmt hsub
  · exact exprStmt hsub

theorem collect (found : Array Stmt) : Steady (Parse.collect sub found) :=
  (stmt hsub).attempt.bind fun _ => advance.bind fun _ => pure _

theorem takes_collect (found : Array Stmt) : Takes (Parse.collect sub found) :=
  Takes.bind_right (stmt hsub).attempt fun _ => Takes.advance.bind_left fun _ => pure _

theorem progresses_statements {boundary : Kind → Bool} (heof : boundary .eof = true) :
    Progresses (fun p => !boundary p.current.kind) (Parse.collect sub) := by
  refine ⟨takes_collect hsub, fun found p s' hend _ hs => ?_⟩
  have hover := takes_collect hsub found 0 p s' hend hs
  have hkind : (Parse.collect sub found p).2.current.kind = .eof := hover 0 (Nat.le_refl 0)
  rw [hkind, heof]
  rfl

theorem stmtsUntil (boundary : Kind → Bool) (heof : boundary .eof = true) : Steady (Parse.stmtsUntil sub boundary) :=
  repeatWhile (fun p q h => by rw [h.current_eq]) (collect hsub) (progresses_statements hsub heof) _

theorem block : Steady (Parse.block sub) := by
  refine current.bind fun _ => advance.bind fun _ => (stmtsUntil hsub _ rfl).bind fun _ =>
    (currentIs .eof).bind fun unclosed => ?_
  cases unclosed with
  | true => exact (report _).bind fun _ => pure _
  | false => exact pure _

theorem alternative : Steady (Parse.alternative sub) := by
  refine (peekIs .elseWord).bind fun more => ?_
  cases more with
  | true => exact advance.bind fun _ => (expect .openCurly).bind fun _ => (block hsub).bind fun _ => pure _
  | false => exact pure _

theorem cond : Steady (Parse.cond sub) :=
  current.bind fun _ => (expect .openParen).bind fun _ => advance.bind fun _ => (hsub .lowest).attempt.bind fun _ =>
    (expect .closeParen).bind fun _ => (expect .openCurly).bind fun _ => (block hsub).bind fun _ =>
      (alternative hsub).bind fun _ => (ofOption _).bind fun _ => pure _

theorem fn : Steady (Parse.fn sub) :=
  current.bind fun _ => (expect .openParen).bind fun _ => parameters.bind fun _ => (expect .openCurly).bind fun _ =>
    (block hsub).bind fun _ => pure _

theorem operand : Steady (Parse.operand sub) := by
  refine current.bind fun token => ?_
  split
  · exact atom
  · exact unary hsub
  · exact group hsub
  · exact cond hsub
  · exact fn hsub
  · exact array hsub
  · exact hash hsub
  · exact noOperand token

theorem foldAt (left : Expr) (token : Token) : Steady (Parse.foldAt sub left token) := by
  unfold Parse.foldAt
  split
  · exact binary hsub left _
  · exact call hsub left
  · exact index hsub left
  · exact pure left

theorem fold (left : Expr) : Steady (Parse.fold sub left) :=
  descend.bind fun _ => advance.bind fun _ => current.bind fun token => foldAt hsub left token

theorem progresses_folds (power : BindingPower) : Progresses (bindsTighter power) (Parse.fold sub) := by
  refine ⟨fun left => ?_, fun left p e hend hgo _ => ?_⟩
  · refine Takes.bind_right descend fun _ => Takes.advance.bind_left fun _ => current.bind fun token => ?_
    exact foldAt hsub left token
  · unfold bindsTighter at hgo
    rw [hend.peek_kind] at hgo
    exact nomatch hgo

theorem exprStep (power : BindingPower) : Steady (Parse.exprStep sub power) := by
  have hmore : ∀ p q : Parser, p.Twins q → bindsTighter power p = bindsTighter power q := by
    intro p q h
    unfold bindsTighter
    rw [h.peek_eq]
  exact nested (descend.bind fun _ => (operand hsub).bind fun left =>
    repeatWhile hmore (fold hsub) (progresses_folds hsub power) left)

end Expressions

theorem exprWithin (n : Nat) (power : BindingPower) : Steady (Parse.exprWithin (fun _ => Parse.fail) n power) := by
  induction n generalizing power with
  | zero => exact fail
  | succ n ih => exact exprStep ih power

theorem expr (power : BindingPower) : Steady (Parse.expr power) where
  twins p q h := by
    have htwins := (exprWithin (p.limit + 1) power).twins p q h
    unfold Parse.expr
    rwa [← h.limit_eq]
  endsWithin n p h := (exprWithin (p.limit + 1) power).endsWithin n p h

theorem program : Steady Parse.program :=
  (stmtsUntil expr _ rfl).bind fun _ => pure _

end Steady

end Parse

theorem Parser.ahead_withLimit (limit : Nat) (source : TokenSource) (k : Nat) :
    (withLimit limit source).ahead k = source.nth k := by
  rcases k with _ | _ | k <;> rfl

/-- Sources that give the same tokens are parsed alike, under every limit. -/
theorem program_twins (limit : Nat) {source source' : TokenSource} (h : ∀ k, source.nth k = source'.nth k) :
    (Parse.program (Parser.withLimit limit source)).1 = (Parse.program (Parser.withLimit limit source')).1 ∧
      (Parse.program (Parser.withLimit limit source)).2.Twins (Parse.program (Parser.withLimit limit source')).2 := by
  refine Parse.Steady.program.twins _ _ ⟨fun k => ?_, rfl, rfl, rfl, rfl, rfl⟩
  rw [Parser.ahead_withLimit, Parser.ahead_withLimit]
  exact h k

end FrontEnd
