import FrontEnd.Proofs.Parser.Routine
import FrontEnd.Proofs.Parser.Shared
import FrontEnd.Proofs.Parser.Turn

/-!
Nothing goes wrong unreported: a routine that adds no report has taken the phrase that it is there for, and the tree it
returns is spelled by the tokens it went over.
-/

namespace FrontEnd

namespace Parser

/-- The states that the parser of a source can come through, by the moves that its routines are made of. -/
inductive Reached (source : TokenSource) : Parser → Prop
  | start : Reached source (ofSource source)
  | advance {p : Parser} : Reached source p → Reached source p.advance
  | report {p : Parser} (d : Diagnostic) : Reached source p → Reached source (p.report d)
  | descend {p : Parser} : Reached source p → Reached source (Parse.descend p).2
  | unwind {p : Parser} {depth : Nat} : Reached source p → depth ≤ p.depth → Reached source (p.unwind depth)

/-- So many tokens from the current one on. -/
def upcoming (n : Nat) (p : Parser) : List Token :=
  (List.range n).map p.ahead

variable {source : TokenSource} {p q : Parser} {stop : Position} {ts : List Token}

theorem Reached.tooDeep (h : p.Reached source) (ho : p.overflowed = true) : p.TooDeep := by
  induction h with
  | start => exact nomatch ho
  | advance _ ih => exact ih ho
  | @report p d _ ih =>
    refine (p.grows_report d).tooDeep (ih ?_)
    rwa [report_overflowed] at ho
  | @descend p _ ih =>
    rcases Parse.descend_cases p with ⟨ho', h⟩ | ⟨ho', -, h⟩ | ⟨-, -, h⟩ <;> rw [h] at ho ⊢
    · exact ih ho
    · exact nomatch ho'.symm.trans ho
    · exact p.tooDeep_gaveUp
  | @unwind p depth _ _ ih => exact (p.grows_unwind depth).tooDeep (ih ((p.unwind_overflowed depth).mp ho).2)

theorem Reached.ready (h : p.Reached source) : p.Ready maxNestingDepth (maxNestingDepth + 1) := by
  induction h with
  | start => exact ready_withLimit maxNestingDepth source
  | advance _ ih => exact ⟨ih.limit_eq, ih.room, ih.within⟩
  | report d _ ih => exact (Parse.stable_ready _ _).report d _ ih
  | @descend p _ ih =>
    rcases Parse.descend_cases p with ⟨-, h⟩ | ⟨-, hlt, h⟩ | ⟨-, -, h⟩ <;> rw [h]
    · exact ih
    · exact ⟨ih.limit_eq, Nat.lt_add_left _ (Nat.lt_succ_self _), fun _ => hlt⟩
    · exact ⟨ih.limit_eq, Nat.lt_add_left _ (Nat.lt_succ_self _), fun ho => nomatch ho⟩
  | @unwind p depth _ hle ih =>
    refine ⟨(p.unwind_limit depth).trans ih.limit_eq, Nat.lt_add_left _ (Nat.lt_succ_self _), fun ho => ?_⟩
    rw [unwind_depth, unwind_limit]
    cases hp : p.overflowed with
    | false => exact Nat.le_trans hle (ih.within hp)
    | true =>
      -- Going back while an expression is being given up ends that only on the outermost level.
      cases depth with
      | zero => exact Nat.zero_le _
      | succ depth => exact nomatch ho.symm.trans ((p.unwind_overflowed _).mpr ⟨Nat.succ_ne_zero depth, hp⟩)

/-- Wherever its tokens come from, a parser does what one does that takes the same tokens from a buffer. -/
theorem exists_twin (p : Parser) : ∃ q stop ts, p.Twins q ∧ q.Sees stop ts := by
  obtain ⟨T, stop, hnth⟩ : ∃ T stop, ∀ k, p.source.nth k = (T[k]?).getD (Token.eof stop) := by
    cases p.source with
    | text l =>
      obtain ⟨T, stop, -, -, -, hnth⟩ := l.exists_tokens
      exact ⟨T, stop, hnth⟩
    | buffer b => exact ⟨b.tokens, b.stop, TokenSource.nth_buffer b.tokens b.stop⟩
  refine ⟨{ p with source := .buffer ⟨T, stop⟩ }, stop, p.current :: p.peek :: T, ?_, rfl, rfl, rfl⟩
  refine ⟨fun k => ?_, rfl, rfl, rfl, rfl, rfl⟩
  rcases k with _ | _ | k
  · rfl
  · rfl
  · exact (hnth k).trans (TokenSource.nth_buffer T stop k).symm

theorem Twins.ready {limit n : Nat} (h : p.Twins q) (hp : p.Ready limit n) : q.Ready limit n where
  limit_eq := h.limit_eq.symm.trans hp.limit_eq
  room := h.depth_eq ▸ hp.room
  within ho := h.depth_eq ▸ h.limit_eq ▸ hp.within (h.overflowed_eq.trans ho)

theorem Twins.upcoming_eq (h : p.Twins q) (n : Nat) : p.upcoming n = q.upcoming n := by
  unfold upcoming
  rw [funext h.ahead_eq]

/-- The tokens before a parser are those it sees. -/
theorem Sees.upcoming_append {vs us : List Token} (h : p.Sees stop (vs ++ us)) : p.upcoming vs.length = vs := by
  apply List.ext_getElem
  · simp [upcoming]
  · intro k hk hlt
    simp only [upcoming, List.getElem_map, List.getElem_range]
    rw [h.ahead_eq, List.getElem?_append_left hlt, List.getElem?_eq_getElem hlt]
    rfl

theorem Sees.ahead_append {vs us : List Token} (hp : p.Sees stop (vs ++ us)) (hq : q.Sees stop us) (k : Nat) :
    q.ahead k = p.ahead (vs.length + k) := by
  rw [hp.ahead_eq, hq.ahead_eq, List.getElem?_append_right (Nat.le_add_right _ _), Nat.add_sub_cancel_left]

end Parser

namespace Parse

theorem descend_of_lt {p : Parser} (ho : p.overflowed = false) (hlt : p.depth < p.limit) :
    descend p = (some (), p.deeper) := by
  rcases descend_cases p with ⟨ho', -⟩ | ⟨-, -, h⟩ | ⟨-, hle, -⟩
  · exact nomatch ho.symm.trans ho'
  · exact h
  · exact absurd hlt (Nat.not_lt.mpr hle)

theorem descend_of_le {p : Parser} (ho : p.overflowed = false) (hle : p.limit ≤ p.depth) :
    descend p = (none, p.gaveUp) := by
  rcases descend_cases p with ⟨ho', -⟩ | ⟨-, hlt, -⟩ | ⟨-, -, h⟩
  · exact nomatch ho.symm.trans ho'
  · exact absurd hlt (Nat.not_lt.mpr hle)
  · exact h

/-- Wherever they end, the routines end in states that the parser comes through, on no lower level. -/
theorem journey_reached (source : TokenSource) : Journey fun p q : Parser =>
    p.Reached source → q.Reached source ∧ p.depth ≤ q.depth where
  refl _ h := ⟨h, Nat.le_refl _⟩
  advance _ _ h hp := ⟨(h hp).1.advance, (h hp).2⟩
  report d _ _ q h hp := ⟨(h hp).1.report d, (q.report_depth d).symm ▸ (h hp).2⟩
  deeper _ q ho hlt h hp := by
    obtain ⟨hq, hle⟩ := h hp
    have hdescend := hq.descend
    rw [descend_of_lt ho hlt] at hdescend
    exact ⟨hdescend, Nat.le_succ_of_le hle⟩
  gaveUp _ q ho hdeep h hp := by
    obtain ⟨hq, hle⟩ := h hp
    have hdescend := hq.descend
    rw [descend_of_le ho hdeep] at hdescend
    exact ⟨hdescend, Nat.le_succ_of_le hle⟩
  unwind _ p q hp₀ hq h := by
    obtain ⟨hp, hle⟩ := hp₀ h
    obtain ⟨hq, hle'⟩ := hq hp
    exact ⟨hq.unwind hle', (q.unwind_depth p.depth).symm ▸ hle⟩

variable {α : Type} {x : Parse α} {D : List Token → α → Prop}

/-- What a routine makes of a state in which no expression is being given up. -/
theorem Routine.takes (hx : Routine x D) {source : TokenSource} {p : Parser} (hp : p.Reached source)
    (ho : p.overflowed = false) (hquiet : (x p).2.diagnostics = p.diagnostics) :
    ∃ a n, (x p).1 = some a ∧ (∀ k, (x p).2.ahead k = p.ahead (n + k)) ∧ D (p.upcoming (n + 1)) a := by
  obtain ⟨q, stop, ts, htwins, hsees⟩ := p.exists_twin
  obtain ⟨hvalue, hrest⟩ := hx.steady.twins p q htwins
  have hquiet' : (x q).2.diagnostics = q.diagnostics :=
    (hrest.diagnostics_eq.symm.trans hquiet).trans htwins.diagnostics_eq
  obtain ⟨us, -, hus, hphrase⟩ := (hx.describes maxNestingDepth stop).lands rfl q ts (htwins.ready hp.ready)
    (htwins.overflowed_eq.symm.trans ho) hsees hquiet'
  cases ha : (x q).1 with
  | none => exact (ha ▸ hphrase : Phrase _ ts none us).elim
  | some a =>
    obtain ⟨vs, t, rest, rfl, rfl, hD, -⟩ := (ha ▸ hphrase : Phrase (Spans D fun _ => True) ts (some a) us)
    refine ⟨a, vs.length, hvalue.trans ha, fun k => ?_, ?_⟩
    · rw [hrest.ahead_eq, htwins.ahead_eq]
      exact hsees.ahead_append hus k
    · have htaken : (vs ++ [t]).length = vs.length + 1 := List.length_append
      have hsees' : q.Sees stop ((vs ++ [t]) ++ rest) := by simpa using hsees
      rw [htwins.upcoming_eq, ← htaken, hsees'.upcoming_append]
      exact hD

end Parse

open Grammar Parse

variable {source : TokenSource} {p : Parser}

/-- While an expression is being given up that has been reported; and a routine that begins before that either adds a
report or takes a whole phrase: with a value in every binding and every statement that returns one, each block closed by
its brace, and every token it goes over in its place in the tree. The reports so far are never touched. -/
theorem Parser.Reached.reported (hp : p.Reached source) :
    (p.overflowed = true → p.TooDeep) ∧
      ∀ {α : Type} {x : Parse α} {D : List Token → α → Prop}, Routine x D →
        (x p).2.Reached source ∧ p.diagnostics.toList <+: (x p).2.diagnostics.toList ∧
          (p.overflowed = true ∨ p.diagnostics.size < (x p).2.diagnostics.size ∨
            ∃ a n, (x p).1 = some a ∧ (∀ k, (x p).2.ahead k = p.ahead (n + k)) ∧ D (p.upcoming (n + 1)) a) := by
  refine ⟨hp.tooDeep, fun {α} {x} {D} hx => ?_⟩
  have hearlier := hx.invariant (invariant_earlier p.diagnostics.toList) List.prefix_rfl
  refine ⟨(hx.journey (journey_reached source) p hp).1, hearlier, ?_⟩
  cases ho : p.overflowed with
  | true => exact .inl rfl
  | false =>
    refine .inr (Decidable.or_iff_not_imp_left.mpr fun hsame => hx.takes hp ho ?_)
    have hle : (x p).2.diagnostics.toList.length ≤ p.diagnostics.toList.length := by simpa using hsame
    exact (Array.toList_inj.mp (hearlier.eq_of_length_le hle)).symm

theorem Parser.Reached.reported_identityBinding :
    (ofTokens identityBinding).Reached (.buffer (TokenBuffer.ofList identityBinding)) ∧
      Routine (stmt expr) (Ended (Clause Expression)) ∧
      ∃ a n, (stmt expr (ofTokens identityBinding)).1 = some a ∧
        (∀ k, (stmt expr (ofTokens identityBinding)).2.ahead k = (ofTokens identityBinding).ahead (n + k)) ∧
        Ended (Clause Expression) ((ofTokens identityBinding).upcoming (n + 1)) a := by
  have hstart : (ofTokens identityBinding).Reached (.buffer (TokenBuffer.ofList identityBinding)) := .start
  have hquiet : (stmt expr (ofTokens identityBinding)).2.diagnostics.size = 0 := by decide
  refine ⟨hstart, .stmt, ?_⟩
  rcases (hstart.reported.2 .stmt).2.2 with ho | hgrown | htaken
  · exact nomatch ho
  · exact absurd (hquiet ▸ hgrown) (Nat.not_lt_zero _)
  · exact htaken

end FrontEnd
