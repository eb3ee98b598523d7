import FrontEnd.Proofs.Parser.Reading
import FrontEnd.Proofs.Parser.Supply
import FrontEnd.Proofs.Parser.Traversal

/-!
Two runs over tokens that are the same up to a place, where the tokens of one of them end: for as long as that one comes
upon no end, they do the same.
-/

namespace FrontEnd

variable {V ts us : List Token} {stop stop' : Position} {p q : Parser} {n : Nat}

/-- Lists without `a` are known by their entries, with `a` behind the last one. -/
theorem eq_of_getElem?_getD {α : Type} {a : α} {as bs : List α} (ha : a ∉ as) (hb : a ∉ bs)
    (h : ∀ k : Nat, (as[k]?).getD a = (bs[k]?).getD a) : as = bs := by
  apply List.ext_getElem?
  intro k
  have hk := h k
  cases has : as[k]? with
  | none =>
    cases hbs : bs[k]? with
    | none => rfl
    | some b =>
      rw [has, hbs] at hk
      obtain rfl : a = b := hk
      exact absurd (List.mem_of_getElem? hbs) hb
  | some a' =>
    cases hbs : bs[k]? with
    | none =>
      rw [has, hbs] at hk
      obtain rfl : a' = a := hk
      exact absurd (List.mem_of_getElem? has) ha
    | some b =>
      rw [has, hbs] at hk
      exact congrArg some hk

/-- With so many ends put behind the tokens of a buffer. -/
def TokenSource.padded (n : Nat) : TokenSource → TokenSource
  | .text l => .text l
  | .buffer b => .buffer ⟨b.tokens ++ List.replicate n (Token.eof b.stop), b.stop⟩

theorem TokenSource.nth_padded (s : TokenSource) (n k : Nat) : (s.padded n).nth k = s.nth k := by
  cases s with
  | text l => rfl
  | buffer b =>
    unfold TokenSource.padded
    rw [nth_buffer, nth_buffer, getElem?_append_replicate_getD]

namespace Parser

def padded (n : Nat) (p : Parser) : Parser :=
  { p with source := p.source.padded n }

theorem twins_padded (p : Parser) (n : Nat) : p.Twins (p.padded n) := by
  refine ⟨fun k => ?_, rfl, rfl, rfl, rfl, rfl⟩
  rcases k with _ | _ | k
  · rfl
  · rfl
  · exact (p.source.nth_padded n k).symm

theorem Sees.ahead_eq (h : p.Sees stop ts) (k : Nat) : p.ahead k = (ts[k]?).getD (Token.eof stop) := by
  rcases k with _ | _ | k
  · rw [ahead, h.current_eq]
    cases ts <;> rfl
  · rw [ahead, h.peek_eq]
    rcases ts with _ | ⟨t, _ | ⟨u, ts⟩⟩ <;> rfl
  · rw [ahead, h.source_eq, TokenSource.nth_buffer]
    rcases ts with _ | ⟨t, _ | ⟨u, ts⟩⟩ <;> rfl

theorem Sees.endsWithin (h : p.Sees stop ts) : p.EndsWithin ts.length := by
  intro k hk
  rw [h.ahead_eq, List.getElem?_eq_none hk]
  rfl

/-- The same tokens are next, with `V` behind them on the right and as many ends on the left. All else is the same, and
no expression is being given up. -/
structure Shares (V : List Token) (stop stop' : Position) (p q : Parser) : Prop where
  current_eq : p.current = q.current
  peek_eq : p.peek = q.peek
  source_eq : ∃ ts, (∀ t ∈ ts, t.kind ≠ .eof) ∧
    p.source = .buffer ⟨ts ++ List.replicate V.length (Token.eof stop), stop⟩ ∧ q.source = .buffer ⟨ts ++ V, stop'⟩
  limit_eq : p.limit = q.limit
  depth_eq : p.depth = q.depth
  calm_left : p.overflowed = false
  calm_right : q.overflowed = false
  diagnostics_eq : p.diagnostics = q.diagnostics

/-- The one on the left has come upon an end, or given an expression up. -/
def Stuck (p _q : Parser) : Prop :=
  p.EndsWithin 1 ∨ p.TooDeep

theorem Shares.left_eq (h : p.Shares V stop stop' q) : p.left = q.left := by
  obtain ⟨ts, -, hp, hq⟩ := h.source_eq
  unfold Parser.left
  rw [hp, hq]
  show (ts ++ List.replicate V.length (Token.eof stop)).length + 2 = (ts ++ V).length + 2
  rw [List.length_append, List.length_append, List.length_replicate]

/-- Moving on, the one on the left comes upon an end just where the shared tokens have all come into view. -/
theorem Shares.advance (h : p.Shares V stop stop' q) :
    p.advance.Shares V stop stop' q.advance ∨ p.advance.Stuck q.advance := by
  obtain ⟨ts, hfree, hp, hq⟩ := h.source_eq
  cases ts with
  | nil =>
    right
    left
    rintro (_ | k) hk
    · exact absurd hk (Nat.not_succ_le_zero 0)
    · have hends := getElem?_append_replicate_getD [] (Token.eof stop) V.length k
      rw [ahead_advance, ahead, hp, TokenSource.nth_buffer, hends]
      rfl
  | cons t ts =>
    left
    refine ⟨h.peek_eq, ?_, ⟨ts, (List.forall_mem_cons.mp hfree).2, ?_, ?_⟩, h.limit_eq, h.depth_eq, h.calm_left,
      h.calm_right, h.diagnostics_eq⟩
    · show p.source.next.1 = q.source.next.1
      rw [hp, hq]
      rfl
    · show p.source.next.2 = _
      rw [hp]
      rfl
    · show q.source.next.2 = _
      rw [hq]
      rfl

theorem Shares.report (h : p.Shares V stop stop' q) (d : Diagnostic) :
    (p.report d).Shares V stop stop' (q.report d) := by
  have hp : p.report d = { p with diagnostics := p.diagnostics.push d } := by
    unfold Parser.report
    rw [h.calm_left]
    rfl
  have hq : q.report d = { q with diagnostics := q.diagnostics.push d } := by
    unfold Parser.report
    rw [h.calm_right]
    rfl
  rw [hp, hq]
  exact ⟨h.current_eq, h.peek_eq, h.source_eq, h.limit_eq, h.depth_eq, h.calm_left, h.calm_right,
    congrArg (·.push d) h.diagnostics_eq⟩

theorem Shares.deeper (h : p.Shares V stop stop' q) : p.deeper.Shares V stop stop' q.deeper :=
  ⟨h.current_eq, h.peek_eq, h.source_eq, h.limit_eq, congrArg (· + 1) h.depth_eq, h.calm_left, h.calm_right,
    h.diagnostics_eq⟩

theorem Shares.unwind (h : p.Shares V stop stop' q) (depth : Nat) :
    (p.unwind depth).Shares V stop stop' (q.unwind depth) := by
  rw [unwind_of_calm depth h.calm_left, unwind_of_calm depth h.calm_right]
  exact ⟨h.current_eq, h.peek_eq, h.source_eq, h.limit_eq, rfl, h.calm_left, h.calm_right, h.diagnostics_eq⟩

theorem Reads.free_drop {t u : Token} (h : p.Reads stop (t :: u :: ts)) : ∀ v ∈ ts, v.kind ≠ .eof :=
  fun v hv => h.free v (List.mem_cons_of_mem _ (List.mem_cons_of_mem _ hv))

theorem Reads.shares {t u : Token} (hp : p.Reads stop (t :: u :: ts)) (hq : q.Sees stop' (t :: u :: ts ++ V))
    (hlimit : p.limit = q.limit) (hdepth : p.depth = q.depth) (hcalm : p.overflowed = false)
    (hcalm' : q.overflowed = false) (hdiagnostics : p.diagnostics = q.diagnostics) :
    (p.padded V.length).Shares V stop stop' q := by
  refine ⟨hp.current_eq.trans hq.current_eq.symm, hp.peek_eq.trans hq.peek_eq.symm, ⟨ts, hp.free_drop, ?_, hq.source_eq⟩,
    hlimit, hdepth, hcalm, hcalm', hdiagnostics⟩
  show p.source.padded V.length = _
  rw [hp.source_eq]
  rfl

/-- The ends put behind are told from the tokens before them, so `V` is behind just these. -/
theorem Shares.sees {r : Parser} {t u : Token} (h : r.Shares V stop stop' q) (htwins : p.Twins r)
    (hp : p.Reads stop (t :: u :: ts)) : q.Sees stop' (t :: u :: ts ++ V) := by
  obtain ⟨us, hfree, hleft, hright⟩ := h.source_eq
  have heq : us = ts := by
    refine @eq_of_getElem?_getD _ (Token.eof stop) us ts (fun h => hfree _ h rfl) (fun h => hp.free_drop _ h rfl)
      fun k => ?_
    have hnext : p.source.nth k = r.source.nth k := htwins.ahead_eq (k + 2)
    rw [hp.source_eq, hleft, TokenSource.nth_buffer, TokenSource.nth_buffer, getElem?_append_replicate_getD] at hnext
    exact hnext.symm
  refine ⟨?_, ?_, ?_⟩
  · exact (htwins.current_eq.trans h.current_eq).symm.trans hp.current_eq
  · exact (htwins.peek_eq.trans h.peek_eq).symm.trans hp.peek_eq
  · rw [hright, heq]
    rfl

end Parser

namespace Parse

open FrontEnd.Parser (Shares Stuck)

theorem locked_shares : Locked (Shares V stop stop') Stuck where
  current_eq _ _ h := h.current_eq
  peek_eq _ _ h := h.peek_eq
  left_eq _ _ h := h.left_eq
  advance _ _ h := h.advance
  report d _ _ _ h := h.report d
  advance_left p _ h := h.imp (fun h => (h.mono (Nat.le_succ 1)).advance) p.grows_advance.tooDeep
  advance_right _ _ h := h
  report_left d _ p _ h := h.imp (fun h => h.report d) (p.grows_report d).tooDeep
  report_right _ _ _ _ h := h

theorem sim_shares_descend : Sim (Shares V stop stop') Stuck (fun _ => True) descend descend where
  run p q h := by
    have hd := h.depth_eq
    have hl := h.limit_eq
    rcases descend_cases p with ⟨ho, -⟩ | ⟨-, hlt, hxp⟩ | ⟨-, hle, hxp⟩
    · exact absurd (ho.symm.trans h.calm_left) (by decide)
    · rcases descend_cases q with ⟨ho, -⟩ | ⟨-, -, hxq⟩ | ⟨-, hle, -⟩
      · exact absurd (ho.symm.trans h.calm_right) (by decide)
      · rw [hxp, hxq]
        exact .inl ⟨rfl, fun _ _ => trivial, h.deeper⟩
      · omega
    · rw [hxp]
      exact .inr (.inr p.tooDeep_gaveUp)
  left p _ h := by
    rcases descend_cases p with ⟨-, hx⟩ | ⟨-, -, hx⟩ | ⟨-, -, hx⟩ <;> rw [hx]
    · exact h
    · exact h.imp id p.grows_deeper.tooDeep
    · exact h.imp id p.grows_gaveUp.tooDeep
  right _ _ h := h

theorem sim_shares_nested {x y : Parse Expr} (h : Sim (Shares V stop stop') Stuck (fun _ => True) x y) :
    Sim (Shares V stop stop') Stuck (fun _ => True) (nested x) (nested y) := by
  have hstuck : ∀ p q : Parser, p.Stuck q → ∀ depth, (p.unwind depth).Stuck q :=
    fun p _ h depth => h.imp (fun h => h.unwind depth) (p.grows_unwind depth).tooDeep
  refine ⟨fun p q hpq => ?_, fun p q hpq => hstuck _ q (h.left p q hpq) p.depth, fun _ _ h => h⟩
  rcases h.run p q hpq with ⟨heq, hV, hpq'⟩ | hpq'
  · refine .inl ⟨heq, hV, ?_⟩
    show ((x p).2.unwind p.depth).Shares V stop stop' ((y q).2.unwind q.depth)
    rw [hpq.depth_eq]
    exact hpq'.unwind q.depth
  · exact .inr (hstuck _ _ hpq' p.depth)

theorem sim_shares_expr (power : BindingPower) :
    Sim (Shares V stop stop') Stuck (fun _ => True) (expr power) (expr power) :=
  Sim.expr locked_shares sim_shares_descend (fun _ _ => sim_shares_nested) (fun _ _ h => h.limit_eq) power

/-- An expression that is left before the end of its tokens does not look at what else might come behind them. -/
theorem expr_eq_of_reads {t u v w : Token} (power : BindingPower) (hp : p.Reads stop (t :: u :: ts))
    (hq : q.Sees stop' (t :: u :: ts ++ V)) (hlimit : p.limit = q.limit) (hdepth : p.depth = q.depth)
    (hcalm : p.overflowed = false) (hcalm' : q.overflowed = false) (hdiagnostics : p.diagnostics = q.diagnostics)
    (hafter : (expr power p).2.Reads stop (v :: w :: us)) (hfits : ¬(expr power p).2.TooDeep) :
    (expr power q).1 = (expr power p).1 ∧ (expr power q).2.Sees stop' (v :: w :: us ++ V) ∧
      (expr power q).2.diagnostics = (expr power p).2.diagnostics := by
  -- With ends put behind its tokens, the run on the left has as many of them as the other, and goes as it went.
  obtain ⟨hvalue, htwins⟩ := (Steady.expr power).twins _ _ (p.twins_padded V.length)
  have hshares := hp.shares hq hlimit hdepth hcalm hcalm' hdiagnostics
  rcases (sim_shares_expr power).run _ q hshares with ⟨heq, -, hshared⟩ | hends | hdeep
  · exact ⟨(hvalue.trans heq).symm, hshared.sees htwins hafter,
      (htwins.diagnostics_eq.trans hshared.diagnostics_eq).symm⟩
  · have heof := (htwins.endsWithin hends).peek_kind
    rw [hafter.peek_kind] at heof
    exact absurd heof (hafter.free w (List.mem_cons_of_mem _ List.mem_cons_self))
  · exact absurd ((Parser.tooDeep_congr htwins.diagnostics_eq).mpr hdeep) hfits

end Parse

end FrontEnd
