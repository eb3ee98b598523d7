import FrontEnd.Proofs.Parser.Turn

/-!
What runs without a report go on to fold onto a phrase that they have come through.
-/

namespace FrontEnd

open Grammar

namespace Parse

variable {limit n : Nat} {stop : Position} {p : Parser} {ts us : List Token}

/-- A loop that comes through the first rounds goes on from there. -/
theorem repeatWithin_onward {σ : Type} {I : Parser → Prop} {more : Parser → Bool} {step : σ → Parse σ}
    {M : List Token → Prop} {G H : σ → List Token → σ → List Token → Prop} {μ : List Token → Nat}
    (hmore : ∀ (p : Parser) ts, p.Sees stop ts → (more p = true ↔ M ts))
    (hcomplete : ∀ s, Describes .complete I stop (step s) (Phrase (G s)))
    (hsound : ∀ s, Describes .sound I stop (step s) (Phrase (H s)))
    (hG : ∀ s ts s' us, M ts → G s ts s' us → μ us < μ ts) (hH : ∀ s ts s' us, M ts → H s ts s' us → μ us < μ ts)
    (h0 : ∀ ts, μ ts = 0 → ¬M ts) (hp : I p) (ho : p.overflowed = false) (hr : p.Reads stop ts) (hn : μ ts ≤ n)
    {s s' : σ} (hrounds : Rounds M G s ts s' us)
    (hquiet : (repeatWithin more step n s p).2.diagnostics = p.diagnostics)
    (hfits : ¬(repeatWithin more step n s p).2.TooDeep) :
    ∃ s'' ws, (repeatWithin more step n s p).1 = some s'' ∧ (repeatWithin more step n s p).2.Reads stop ws ∧
      Repeats M H s' us s'' ws := by
  rcases Describes.repeatWithin_rounds hmore hcomplete hG rfl n p hp ho hr.sees hn hrounds with
    hdeep | ⟨m, q, heq, hq, hcalm, hsuffix, hus, hm, hd⟩
  · exact absurd hdeep hfits
  · rw [heq, ← hd] at hquiet
    rw [heq]
    obtain ⟨ws, hsuffix', hws, hphrase⟩ :=
      Describes.repeatWithin_sound hmore hsound hH h0 rfl m s' q us hq hcalm hus hm hquiet
    have hws := hr.of_suffix hws (hsuffix'.trans hsuffix)
    cases hout : (repeatWithin more step m s' q).1 with
    | none => exact (hout ▸ hphrase : Phrase (Repeats M H s') us none ws).elim
    | some s'' => exact ⟨s'', ws, rfl, hws, (hout ▸ hphrase : Phrase (Repeats M H s') us (some s'') ws)⟩

variable {E : List Token → Expr → Prop} {sub : SubExpr} {power : BindingPower} {e : Expr}

theorem chain_onward (hlevel : ∀ ts e, E ts e ↔ Level E levels ts e)
    (hsub : ∀ dir (power : BindingPower), power.rank ≤ 5 → Describes dir (Parser.Ready limit n) stop (sub power)
      (Phrase (Spans (Level E (levels.drop power.rank)) (Follow dir power))))
    (hp : p.Ready limit n) (ho : p.overflowed = false) (hr : p.Reads stop ts) (hreaches : Reaches power E ts e us)
    (hquiet : (chain sub power p).2.diagnostics = p.diagnostics) (hfits : ¬p.TooDeep) :
    ∃ e' ws, (chain sub power p).1 = some e' ∧ (chain sub power p).2.Reads stop ws ∧
      Repeats (Tighter power) (FoldSpan .sound E) e us e' ws := by
  obtain ⟨left, vs, hspan, hrounds⟩ := hreaches
  have hbegins : Begins E := fun ts e h => level_begins ts e ((hlevel ts e).mp h)
  have hdone : ¬(chain sub power p).2.TooDeep := mt (Parser.tooDeep_congr hquiet).mp hfits
  have hoperand := Describes.operand (stable_ready limit n) hbegins (Describes.lowest (hsub .complete) hlevel)
    (Describes.tightest (hsub .complete))
  have hkeeps := hoperand.keeps p hp
  have hgrows := hoperand.grows p
  have hread := hoperand.complete rfl p ts (some left) vs hp ho hr hspan
  have hcalls := fun dir => Describes.fold (hsub dir) hlevel
  have hμ : ∀ dir (s : Expr) (ts : List Token) (s' : Expr) us, Tighter power ts → FoldSpan dir E s ts s' us →
      us.tail.length + 1 < ts.tail.length + 1 :=
    fun dir s ts s' us hnext h => Nat.succ_lt_succ (foldSpan_length_lt hnext h)
  unfold chain at hquiet hdone ⊢
  rw [bind_apply] at hquiet hdone ⊢
  rcases hx : operand sub p with ⟨_ | left', q⟩
  · rw [hx] at hread hdone
    rcases hread with hdeep | ⟨hnone, -, -⟩
    · exact absurd hdeep hdone
    · exact nomatch hnone
  · rw [hx] at hkeeps hgrows hread hquiet hdone
    have hgo : q.Grows (repeatWithin (bindsTighter power) (fold sub) q.left left' q).2 :=
      Describes.repeatWithin_grows (hcalls .sound) q.left left' q
    rcases hread with hdeep | ⟨hleft, hvs, hd⟩
    · exact absurd (hgo.tooDeep hdeep) hdone
    · obtain rfl := Option.some.inj hleft
      exact repeatWithin_onward (μ := fun ts => ts.tail.length + 1) (bindsTighter_iff power) (hcalls .complete)
        (hcalls .sound) (hμ .complete) (hμ .sound) (fun ts h => absurd h (Nat.succ_ne_zero _)) hkeeps
        (hgrows.calm ho hd) hvs hvs.tail_length_lt_left hrounds (hquiet.trans hd.symm) hdone

/-- An expression that comes through a phrase without a report folds onto it what binds tighter behind it. -/
theorem expr_onward (hpower : power.rank ≤ 5) (hp : p.Ready limit (limit + 1)) (ho : p.overflowed = false)
    (hr : p.Reads stop ts) (hreaches : Reaches power Expression ts e us)
    (hquiet : (expr power p).2.diagnostics = p.diagnostics) (hfits : ¬p.TooDeep) :
    ∃ e' ws, (expr power p).1 = some e' ∧ (expr power p).2.Reads stop ws ∧
      Repeats (Tighter power) (FoldSpan .sound Expression) e us e' ws := by
  have hsub : ∀ dir (power : BindingPower), power.rank ≤ 5 → Describes dir (Parser.Ready limit limit) stop
      (exprWithin (fun _ => fail) limit power)
      (Phrase (Spans (Level Expression (levels.drop power.rank)) (Follow dir power))) :=
    fun dir power hpower => Describes.exprWithin expression_iff fun _ => hpower
  have hexpr : expr power p = exprStep (exprWithin (fun _ => fail) limit) power p := by
    unfold expr
    rw [hp.limit_eq, exprWithin]
  rw [hexpr] at hquiet ⊢
  rcases exprStep_cases (exprWithin (fun _ => fail) limit) power p with ⟨ho', -⟩ | ⟨-, hlt, h⟩ | ⟨-, -, h⟩
  · exact absurd (ho.symm.trans ho') (by decide)
  · rw [h] at hquiet ⊢
    rw [Parser.unwind_diagnostics] at hquiet
    have hready : p.deeper.Ready limit limit := by
      refine ⟨hp.limit_eq, ?_, fun _ => hlt⟩
      have hroom := hp.room
      show limit < p.depth + 1 + limit
      omega
    obtain ⟨e', ws, he', hws, hrepeats⟩ :=
      chain_onward expression_iff hsub hready ho hr.deeper hreaches hquiet hfits
    have hgrows := (Describes.chain (hsub .sound) expression_iff fun _ => hpower).grows p.deeper
    refine ⟨e', ws, he', ?_, hrepeats⟩
    rw [Parser.unwind_of_calm _ (hgrows.calm ho hquiet)]
    exact ⟨hws.current_eq, hws.peek_eq, hws.source_eq, hws.free⟩
  · rw [h, Parser.unwind_diagnostics] at hquiet
    exact absurd hquiet p.diagnostics_gaveUp_ne

theorem atSemicolon_diagnostics (p : Parser) : (atSemicolon p).diagnostics = p.diagnostics := by
  unfold atSemicolon
  split <;> rfl

/-- A statement that begins with a phrase is that phrase, with what is folded onto it. -/
theorem turn_onward {A B : List Token} (hp : p.Opening limit) (hr : p.Reads stop (A ++ B)) (h : Applied Expression A e)
    (hif : headKind A ≠ .ifWord) (hquiet : p.turn.2.diagnostics = p.diagnostics) (hfits : ¬p.TooDeep) :
    ∃ e' t us, p.turn.1 = some (.expr p.current e') ∧
      Repeats (Tighter .lowest) (FoldSpan .sound Expression) e (t :: B) e' us ∧
      (headKind us.tail ≠ .semicolon → p.turn.2.Reads stop us.tail) := by
  have hbegins : Begins (Applied Expression) := fun _ _ => operand?_of_applied
  have hform : p.current.kind.statement? = none :=
    hr.current_kind ▸ Kind.statement?_eq_none (hbegins.headKind_append h B)
  have hpower : BindingPower.lowest.rank ≤ 5 := by decide
  obtain ⟨vs, t, rfl, hreaches⟩ := reaches_of_applied hpower h
  have hheaded : Headed p := fun hbind => nomatch hform.symm.trans hbind
  have hturn := turn_eq hheaded
  have hstart : valueStart p = p := by
    unfold valueStart
    rw [hform]
  rw [hstart] at hturn
  rw [hturn] at hquiet ⊢
  have hquiet' : (expr .lowest p).2.diagnostics = p.diagnostics := (atSemicolon_diagnostics _).symm.trans hquiet
  obtain ⟨e', us, he', hus, hrepeats⟩ := expr_onward hpower hp.ready hp.calm hr
    (hreaches B fun hkind => absurd hkind hif) hquiet' hfits
  refine ⟨e', t, us, ?_, hrepeats, fun hsemicolon => ?_⟩
  · unfold conclude
    rw [hform, he']
    rfl
  · have hstay : atSemicolon (expr .lowest p).2 = (expr .lowest p).2 := by
      unfold atSemicolon
      rw [hus.peek_kind, if_neg hsemicolon]
    rw [hstay]
    exact hus.advance

end Parse

end FrontEnd
