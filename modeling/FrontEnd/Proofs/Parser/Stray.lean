import FrontEnd.Proofs.Parser.Boundary
import FrontEnd.Proofs.Parser.Brace

/-!
Tokens that begin neither an operand nor a statement, where a statement should begin: each is reported and passed over
by itself, and what is around it is parsed as it would be without it.
-/

namespace FrontEnd

/-- What is reported of a token that begins no operand. -/
def Token.unusable (t : Token) : Diagnostic :=
  ⟨.noOperand t.kind t.value, t.span.start⟩

variable {p : Parser} {limit : Nat} {stop : Position} {ts : List Token}

theorem Parse.chain_of_no_operand (sub : SubExpr) (power : BindingPower) (h : p.current.kind.operand? = none) :
    Parse.chain sub power p = (none, p.report p.current.unusable) := by
  have hcurrent : Parse.current p = (some p.current, p) := rfl
  have hoperand : Parse.operand sub p = (none, p.report p.current.unusable) := by
    unfold operand
    rw [bind_apply, hcurrent]
    simp only [h]
    rfl
  unfold chain
  rw [bind_apply, hoperand]

namespace Parser

/-- Where an expression has room but does not begin, a statement ends on the token that it begins on. -/
theorem Sees.turn_stray {k : Token} (hsees : p.Sees stop (k :: ts)) (hp : p.Opening limit) (hlimit : 0 < limit)
    (hoperand : k.kind.operand? = none) (hstatement : k.kind.statement? = none)
    (hnext : ∀ t ∈ ts.head?, t.kind ≠ .semicolon) :
    p.turn.1 = none ∧ p.turn.2.Sees stop ts ∧ p.turn.2.diagnostics = p.diagnostics.push k.unusable := by
  obtain rfl : p.current = k := hsees.current_eq
  have hstart : Parse.valueStart p = p := by simp only [Parse.valueStart, hstatement]
  have hheaded : Parse.Headed p := fun hform => nomatch hstatement.symm.trans hform
  -- The expression is a level down for a moment, and leaves the token where it is.
  obtain ⟨q, hvalue, hstays, hreported⟩ : ∃ q, Parse.expr .lowest p = (none, q) ∧ q.Sees stop (p.current :: ts) ∧
      q.diagnostics = p.diagnostics.push p.current.unusable := by
    have hcalm : (p.deeper.report p.current.unusable).overflowed = false :=
      (report_overflowed _ _).trans hp.calm
    have hchain : Parse.chain (Parse.exprWithin (fun _ => Parse.fail) limit) .lowest p.deeper =
        (none, p.deeper.report p.current.unusable) := Parse.chain_of_no_operand _ _ hoperand
    refine ⟨(p.deeper.report p.current.unusable).unwind 0, ?_, ?_, ?_⟩
    · rw [Parse.expr_of_opening .lowest hlimit hp, hchain]
    · rw [unwind_of_calm 0 hcalm]
      exact ((hsees.of_window rfl rfl rfl : p.deeper.Sees stop _).report _).of_window rfl rfl rfl
    · rw [unwind_diagnostics, report_of_calm _ (p := p.deeper) hp.calm]
      rfl
  have hpeek : q.peek.kind ≠ .semicolon := by
    rw [hstays.peek_kind]
    cases ts with
    | nil => exact fun hnil => nomatch hnil
    | cons t ts => exact hnext t rfl
  rw [Parse.turn_eq hheaded, hstart, hvalue]
  refine ⟨?_, ?_, ?_⟩
  · simp only [Parse.conclude, hstatement, Option.map_none]
  · dsimp only
    rw [Parse.atSemicolon, if_neg hpeek]
    exact hstays.advance
  · exact (Parse.atSemicolon_spec q).1.trans hreported

end Parser

variable {T₁ T₂ : List Token} {k : Token} {limit : Nat}

/-- A statement more in front, of which there is only a report. -/
theorem parseWithin_stray (hlimit : 0 < limit) (hk : k.kind ≠ .eof) (hoperand : k.kind.operand? = none)
    (hstatement : k.kind.statement? = none) (hT₂ : ∀ t ∈ T₂.head?, t.kind ≠ .semicolon) :
    parseWithin limit (k :: T₂) = ((parseWithin limit T₂).1, k.unusable :: (parseWithin limit T₂).2) := by
  have hp := Parser.sees_withLimit limit (k :: T₂)
  have hopening := Parser.opening_withLimit limit (.buffer (TokenBuffer.ofList (k :: T₂)))
  have hstop : T₂ ≠ [] → (TokenBuffer.ofList T₂).stop = (TokenBuffer.ofList (k :: T₂)).stop :=
    fun hne => (stop_ofList_append [k] hne).symm
  obtain ⟨n, hn⟩ := Nat.exists_eq_add_of_le' (Nat.zero_lt_of_lt hp.tail_length_lt_left)
  have hlength : T₂.length ≤ n := Nat.le_of_lt_succ (Nat.lt_of_lt_of_eq hp.tail_length_lt_left hn)
  have hbegun : (Parser.withLimit limit (.buffer (TokenBuffer.ofList (k :: T₂)))).current.kind ≠ .eof := hk
  obtain ⟨hnone, hafter, hreported⟩ := hp.turn_stray hopening hlimit hoperand hstatement hT₂
  obtain ⟨hstatements, hdiagnostics⟩ := rounds_eq_parseWithin hopening.turn hafter hstop hlength
  rw [parseWithin_eq limit (k :: T₂)]
  unfold starts
  dsimp only
  rw [hn, Parser.startsWithin_of_ne_eof hbegun, Parser.finishWithin_of_ne_eof hbegun, List.filterMap_cons, hnone,
    hdiagnostics, hreported]
  exact Prod.ext (congrArg Program.mk hstatements) rfl

/-- Where a statement should begin, a token that begins none is reported alone, and passed over. What is before it is
parsed as if the tokens ended there, and what is behind it as if they began there. -/
theorem parseTokens_stray (hfree : ∀ t ∈ T₁, t.kind ≠ .eof) (hend : EndsClosed T₁) (hquiet : (parseTokens T₁).2 = [])
    (hk : k.kind ≠ .eof) (hoperand : k.kind.operand? = none) (hstatement : k.kind.statement? = none)
    (hT₂ : ∀ t ∈ T₂.head?, t.kind ≠ .semicolon) :
    parseTokens (T₁ ++ [k] ++ T₂) =
      (⟨(parseTokens T₁).1.statements ++ (parseTokens T₂).1.statements⟩,
        ⟨.noOperand k.kind k.value, k.span.start⟩ :: (parseTokens T₂).2) := by
  have hstray : parseWithin maxNestingDepth (k :: T₂) = _ := parseWithin_stray (by decide) hk hoperand hstatement hT₂
  rw [List.append_assoc]
  rcases List.eq_nil_or_concat' T₁ with rfl | ⟨us, semicolon, rfl⟩
  · exact hstray
  · rw [parseTokens_eq] at hquiet ⊢
    have hsemicolon : semicolon.kind = .semicolon := hend semicolon List.getLast?_concat
    have hfree' : ∀ t ∈ us, t.kind ≠ .eof := fun t ht => hfree t (List.mem_append_left _ ht)
    rw [parseWithin_append hfree' hsemicolon hquiet, List.singleton_append, hstray]
    rfl

theorem parseTokens_stray_unopened : (∀ t ∈ identityBinding, t.kind ≠ .eof) ∧ EndsClosed identityBinding ∧
    (parseTokens identityBinding).2 = [] ∧ Kind.star ≠ .eof ∧ Kind.star.operand? = none ∧
    Kind.star.statement? = none ∧ (∀ t ∈ unopened.head?, t.kind ≠ .semicolon) ∧ (parseTokens unopened).2 ≠ [] ∧
    parseTokens (identityBinding ++ [.loose .star "*"] ++ unopened) =
      (⟨(parseTokens identityBinding).1.statements ++ (parseTokens unopened).1.statements⟩,
        ⟨.noOperand .star "*", Position.null⟩ :: (parseTokens unopened).2) := by
  have hfree : ∀ t ∈ identityBinding, t.kind ≠ .eof := by decide
  have hend : EndsClosed identityBinding := endsClosed_concat identityBinding.dropLast rfl
  have hquiet : (parseTokens identityBinding).2 = [] := by decide
  have hnext : ∀ t ∈ unopened.head?, t.kind ≠ .semicolon := by decide
  have hreported : (parseTokens unopened).2 ≠ [] := by decide
  exact ⟨hfree, hend, hquiet, by decide, rfl, rfl, hnext, hreported,
    parseTokens_stray hfree hend hquiet (by decide) rfl rfl hnext⟩

end FrontEnd
