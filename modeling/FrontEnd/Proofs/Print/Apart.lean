import FrontEnd.Proofs.Parser.Onward
import FrontEnd.Proofs.Print.Statement

/-!
Where a printed statement runs into the next one, another statement is read in its place.
-/

namespace FrontEnd

open Grammar Parse

/-! What is folded onto an expression is printed longer -/

section Length

variable {dir : Direction} {E : List Token → Expr → Prop} {power : BindingPower} {left e : Expr} {ts us : List Token}

theorem Expr.OnTopOf.length_print_lt {Q : Expr → Prop} (h : OnTopOf left Q e) :
    left.print.length < e.print.length := by
  have hparen : "(".length = 1 := rfl
  cases e with
  | binary _ _ _ _ =>
    obtain ⟨rfl, -⟩ := h
    simp only [Expr.print, String.length_append]
    omega
  | call _ _ _ =>
    obtain ⟨rfl, -⟩ := h
    simp only [Expr.print, String.length_append]
    omega
  | index _ _ _ =>
    obtain ⟨rfl, -⟩ := h
    simp only [Expr.print, String.length_append]
    omega
  | _ => exact h.elim

theorem onTopOf_of_foldSpan (hnext : Tighter power ts) (h : FoldSpan dir E left ts e us) :
    Expr.OnTopOf left (fun _ => True) e := by
  obtain ⟨⟨q, form⟩, hop, -⟩ := hnext
  have hform := (foldSpan_iff hop).mp h
  cases form with
  | binary =>
    obtain ⟨t, vs, r, -, -, rfl⟩ := hform
    exact ⟨rfl, trivial⟩
  | call =>
    obtain ⟨t, es, -, rfl⟩ := hform
    exact ⟨rfl, fun _ _ => trivial⟩
  | index =>
    obtain ⟨t, i, -, rfl⟩ := hform
    exact ⟨rfl, trivial⟩

theorem length_print_le_of_repeats (h : Repeats (Tighter power) (FoldSpan dir E) left ts e us) :
    left.print.length ≤ e.print.length ∧ (Tighter power ts → left.print.length < e.print.length) := by
  induction h with
  | done hdone => exact ⟨Nat.le_refl _, fun hnext => absurd hnext hdone⟩
  | step hnext hfold _ ih =>
    have hlt := (onTopOf_of_foldSpan hnext hfold).length_print_lt
    exact ⟨Nat.le_trans (Nat.le_of_lt hlt) ih.1, fun _ => Nat.lt_of_lt_of_le hlt ih.1⟩

end Length

/-! The first lexeme of a text -/

section Lexing

variable {cs : List Char} {c : Char} {k : Kind} {ms : List Lexeme} {e : Expr}

theorem exists_lexes (cs : List Char) : ∃ ls, Lexes cs ls := by
  obtain ⟨T, -, -, -, h, -⟩ := (Lexer.ofString (String.ofList cs) none).exists_tokens
  have hrest : (Lexer.ofString (String.ofList cs) none).rest = cs := String.toList_ofList
  rw [hrest] at h
  exact ⟨_, h⟩

theorem Lexes.eq_cons {rule : Rule} {n : Nat} {lexeme : Lexeme} (h : Lexes cs ms) (hr : Rule.first? cs = some (rule, n))
    (ht : rule.token? (cs.take n) = some lexeme) : ∃ ls, ms = lexeme :: ls := by
  obtain ⟨ls, hrest⟩ := exists_lexes (cs.drop n)
  exact ⟨ls, h.unique (.token hr ht hrest)⟩

/-- Kinds of words and numbers. -/
def Kind.Wordlike (k : Kind) : Prop :=
  k = .number ∨ k = .identifier ∨ k ∈ Kind.keywords

theorem keyword?_getD (w : List Char) : (Kind.keyword? w).getD .identifier = .identifier ∨
    (Kind.keyword? w).getD .identifier ∈ Kind.keywords := by
  cases hk : Kind.keyword? w with
  | none => exact .inl rfl
  | some k => exact .inr (keyword?_of_some hk).1

/-- The first character of a text tells the kind of its first token, except that a word may turn out to be reserved. -/
theorem Lexes.exists_kind (h : Lexes (c :: cs) ms) (hopens : Opens c k) : ∃ k' value ls, ms = (k', value) :: ls ∧
    (k' = k ∨ isWordStart c = true ∧ (k' = .identifier ∨ k' ∈ Kind.keywords)) := by
  have hsymbol : ∀ k' : Kind, k' ∈ Kind.symbols → (k' ≠ .assign ∧ k' ≠ .bang ∧ k' ≠ .slash) →
      k'.spelling = [c] → ∃ value ls, ms = (k', value) :: ls := by
    intro k' hk hsingle hspelling
    obtain ⟨ls, hrest⟩ := exists_lexes cs
    have hlexes := hrest.single hk hsingle
    rw [hspelling] at hlexes
    exact ⟨_, ls, h.unique hlexes⟩
  rcases hopens with ⟨rfl, rfl⟩ | ⟨rfl, rfl⟩ | ⟨rfl, rfl⟩ | ⟨rfl, rfl⟩ | ⟨hc, rfl⟩ | ⟨hc, -⟩
  · obtain ⟨value, ls, rfl⟩ := hsymbol .openParen (by decide) (by decide) rfl
    exact ⟨_, value, ls, rfl, .inl rfl⟩
  · obtain ⟨value, ls, rfl⟩ := hsymbol .openBracket (by decide) (by decide) rfl
    exact ⟨_, value, ls, rfl, .inl rfl⟩
  · obtain ⟨value, ls, rfl⟩ := hsymbol .openCurly (by decide) (by decide) rfl
    exact ⟨_, value, ls, rfl, .inl rfl⟩
  · obtain ⟨ls, rfl⟩ := h.eq_cons Rule.first?_string rfl
    exact ⟨_, _, ls, rfl, .inl rfl⟩
  · obtain ⟨ls, rfl⟩ := h.eq_cons (Rule.first?_number hc) rfl
    exact ⟨_, _, ls, rfl, .inl rfl⟩
  · obtain ⟨ls, rfl⟩ := h.eq_cons (Rule.first?_word hc) rfl
    exact ⟨_, _, ls, rfl, .inr ⟨hc, keyword?_getD _⟩⟩

theorem length_lt_takeWhile {p : Char → Bool} {run : List Char} (hrun : ∀ d ∈ run, p d = true) (hc : p c = true) :
    run.length < ((run ++ c :: cs).takeWhile p).length := by
  rw [List.takeWhile_append_of_pos hrun, List.takeWhile_cons, if_pos hc, List.length_append, List.length_cons]
  omega

theorem take_succ_takeWhile {p : Char → Bool} (d : Char) :
    (d :: cs).take (1 + (cs.takeWhile p).length) = d :: cs.takeWhile p := by
  rw [Nat.add_comm, List.take_succ_cons, take_takeWhile]

/-- A word that goes on is lexed into a longer one. -/
theorem Lexes.longer_word {w : List Char} (h : Lexes (w ++ c :: cs) ms) (hw : IsWord w) (hc : isWordPart c = true) :
    ∃ k value ls, ms = (k, value) :: ls ∧ k.Wordlike ∧ w.length < value.length := by
  cases w with
  | nil => exact hw.elim
  | cons d ds =>
    rw [List.cons_append] at h
    obtain ⟨ls, rfl⟩ := h.eq_cons (Rule.first?_word hw.1) rfl
    refine ⟨_, _, ls, rfl, .inr (keyword?_getD _), ?_⟩
    rw [take_succ_takeWhile, String.length_ofList]
    exact Nat.succ_lt_succ (length_lt_takeWhile hw.2 hc)

theorem Lexes.longer_number {w : List Char} (h : Lexes (w ++ c :: cs) ms) (hne : w ≠ [])
    (hw : ∀ d ∈ w, d.isDigit = true) (hc : c.isDigit = true) :
    ∃ k value ls, ms = (k, value) :: ls ∧ k.Wordlike ∧ w.length < value.length := by
  cases w with
  | nil => exact absurd rfl hne
  | cons d ds =>
    obtain ⟨hd, hds⟩ := List.forall_mem_cons.mp hw
    rw [List.cons_append] at h
    obtain ⟨ls, rfl⟩ := h.eq_cons (Rule.first?_number hd) rfl
    refine ⟨_, _, ls, rfl, .inl rfl, ?_⟩
    rw [take_succ_takeWhile, String.length_ofList]
    exact Nat.succ_lt_succ (length_lt_takeWhile hds hc)

/-- What absorbs the next character is lexed into a longer token. -/
theorem Expr.Legible.longer (he : e.Legible) (habsorbs : e.absorbs c = true)
    (h : Lexes (e.print.toList ++ c :: cs) ms) :
    ∃ k value ls, ms = (k, value) :: ls ∧ k.Wordlike ∧ e.print.length < value.length := by
  rw [← String.length_toList]
  cases he with
  | atom hgenuine hatom =>
    cases hatom with
    | ident hk => exact h.longer_word (Token.isName hgenuine hk).1 habsorbs
    | int hk _ =>
      obtain ⟨hne, hdigits⟩ := Token.isNumeral hgenuine hk
      exact h.longer_number hne hdigits habsorbs
    | str _ => exact nomatch habsorbs
    | trueWord hk =>
      refine h.longer_word ?_ habsorbs
      rw [Expr.print, Token.toList_value hgenuine hk (.inr (by decide))]
      exact ⟨by decide, List.all_eq_true.mp (by decide)⟩
    | falseWord hk =>
      refine h.longer_word ?_ habsorbs
      rw [Expr.print, Token.toList_value hgenuine hk (.inr (by decide))]
      exact ⟨by decide, List.all_eq_true.mp (by decide)⟩
  | unary _ _ _ | binary _ _ _ _ | call _ _ _ _ | array _ _ _ | index _ _ _ _ | hash _ _ _ _ => exact nomatch habsorbs

end Lexing

/-! A word or a number at the head of a phrase is printed at the head of its tree -/

namespace Grammar

variable {E : List Token → Expr → Prop} {ts : List Token} {t : Token} {e : Expr}

theorem Primary.length_value_le (h : Primary E ts e) (ht : ts.head? = some t) (hgenuine : t.lexeme.Genuine)
    (hk : t.kind.Wordlike) : t.value.length ≤ e.print.length := by
  have hno : ∀ {k : Kind}, t.kind = k → ¬k.Wordlike → t.value.length ≤ e.print.length :=
    fun heq hword => absurd (heq ▸ hk) hword
  cases h with
  | atom h =>
    obtain rfl := Option.some.inj ht
    cases h with
    | ident _ | int _ _ | trueWord _ | falseWord _ => exact Nat.le_refl _
    | str hkind => exact hno hkind (by unfold Kind.Wordlike; decide)
  | group hkind _ _ | array hkind _ _ | hash hkind _ _ =>
    obtain rfl := Option.some.inj ht
    exact hno hkind (by unfold Kind.Wordlike; decide)
  | cond hkind _ _ _ _ _ =>
    obtain rfl := Option.some.inj ht
    have hvalue := Token.toList_value hgenuine hkind (.inr (by decide))
    have htwo : "if".length = Kind.ifWord.spelling.length := rfl
    rw [← String.length_toList, hvalue]
    simp only [Expr.print, String.length_append]
    omega
  | fn _ _ _ _ _ =>
    obtain rfl := Option.some.inj ht
    simp only [Expr.print, String.length_append]
    omega

theorem Applied.length_value_le (h : Applied E ts e) (ht : ts.head? = some t) (hgenuine : t.lexeme.Genuine)
    (hk : t.kind.Wordlike) : t.value.length ≤ e.print.length := by
  have hbegins : Begins (Applied E) := fun _ _ => operand?_of_applied
  induction h with
  | primary h => exact h.length_value_le ht hgenuine hk
  | @call _ c left _ es _ hcallee _ _ _ ih =>
    rw [hbegins.head?_append hcallee] at ht
    have htop : Expr.OnTopOf c (fun _ => True) (.call left c es) := ⟨rfl, fun _ _ => trivial⟩
    exact Nat.le_trans (ih ht) (Nat.le_of_lt htop.length_print_lt)
  | @index _ c left _ i _ hcollection _ _ _ ih =>
    rw [hbegins.head?_append hcollection] at ht
    have htop : Expr.OnTopOf c (fun _ => True) (.index left c i) := ⟨rfl, trivial⟩
    exact Nat.le_trans (ih ht) (Nat.le_of_lt htop.length_print_lt)

theorem Level.length_value_le {ls : List (List Kind)} (h : Level E ls ts e) (ht : ts.head? = some t)
    (hgenuine : t.lexeme.Genuine) (hk : t.kind.Wordlike) : t.value.length ≤ e.print.length := by
  induction h with
  | unary h =>
    cases h with
    | applied h => exact h.length_value_le ht hgenuine hk
    | op hkind _ =>
      obtain rfl := Option.some.inj ht
      simp only [Expr.print, String.length_append]
      omega
  | tighter _ ih => exact ih ht
  | @op _ _ _ l op _ r hl _ _ ih _ =>
    rw [level_begins.head?_append hl] at ht
    have htop : Expr.OnTopOf l (fun _ => True) (.binary op l op.value r) := ⟨rfl, trivial⟩
    exact Nat.le_trans (ih ht) (Nat.le_of_lt htop.length_print_lt)

theorem Clause.length_value_le {s : Stmt} (h : Clause Expression ts s) (ht : ts.head? = some t)
    (hgenuine : t.lexeme.Genuine) (hk : t.kind.Wordlike) : t.value.length ≤ s.print.length := by
  cases h with
  | bind _ _ _ _ | ret _ _ =>
    obtain rfl := Option.some.inj ht
    simp only [Stmt.print, String.length_append]
    omega
  | expr h => exact ((expression_iff _ _).mp h).length_value_le ht hgenuine hk

end Grammar

/-! Turn by turn -/

section Turns

variable {limit n : Nat} {stop : Position} {p : Parser} {T : List Token} {c : Char} {cs : List Char} {k : Kind} {e : Expr}
  {s s₁ : Stmt}

theorem Opens.ne_ifWord (h : Opens c k) : k ≠ .ifWord := by
  rcases h with ⟨-, rfl⟩ | ⟨-, rfl⟩ | ⟨-, rfl⟩ | ⟨-, rfl⟩ | ⟨-, rfl⟩ | ⟨-, rfl | rfl | rfl⟩ <;> decide

/-- An expression that does not absorb what comes behind it is read back, and perhaps folded further. -/
theorem Expr.Legible.turn_onward (he : e.Legible) (hp : p.Opening limit) (hr : p.Reads stop T)
    (hlexes : Lexes (e.print.toList ++ cs) (T.map Token.lexeme)) (hnext : ∀ c ∈ cs.head?, e.absorbs c = false)
    (hquiet : p.turn.2.diagnostics = p.diagnostics) (hfits : ¬p.TooDeep) :
    ∃ e₀ e₁ t B us, Lexes cs (B.map Token.lexeme) ∧ e₀.print = e.print ∧ p.turn.1 = some (.expr p.current e₁) ∧
      Repeats (Tighter .lowest) (FoldSpan .sound Expression) e₀ (t :: B) e₁ us ∧
      (headKind us.tail ≠ .semicolon → p.turn.2.Reads stop us.tail) := by
  obtain ⟨ls, hls⟩ := exists_lexes cs
  obtain ⟨A, B, rfl, hA, hB⟩ := List.map_eq_append_iff.mp (hlexes.unique (he.lexes hls hnext))
  obtain ⟨e₀, happlied, heq⟩ := he.reads hA
  have hif : headKind A ≠ .ifWord := by
    obtain ⟨c, -, k, value, ms, -, hms, hopens⟩ := he.exists_opens
    obtain ⟨t, ts, rfl, ht, -⟩ := exists_of_map_lexeme_cons (hA.trans hms)
    rw [headKind_cons, Token.kind_eq ht]
    exact hopens.ne_ifWord
  obtain ⟨e₁, t, us, hturn, hrepeats, hreads⟩ := Parse.turn_onward hp hr happlied hif hquiet hfits
  exact ⟨e₀, e₁, t, B, us, hB ▸ hls, Expr.print_eq_of_unplaced_eq heq, hturn, hrepeats, hreads⟩

/-- What begins like an expression has no semicolon at its head, and an operator there if it begins with an opening
parenthesis or bracket. -/
theorem Opens.headKind (hc : Opens c k) (h : Lexes (c :: cs) (T.map Token.lexeme)) :
    FrontEnd.headKind T ≠ .semicolon ∧ (c = '(' ∨ c = '[' → (FrontEnd.headKind T).operator? ≠ none) := by
  obtain ⟨k', value, ls, hT, hk⟩ := h.exists_kind hc
  obtain ⟨t, ts, rfl, ht, -⟩ := exists_of_map_lexeme_cons hT
  rw [headKind_cons, Token.kind_eq ht]
  rcases hk with rfl | ⟨hword, hk⟩
  · rcases hc with ⟨-, rfl⟩ | ⟨-, rfl⟩ | ⟨rfl, rfl⟩ | ⟨rfl, rfl⟩ | ⟨hdigit, rfl⟩ | ⟨hword, rfl | rfl | rfl⟩
    · exact ⟨by decide, fun _ => by decide⟩
    · exact ⟨by decide, fun _ => by decide⟩
    · exact ⟨by decide, fun h => absurd h (by decide)⟩
    · exact ⟨by decide, fun h => absurd h (by decide)⟩
    · exact ⟨by decide, by rintro (rfl | rfl) <;> exact absurd hdigit (by decide)⟩
    all_goals exact ⟨by decide, by rintro (rfl | rfl) <;> exact absurd hword (by decide)⟩
  · refine ⟨?_, ?_⟩
    · rcases hk with rfl | hk
      · decide
      · rintro rfl
        exact absurd hk (by decide)
    · rintro (rfl | rfl) <;> exact absurd hword (by decide)

/-- A statement up to its semicolon is read back as it is. -/
theorem Stmt.Legible.turn_of_ended (hs : s.Legible) (hexpr : ∀ t e, s ≠ .expr t e) (hp : p.Opening limit)
    (hr : p.Reads stop T) (hlexes : Lexes (s.print.toList ++ cs) (T.map Token.lexeme))
    (hquiet : p.turn.2.diagnostics = p.diagnostics) (hfits : ¬p.TooDeep) :
    ∃ B, p.turn.2.Reads stop B ∧ Lexes cs (B.map Token.lexeme) := by
  have hnext : ∀ c ∈ cs.head?, s.continues c = false := by
    intro c _
    cases s with
    | expr t e => exact absurd rfl (hexpr t e)
    | bind _ _ _ | ret _ _ | block _ => rfl
  obtain ⟨ls, hls⟩ := exists_lexes cs
  obtain ⟨A, B, rfl, hA, hB⟩ := List.map_eq_append_iff.mp (hlexes.unique (hs.lexes hls hnext))
  obtain ⟨ts, us, s', rfl, hclause, -, ⟨semicolon, rfl, hsemicolon⟩ | ⟨-, t, e, heq⟩⟩ := hs.reads hA
  · have hsentence : Sentence .complete (Clause Expression) (ts ++ [semicolon] ++ B) s' (semicolon :: B) :=
      ⟨ts, semicolon :: B, by simp, hclause, .inl ⟨hsemicolon, rfl⟩⟩
    rcases (describes_stmt .complete limit stop).complete rfl p _ (some s') _ hp.ready hp.calm hr hsentence with
      hdeep | ⟨-, hreads, -⟩
    · exact absurd ((Parser.tooDeep_congr hquiet).mp hdeep) hfits
    · exact ⟨B, hreads.advance, hB ▸ hls⟩
  · exact absurd heq (hexpr t e)

/-- If the statement that is read prints like the one that was printed, nothing of what comes behind has gone into it. -/
theorem Stmt.Legible.apart_of_turn (hs : s.Legible) (hc : Opens c k) (hp : p.Opening limit) (hr : p.Reads stop T)
    (hlexes : Lexes (s.print.toList ++ c :: cs) (T.map Token.lexeme))
    (hquiet : p.turn.2.diagnostics = p.diagnostics) (hfits : ¬p.TooDeep) (hturn : p.turn.1 = some s₁)
    (hprint : s₁.print = s.print) :
    s.continues c = false ∧ ∃ B, p.turn.2.Reads stop B ∧ Lexes (c :: cs) (B.map Token.lexeme) := by
  cases s with
  | bind _ _ _ | ret _ _ | block _ =>
    exact ⟨rfl, hs.turn_of_ended (fun _ _ => Stmt.noConfusion) hp hr hlexes hquiet hfits⟩
  | expr token e =>
    have he : e.Legible := by cases hs; assumption
    cases habsorbs : e.absorbs c with
    | true =>
      obtain ⟨k', value, ls, hT, hword, hlt⟩ := he.longer habsorbs hlexes
      obtain ⟨t, ts, rfl, ht, -⟩ := exists_of_map_lexeme_cons hT
      obtain ⟨us, -, hsentence⟩ := (describes_stmt .sound limit stop).sound rfl p _ hp.ready hp.calm hr hquiet
      have hvalue : (Parse.stmt Parse.expr p).1 = some s₁ := hturn
      rw [hvalue] at hsentence
      obtain ⟨ws, rest, hts, hclause, -⟩ := hsentence
      obtain ⟨t', vs, rfl, -⟩ := clause_begins begins_expression hclause
      obtain rfl : t = t' := (List.cons.inj hts).1
      have hgenuine : t.lexeme.Genuine := hlexes.genuine _ List.mem_cons_self
      have hle := hclause.length_value_le rfl hgenuine (Token.kind_eq ht ▸ hword)
      have hvalue : t.value = value := congrArg Prod.snd ht
      have heq : s₁.print.length = e.print.length := congrArg String.length hprint
      rw [hvalue] at hle
      omega
    | false =>
      obtain ⟨e₀, e₁, t, B, us, hB, heq, hturn', hrepeats, hreads⟩ := he.turn_onward hp hr hlexes
        (forall_head?_cons habsorbs) hquiet hfits
      obtain rfl := Option.some.inj (hturn.symm.trans hturn')
      have hstay : ¬Tighter .lowest (t :: B) := by
        intro hnext
        have hlt := (length_print_le_of_repeats hrepeats).2 hnext
        have hlength : e₁.print.length = e₀.print.length := congrArg String.length (hprint.trans heq.symm)
        omega
      obtain ⟨hsemicolon, hoperator⟩ := hc.headKind hB
      have hnone : (headKind B).operator? = none := stops_lowest_iff.mp (not_tighter_iff.mp hstay)
      cases hrepeats with
      | done _ =>
        refine ⟨?_, B, hreads hsemicolon, hB⟩
        have hparen : c ≠ '(' := fun h => hoperator (.inl h) hnone
        have hbracket : c ≠ '[' := fun h => hoperator (.inr h) hnone
        simp [Stmt.continues, hparen, hbracket, habsorbs]
      | step hnext _ _ => exact absurd hnext hstay

/-- If each statement that is read prints like the one that was printed there, none of these runs into the next. -/
theorem isChain_of_turns {ss : List Stmt} (hss : ∀ s ∈ ss, s.Legible) (hp : p.Opening limit) (hr : p.Reads stop T)
    (hlexes : Lexes (ss.flatMap fun s => s.print.toList) (T.map Token.lexeme))
    (hquiet : (p.finishWithin n).diagnostics = p.diagnostics) (hfits : ¬p.TooDeep)
    (hprint : ((p.startsWithin n).filterMap fun q => q.turn.1).map Stmt.print = ss.map Stmt.print) :
    ss.IsChain fun s s' => ¬s.RunsInto s' := by
  induction ss generalizing p T n with
  | nil => exact .nil
  | cons s ss ih =>
    obtain ⟨hs, hss⟩ := List.forall_mem_cons.mp hss
    cases ss with
    | nil => exact .singleton s
    | cons s' ss =>
      have hT : T ≠ [] := by
        rintro rfl
        rw [Parser.startsWithin_nil hr] at hprint
        exact nomatch hprint
      cases n with
      | zero => exact nomatch hprint
      | succ n =>
        rw [Parser.finishWithin_cons hr hT] at hquiet
        rw [Parser.startsWithin_cons hr hT] at hprint
        obtain ⟨hturn, hrest⟩ := Parser.quiet_finishWithin n hquiet
        obtain ⟨us, -, hphrase⟩ := (describes_stmt .sound limit stop).sound rfl p _ hp.ready hp.calm hr hturn
        cases hvalue : p.turn.1 with
        | none => exact (hvalue ▸ hphrase : Phrase (Sentence .sound (Clause Expression)) T none us).elim
        | some s₁ =>
          rw [List.filterMap_cons, hvalue] at hprint
          obtain ⟨hfirst, hlater⟩ := List.cons.inj hprint
          obtain ⟨c, cs, k, hhead, hopens⟩ := (hss s' List.mem_cons_self).exists_head
          have htext : (s :: s' :: ss).flatMap (fun s => s.print.toList) =
              s.print.toList ++ c :: (cs ++ ss.flatMap fun s => s.print.toList) := by
            rw [List.flatMap_cons, List.flatMap_cons, hhead, List.cons_append]
          rw [htext] at hlexes
          obtain ⟨hcontinues, B, hB, hBlexes⟩ := hs.apart_of_turn hopens hp hr hlexes hturn hfits hvalue hfirst
          have hBtext : (s' :: ss).flatMap (fun s => s.print.toList) = c :: (cs ++ ss.flatMap fun s => s.print.toList) := by
            rw [List.flatMap_cons, hhead, List.cons_append]
          have hfits' : ¬p.turn.2.TooDeep := mt (Parser.tooDeep_congr hturn).mp hfits
          refine .cons_cons ?_ (ih hss hp.turn hB (hBtext ▸ hBlexes) hrest hfits' hlater)
          rintro ⟨d, hd, hruns⟩
          rw [hhead] at hd
          obtain rfl := Option.some.inj hd
          exact absurd hruns (Bool.eq_false_iff.mp hcontinues)

end Turns

/-! Whole programs -/

variable {source : String} {file file' : Option String} {T : List Token} {stop : Position}

theorem Tokenizes.parse_eq_turns {p : Parser} (h : Tokenizes source file T stop)
    (hp : p = .withLimit maxNestingDepth (.buffer ⟨T, stop⟩)) :
    parse source file = (⟨(p.startsWithin p.left).filterMap fun q => q.turn.1⟩,
      (p.finishWithin p.left).diagnostics.toList) := by
  rw [h.parse_eq, ← hp, Parse.program_eq]
  rfl

/-- Printed statements are parsed again one by one if and only if none runs into the next. -/
theorem prints_apart_iff (hclean : (parse source file).2 = [])
    (hplain : ∀ s ∈ (parse source file).1.statements, s.Parts Expr.Plain)
    (hfits : ∀ d ∈ (parse (parse source file).1.print file').2, ∀ limit, d.fault ≠ .nestingTooDeep limit) :
    ((parse (parse source file).1.print file').2 = [] ∧
      (parse (parse source file).1.print file').1.statements.map Stmt.print =
        (parse source file).1.statements.map Stmt.print) ↔
      (parse source file).1.statements.IsChain fun s s' => ¬s.RunsInto s' := by
  have hlegible := legible_of_parse hclean hplain
  constructor
  · intro ⟨hquiet, hprint⟩
    obtain ⟨T, stop, htokenizes⟩ := exists_tokenizes (parse source file).1.print file'
    have hparse := htokenizes.parse_eq_turns rfl
    rw [hparse] at hquiet hprint
    have hlexes := htokenizes.lexes
    rw [Program.toList_print] at hlexes
    exact isChain_of_turns hlegible (Parser.opening_withLimit _ _) (htokenizes.reads _) hlexes
      (Array.toList_inj.mp hquiet) (fun ⟨d, hd, _⟩ => nomatch hd) hprint
  · intro hchain
    obtain ⟨hquiet, heq⟩ := parse_print hlegible hchain hfits
    exact ⟨hquiet, Program.map_print_eq_of_unplaced_eq heq⟩

/-- Printing `a; -b` gives `a(-b)`, which is a single call. -/
theorem prints_apart_iff_negation : (parse "a; -b" none).2 = [] ∧
    (∀ s ∈ (parse "a; -b" none).1.statements, s.Parts Expr.Plain) ∧
    (∀ d ∈ (parse (parse "a; -b" none).1.print none).2, ∀ limit, d.fault ≠ .nestingTooDeep limit) ∧
    ¬((parse (parse "a; -b" none).1.print none).2 = [] ∧
      (parse (parse "a; -b" none).1.print none).1.statements.map Stmt.print =
        (parse "a; -b" none).1.statements.map Stmt.print) := by
  have hclean : (parse "a; -b" none).2 = [] := by decide +kernel
  have hplain : ∀ s ∈ (parse "a; -b" none).1.statements, s.Parts Expr.Plain := by decide +kernel
  have hquiet : (parse (parse "a; -b" none).1.print none).2 = [] := by decide +kernel
  have hfits : ∀ d ∈ (parse (parse "a; -b" none).1.print none).2, ∀ limit, d.fault ≠ .nestingTooDeep limit := by
    rw [hquiet]
    exact List.forall_mem_nil _
  have hruns : ¬(parse "a; -b" none).1.statements.IsChain fun s s' => ¬s.RunsInto s' := by decide +kernel
  exact ⟨hclean, hplain, hfits, fun hsame => hruns ((prints_apart_iff hclean hplain hfits).mp hsame)⟩

/-- Nothing is printed between a sum and a product that begins with a parenthesis, so they are read back as one
statement, a call. -/
theorem prints_together_product : (parse "3 + 4; -5 * 5" none).2 = [] ∧
    (∀ s ∈ (parse "3 + 4; -5 * 5" none).1.statements, s.Parts Expr.Plain) ∧
    (parse "3 + 4; -5 * 5" none).1.statements.map Stmt.print = ["(3 + 4)", "((-5) * 5)"] ∧
    (parse (parse "3 + 4; -5 * 5" none).1.print none).2 = [] ∧
    (parse (parse "3 + 4; -5 * 5" none).1.print none).1.statements.map Stmt.print = ["(3 + 4)(((-5) * 5))"] := by
  refine ⟨?_, ?_, ?_, ?_, ?_⟩ <;> decide +kernel

end FrontEnd
