import FrontEnd.Proofs.Parser.Confinement
import FrontEnd.Proofs.Parser.Shared

/-!
Programs one behind the other: where the first ends on a semicolon and nothing is reported of it, what comes behind it
is parsed as it would be by itself.
-/

namespace FrontEnd

open Grammar

/-! Where expressions end -/

/-- There is a last token, which is no semicolon. -/
def EndsOpen (ts : List Token) : Prop :=
  ∃ us t, ts = us ++ [t] ∧ t.kind ≠ .semicolon

/-- If there is a last token, it is a semicolon. -/
def EndsClosed (ts : List Token) : Prop :=
  ∀ t ∈ ts.getLast?, t.kind = .semicolon

section Ends

variable {ts us : List Token} {t : Token}

theorem endsOpen_concat (ht : t.kind ≠ .semicolon) : EndsOpen (ts ++ [t]) :=
  ⟨ts, t, rfl, ht⟩

theorem EndsOpen.append (h : EndsOpen us) (ts : List Token) : EndsOpen (ts ++ us) := by
  obtain ⟨us, t, rfl, ht⟩ := h
  rw [← List.append_assoc]
  exact endsOpen_concat ht

theorem EndsOpen.cons (h : EndsOpen ts) (t : Token) : EndsOpen (t :: ts) :=
  h.append [t]

theorem EndsClosed.of_append (h : EndsClosed (ts ++ us)) : EndsClosed us := by
  intro t ht
  apply h
  rw [List.getLast?_append, ht]
  rfl

theorem EndsOpen.not_endsClosed (h : EndsOpen ts) : ¬EndsClosed ts := by
  intro hclosed
  obtain ⟨us, t, rfl, ht⟩ := h
  exact ht (hclosed t List.getLast?_concat)

end Ends

namespace Grammar

section Categories

variable {E : List Token → Expr → Prop} {ts : List Token} {e : Expr}

theorem Braced.endsOpen {b : Block} (h : Braced E ts b) : EndsOpen ts := by
  cases h with
  | mk _ _ hright =>
    rw [← List.cons_append]
    exact endsOpen_concat (by rw [hright]; decide)

theorem Primary.endsOpen (h : Primary E ts e) : EndsOpen ts := by
  cases h with
  | @atom t e h =>
    refine ⟨[], t, rfl, ?_⟩
    cases h with
    | ident hk | int hk _ | str hk | trueWord hk | falseWord hk =>
      rw [hk]
      decide
  | group _ _ hright | array _ _ hright | hash _ _ hright =>
    rw [← List.cons_append]
    exact endsOpen_concat (by rw [hright]; decide)
  | cond _ _ _ _ hb ho =>
    refine .cons (.cons (.append (.cons ?_ _) _) _) _
    cases ho with
    | none =>
      rw [List.append_nil]
      exact hb.endsOpen
    | some _ hb => exact (hb.endsOpen.cons _).append _
  | fn _ _ _ _ hb => exact (((hb.endsOpen.cons _).append _).cons _).cons _

theorem Applied.endsOpen (h : Applied E ts e) : EndsOpen ts := by
  cases h with
  | primary h => exact h.endsOpen
  | call _ _ _ hright | index _ _ _ hright =>
    rw [← List.cons_append, ← List.append_assoc]
    exact endsOpen_concat (by rw [hright]; decide)

theorem Unary.endsOpen (h : Unary E ts e) : EndsOpen ts := by
  induction h with
  | applied h => exact h.endsOpen
  | op _ _ ih => exact ih.cons _

/-- No expression ends on a semicolon. -/
theorem Level.endsOpen {ls : List (List Kind)} (h : Level E ls ts e) : EndsOpen ts := by
  induction h with
  | unary h => exact h.endsOpen
  | tighter _ ih => exact ih
  | op _ _ _ _ ihr => exact (ihr.cons _).append _

end Categories

theorem Expression.endsOpen {ts : List Token} {e : Expr} (h : Expression ts e) : EndsOpen ts := by
  cases h with
  | mk h => exact h.endsOpen

end Grammar

/-! One statement -/

namespace Parse

variable {V ts : List Token} {stop stop' : Position} {p q : Parser} {limit : Nat}

/-- What is before both is shared but for `V` behind it on the right, so the values of both begin on the same tokens. -/
theorem exists_drop_valueStart (hp : p.Reads stop ts) (hq : q.Sees stop' (ts ++ V)) (hcurrent : p.current = q.current) :
    ∃ k, (valueStart p).Reads stop (ts.drop k) ∧ (valueStart q).Sees stop' ((ts ++ V).drop k) := by
  have hstep : ∀ p q : Parser, (∃ k, p.Reads stop (ts.drop k) ∧ q.Sees stop' ((ts ++ V).drop k)) →
      ∃ k, p.advance.Reads stop (ts.drop k) ∧ q.advance.Sees stop' ((ts ++ V).drop k) := by
    rintro p q ⟨k, hp, hq⟩
    have hp' := hp.advance
    have hq' := hq.advance
    rw [List.tail_drop] at hp' hq'
    exact ⟨k + 1, hp', hq'⟩
  exact Parser.valueStart_of_advance
    (R := fun p q => ∃ k, p.Reads stop (ts.drop k) ∧ q.Sees stop' ((ts ++ V).drop k)) hstep hcurrent ⟨0, hp, hq⟩

theorem current_eq_of_ne_nil (hp : p.Reads stop ts) (hq : q.Sees stop' (ts ++ V)) (hts : ts ≠ []) :
    p.current = q.current := by
  obtain ⟨t, us, rfl⟩ := List.exists_cons_of_ne_nil hts
  exact hp.current_eq.trans hq.current_eq.symm

theorem peek_eq_of_ne_nil (hp : p.Reads stop ts) (hq : q.Sees stop' (ts ++ V)) (hts : ts.tail ≠ []) :
    p.peek = q.peek := by
  rcases ts with _ | ⟨t, _ | ⟨u, ts⟩⟩
  · exact absurd rfl hts
  · exact absurd rfl hts
  · exact hp.peek_eq.trans hq.peek_eq.symm

theorem headed_of_sees (hp : p.Reads stop ts) (hq : q.Sees stop' (ts ++ V)) (hts : ts ≠ []) (h : Headed p) :
    Headed q := by
  intro hform
  rw [← current_eq_of_ne_nil hp hq hts] at hform
  obtain ⟨hname, hassign⟩ := h hform
  have hname' := hp.peek_kind.symm.trans hname
  have hassign' := hp.advance.peek_kind.symm.trans hassign
  obtain ⟨u, us, htail, -⟩ := exists_cons_of_headKind hname' (by decide)
  obtain ⟨v, vs, htail', -⟩ := exists_cons_of_headKind hassign' (by decide)
  have hq' := hq.advance
  rw [List.tail_append_of_ne_nil hts] at hq'
  rw [← peek_eq_of_ne_nil hp hq (htail ▸ List.cons_ne_nil u us),
    ← peek_eq_of_ne_nil hp.advance hq' (htail' ▸ List.cons_ne_nil v vs)]
  exact ⟨hname, hassign⟩

theorem exists_cons_cons {α : Type} (as : List α) (a b : α) (bs : List α) :
    ∃ c d cs, as ++ a :: b :: bs = c :: d :: cs := by
  rcases as with _ | ⟨c, _ | ⟨d, cs⟩⟩
  · exact ⟨a, b, bs, rfl⟩
  · exact ⟨c, a, b :: bs, rfl⟩
  · exact ⟨c, d, cs ++ a :: b :: bs, rfl⟩

/-- Before a semicolon, an expression is left with the semicolon still ahead. -/
theorem exists_reads_of_quiet (hp : p.Opening limit) (hr : p.Reads stop ts) (hend : EndsClosed ts)
    (hquiet : (expr .lowest p).2.diagnostics = p.diagnostics) :
    ∃ ws t u us, ts = ws ++ t :: u :: us ∧ (expr .lowest p).2.Reads stop (t :: u :: us) := by
  obtain ⟨vs, hvs, hspan⟩ := (describes_expression .sound limit stop).sound rfl p ts hp.ready hp.calm hr hquiet
  cases hvalue : (expr .lowest p).1 with
  | none =>
    rw [hvalue] at hspan
    exact hspan.elim
  | some e =>
    rw [hvalue] at hspan
    obtain ⟨ws, t, rest, rfl, rfl, he, -⟩ := hspan
    cases rest with
    | nil => exact absurd hend he.endsOpen.not_endsClosed
    | cons u us => exact ⟨ws, t, u, us, rfl, hvs⟩

/-- A semicolon that is next is taken on both sides. -/
theorem exists_atSemicolon {t u : Token} {us : List Token} (hr : p.Reads stop (t :: u :: us))
    (hs : q.Sees stop' (t :: u :: us ++ V)) (hend : EndsClosed (u :: us)) :
    ∃ vs, EndsClosed vs ∧ vs.length ≤ (u :: us).length ∧ (atSemicolon p).advance.Reads stop vs ∧
      (atSemicolon q).advance.Sees stop' (vs ++ V) := by
  have hpeek : p.peek = u := hr.peek_eq
  have hpeek' : q.peek = u := hs.peek_eq
  unfold atSemicolon
  rw [hpeek, hpeek']
  split
  · exact ⟨us, @EndsClosed.of_append [u] us hend, Nat.le_succ _, hr.advance.advance, hs.advance.advance⟩
  · exact ⟨u :: us, hend, Nat.le_refl _, hr.advance, hs.advance⟩

/-- A statement of which nothing is reported does not look behind its semicolon. -/
theorem turn_of_sees (hp : p.Opening limit) (hq : q.Opening limit) (hr : p.Reads stop ts)
    (hs : q.Sees stop' (ts ++ V)) (hts : ts ≠ []) (hend : EndsClosed ts) (hdiagnostics : p.diagnostics = q.diagnostics)
    (hfits : ¬p.TooDeep) (hquiet : p.turn.2.diagnostics = p.diagnostics) :
    q.turn.1 = p.turn.1 ∧ q.turn.2.diagnostics = p.turn.2.diagnostics ∧
      ∃ us, EndsClosed us ∧ us.length < ts.length ∧ p.turn.2.Reads stop us ∧ q.turn.2.Sees stop' (us ++ V) := by
  have hheaded : Headed p := headed_of_quiet expr hp.calm hquiet
  have hcurrent := current_eq_of_ne_nil hr hs hts
  obtain ⟨k, hstart, hstart'⟩ := exists_drop_valueStart hr hs hcurrent
  rw [turn_eq hheaded] at hquiet ⊢
  rw [turn_eq (headed_of_sees hr hs hts hheaded)]
  have hvalue : (expr .lowest (valueStart p)).2.diagnostics = (valueStart p).diagnostics := by
    rw [(valueStart_spec p).1, ← hquiet, (atSemicolon_spec _).1]
  have hclosed : EndsClosed (ts.drop k) := EndsClosed.of_append (by rwa [List.take_append_drop])
  obtain ⟨ws, t, u, us, hdrop, hafter⟩ := exists_reads_of_quiet hp.valueStart hstart hclosed hvalue
  have hlength : us.length + 2 ≤ (ts.drop k).length := by
    rw [hdrop, List.length_append]
    exact Nat.le_add_left _ _
  rw [List.length_drop] at hlength
  rw [List.drop_append_of_le_length (by omega)] at hstart'
  have hpeek : p.peek = q.peek := by
    refine peek_eq_of_ne_nil hr hs (List.ne_nil_of_length_pos ?_)
    rw [List.length_tail]
    omega
  have hsame : conclude q = conclude p := by
    funext value
    unfold conclude
    rw [hcurrent, hpeek]
  obtain ⟨a, b, rest, hcons⟩ := exists_cons_cons ws t u us
  have hrest : EndsClosed (u :: us) := @EndsClosed.of_append (ws ++ [t]) (u :: us) (by simpa [hdrop] using hclosed)
  rw [hdrop, hcons] at hstart hstart'
  have hvalues : (valueStart p).diagnostics = (valueStart q).diagnostics := by
    rw [(valueStart_spec p).1, (valueStart_spec q).1, hdiagnostics]
  have hroom : ¬(expr .lowest (valueStart p)).2.TooDeep :=
    mt (Parser.tooDeep_congr (hvalue.trans (valueStart_spec p).1)).mp hfits
  obtain ⟨heq, hsees, hdiag⟩ := expr_eq_of_reads .lowest hstart hstart'
    (hp.valueStart.limit_eq.trans hq.valueStart.limit_eq.symm)
    (hp.valueStart.depth_eq.trans hq.valueStart.depth_eq.symm) hp.valueStart.calm hq.valueStart.calm hvalues hafter
    hroom
  obtain ⟨vs, hvs, hle, hreads, hbehind⟩ := exists_atSemicolon hafter hsees hrest
  have hshorter : vs.length < ts.length := by
    rw [List.length_cons] at hle
    omega
  refine ⟨by rw [heq, hsame], ?_, vs, hvs, hshorter, hreads, hbehind⟩
  rw [(atSemicolon_spec _).1, (atSemicolon_spec _).1, hdiag]

/-! One statement after another -/

variable {P Q : List Diagnostic} {n m : Nat}

theorem Alike.rounds_of_eof (h : Alike P Q p q) (heof : p.current.kind = .eof) (n m : Nat) :
    ((p.startsWithin n).filterMap fun s => s.turn.1) = ((q.startsWithin m).filterMap fun s => s.turn.1) ∧
      Alike P Q (p.finishWithin n) (q.finishWithin m) := by
  have heof' : q.current.kind = .eof := h.current_eq ▸ heof
  rw [Parser.startsWithin_of_eof heof, Parser.startsWithin_of_eof heof', Parser.finishWithin_of_eof heof,
    Parser.finishWithin_of_eof heof']
  exact ⟨rfl, h⟩

/-- As each statement takes a token, rounds beyond the number of tokens make no difference. -/
theorem Alike.rounds (b : Nat) (h : Alike P Q p q) (hb : p.EndsWithin b) (hn : b ≤ n) (hm : b ≤ m) :
    ((p.startsWithin n).filterMap fun s => s.turn.1) = ((q.startsWithin m).filterMap fun s => s.turn.1) ∧
      Alike P Q (p.finishWithin n) (q.finishWithin m) := by
  induction b generalizing p q n m with
  | zero => exact h.rounds_of_eof (hb 0 (Nat.le_refl 0)) n m
  | succ b ih =>
    by_cases heof : p.current.kind = .eof
    · exact h.rounds_of_eof heof n m
    · have heof' : q.current.kind ≠ .eof := h.current_eq ▸ heof
      obtain ⟨n, rfl⟩ := Nat.exists_eq_add_of_le' (Nat.le_trans (Nat.le_add_left 1 b) hn)
      obtain ⟨m, rfl⟩ := Nat.exists_eq_add_of_le' (Nat.le_trans (Nat.le_add_left 1 b) hm)
      obtain ⟨hvalue, hafter⟩ := turn_alike h
      have hbehind : p.turn.2.EndsWithin b := ((Steady.stmt Steady.expr).endsWithin (b + 1) p hb).advance
      have hrest := ih hafter hbehind (Nat.le_of_succ_le_succ hn) (Nat.le_of_succ_le_succ hm)
      rw [Parser.startsWithin_of_ne_eof heof, Parser.startsWithin_of_ne_eof heof', Parser.finishWithin_of_ne_eof heof,
        Parser.finishWithin_of_ne_eof heof', List.filterMap_cons, List.filterMap_cons, hvalue, hrest.1]
      exact ⟨rfl, hrest.2⟩

/-- Where nothing is reported of what is before the one, the other makes the same of it and comes to `V`. -/
theorem exists_rounds (hp : p.Opening limit) (hq : q.Opening limit) (hr : p.Reads stop ts)
    (hs : q.Sees stop' (ts ++ V)) (hend : EndsClosed ts) (hdiagnostics : p.diagnostics = q.diagnostics)
    (hfits : ¬p.TooDeep) (hquiet : (p.finishWithin n).diagnostics = p.diagnostics) (hn : ts.length ≤ n)
    (hm : (ts ++ V).length ≤ m) :
    ∃ (r : Parser) (k : Nat), r.Opening limit ∧ r.Sees stop' V ∧ r.diagnostics = p.diagnostics ∧ V.length ≤ k ∧
      (q.startsWithin m).filterMap (fun s => s.turn.1) =
        (p.startsWithin n).filterMap (fun s => s.turn.1) ++ (r.startsWithin k).filterMap (fun s => s.turn.1) ∧
      q.finishWithin m = r.finishWithin k := by
  induction n generalizing p q ts m with
  | zero =>
    obtain rfl := List.length_eq_zero_iff.mp (Nat.le_zero.mp hn)
    exact ⟨q, m, hq, hs, hdiagnostics.symm, hm, rfl, rfl⟩
  | succ n ih =>
    by_cases hts : ts = []
    · subst hts
      rw [Parser.startsWithin_nil hr]
      exact ⟨q, m, hq, hs, hdiagnostics.symm, hm, rfl, rfl⟩
    · have hpos := List.length_pos_iff.mpr hts
      rw [List.length_append] at hm
      obtain ⟨m, rfl⟩ := Nat.exists_eq_add_of_le' (Nat.le_trans hpos (Nat.le_trans (Nat.le_add_right _ _) hm))
      have heof : q.current.kind ≠ .eof := current_eq_of_ne_nil hr hs hts ▸ hr.current_ne_eof hts
      rw [Parser.finishWithin_cons hr hts] at hquiet
      obtain ⟨hturn, hrest⟩ := Parser.quiet_finishWithin n hquiet
      obtain ⟨hvalue, hsame, us, hus, hlt, hafter, hafter'⟩ :=
        turn_of_sees hp hq hr hs hts hend hdiagnostics hfits hturn
      have hroom : ¬p.turn.2.TooDeep := mt (Parser.tooDeep_congr hturn).mp hfits
      have hm' : (us ++ V).length ≤ m := by
        rw [List.length_append]
        omega
      obtain ⟨r, k, hopening, hsees, hreported, hk, hstatements, hfinish⟩ :=
        ih hp.turn hq.turn hafter hafter' hus hsame.symm hroom hrest (by omega) hm'
      refine ⟨r, k, hopening, hsees, hreported.trans hturn, hk, ?_, ?_⟩
      · rw [Parser.startsWithin_of_ne_eof heof, Parser.startsWithin_cons hr hts, List.filterMap_cons,
          List.filterMap_cons, hvalue, hstatements]
        cases p.turn.1 <;> rfl
      · rw [Parser.finishWithin_of_ne_eof heof, hfinish]

end Parse

/-! Whole programs -/

variable {limit : Nat} {T₁ : List Token} {semicolon : Token}

theorem stop_ofList_append (T₁ : List Token) {T₂ : List Token} (h : T₂ ≠ []) :
    (TokenBuffer.ofList (T₁ ++ T₂)).stop = (TokenBuffer.ofList T₂).stop := by
  unfold TokenBuffer.ofList
  rw [List.getLast?_append_of_ne_nil T₁ h]

theorem endsClosed_concat (ts : List Token) (h : semicolon.kind = .semicolon) : EndsClosed (ts ++ [semicolon]) := by
  intro t ht
  rw [List.getLast?_concat] at ht
  exact Option.some.inj ht ▸ h

/-- Wherever a statement begins, what comes from there on is parsed as it would be from the beginning. -/
theorem rounds_eq_parseWithin {p : Parser} {stop : Position} {T : List Token} {n : Nat} (hp : p.Opening limit)
    (hsees : p.Sees stop T) (hstop : T ≠ [] → (TokenBuffer.ofList T).stop = stop) (hn : T.length ≤ n) :
    (p.startsWithin n).filterMap (fun s => s.turn.1) = (parseWithin limit T).1.statements ∧
      (p.finishWithin n).diagnostics.toList = p.diagnostics.toList ++ (parseWithin limit T).2 := by
  by_cases hne : T = []
  · subst hne
    have hnil : parseWithin limit [] = (⟨[]⟩, []) := rfl
    rw [hnil, List.append_nil, Parser.startsWithin_of_eof hsees.current_kind, Parser.finishWithin_of_eof hsees.current_kind]
    exact ⟨rfl, rfl⟩
  · have hfresh := Parser.sees_withLimit limit T
    rw [hstop hne] at hfresh
    have halike : Parse.Alike p.diagnostics.toList [] p (Parser.withLimit limit (.buffer (TokenBuffer.ofList T))) :=
      ⟨hsees.abreast hfresh hp.depth_eq, hp.limit_eq, hp.calm, [], (List.append_nil _).symm, rfl⟩
    obtain ⟨hstatements, hend⟩ := halike.rounds T.length hsees.endsWithin hn hfresh.length_le_left
    obtain ⟨D, hleft, hright⟩ := hend.reported
    rw [parseWithin_eq, hleft, hright]
    exact ⟨hstatements, rfl⟩

theorem parseWithin_append (hfree : ∀ t ∈ T₁, t.kind ≠ .eof) (hsemicolon : semicolon.kind = .semicolon)
    (hquiet : (parseWithin limit (T₁ ++ [semicolon])).2 = []) (T₂ : List Token) :
    parseWithin limit (T₁ ++ [semicolon] ++ T₂) =
      (⟨(parseWithin limit (T₁ ++ [semicolon])).1.statements ++ (parseWithin limit T₂).1.statements⟩,
        (parseWithin limit T₂).2) := by
  by_cases hne : T₂ = []
  · subst hne
    have hnil : parseWithin limit [] = (⟨[]⟩, []) := rfl
    rw [List.append_nil, hnil, List.append_nil, ← hquiet]
  · have hfree' : ∀ t ∈ T₁ ++ [semicolon], t.kind ≠ .eof := by
      intro t ht
      rcases List.mem_append.mp ht with ht | ht
      · exact hfree t ht
      · rw [List.eq_of_mem_singleton ht, hsemicolon]
        decide
    have hp := Parser.reads_withLimit limit hfree'
    have hq := Parser.sees_withLimit limit (T₁ ++ [semicolon] ++ T₂)
    rw [stop_ofList_append _ hne] at hq
    rw [parseWithin_eq] at hquiet
    obtain ⟨r, k, hopening, hsees, hreported, hk, hstatements, hfinish⟩ :=
      Parse.exists_rounds (Parser.opening_withLimit limit _) (Parser.opening_withLimit limit _) hp hq
        (endsClosed_concat T₁ hsemicolon) rfl (fun ⟨d, hd, _⟩ => absurd hd List.not_mem_nil)
        (Array.toList_inj.mp hquiet) hp.length_le_left hq.length_le_left
    obtain ⟨hrest, hend⟩ := rounds_eq_parseWithin hopening hsees (fun _ => rfl) hk
    rw [parseWithin_eq limit (T₁ ++ [semicolon] ++ T₂), parseWithin_eq limit (T₁ ++ [semicolon])]
    unfold starts
    rw [hstatements, hfinish, hrest, hend, hreported]
    rfl

/-- What comes behind a program that ends on a semicolon and of which nothing is reported is parsed as if nothing had
been before it. -/
theorem parseTokens_append (hfree : ∀ t ∈ T₁, t.kind ≠ .eof) (hsemicolon : semicolon.kind = .semicolon)
    (hquiet : (parseTokens (T₁ ++ [semicolon])).2 = []) (T₂ : List Token) :
    parseTokens (T₁ ++ [semicolon] ++ T₂) =
      (⟨(parseTokens (T₁ ++ [semicolon])).1.statements ++ (parseTokens T₂).1.statements⟩, (parseTokens T₂).2) :=
  parseWithin_append hfree hsemicolon hquiet T₂

/-- The tokens of `) x`. The first one closes nothing. -/
def unopened : List Token :=
  [.loose .closeParen ")", .loose .identifier "x"]

theorem parseTokens_append_unopened : (∀ t ∈ identityBinding.dropLast, t.kind ≠ .eof) ∧
    (Token.loose .semicolon ";").kind = .semicolon ∧
    (parseTokens (identityBinding.dropLast ++ [.loose .semicolon ";"])).2 = [] ∧
    (parseTokens unopened).2 ≠ [] ∧
    parseTokens (identityBinding.dropLast ++ [.loose .semicolon ";"] ++ unopened) =
      (⟨(parseTokens (identityBinding.dropLast ++ [.loose .semicolon ";"])).1.statements ++
        (parseTokens unopened).1.statements⟩, (parseTokens unopened).2) := by
  have hfree : ∀ t ∈ identityBinding.dropLast, t.kind ≠ .eof := by decide
  have hquiet : (parseTokens (identityBinding.dropLast ++ [.loose .semicolon ";"])).2 = [] := by decide
  have hreported : (parseTokens unopened).2 ≠ [] := by decide
  exact ⟨hfree, rfl, hquiet, hreported, parseTokens_append hfree rfl hquiet unopened⟩

end FrontEnd
