import FrontEnd.Proofs.Parser.Phrase

/-!
What the steps for statements and blocks read, given what the step for expressions reads.
-/

namespace FrontEnd.Parse

open Grammar

variable {α β : Type} {dir : Direction}

/-- The end of a statement: its semicolon, or its last token where nothing behind it could still belong to it. -/
def Ends (dir : Direction) (ws rest us : List Token) : Prop :=
  (headKind rest = .semicolon ∧ us = rest) ∨
    (headKind rest ≠ .semicolon ∧ Follow dir .lowest rest ∧ ∃ vs t, ws = vs ++ [t] ∧ us = t :: rest)

theorem ends_cons {t : Token} {ws rest us : List Token} (h : ws ≠ []) :
    Ends dir (t :: ws) rest us ↔ Ends dir ws rest us := by
  have hw : (∃ vs u, t :: ws = vs ++ [u] ∧ us = u :: rest) ↔ ∃ vs u, ws = vs ++ [u] ∧ us = u :: rest := by
    constructor
    · rintro ⟨_ | ⟨v, vs⟩, u, hv, rfl⟩
      · exact absurd (List.cons.inj hv).2 h
      · exact ⟨vs, u, (List.cons.inj hv).2, rfl⟩
    · intro h
      obtain ⟨vs, u, rfl, rfl⟩ := h
      exact ⟨t :: vs, u, rfl, rfl⟩
  unfold Ends
  rw [hw]

/-- A phrase of `C` up to the end of its statement. -/
def Sentence (dir : Direction) (C : List Token → β → Prop) (ts : List Token) (b : β) (us : List Token) : Prop :=
  ∃ ws rest, ts = ws ++ rest ∧ C ws b ∧ Ends dir ws rest us

theorem Sentence.length_lt {C : List Token → β → Prop} {ts us : List Token} {b : β} (h : Sentence dir C ts b us) :
    us.tail.length < ts.length := by
  obtain ⟨ws, rest, rfl, -, ⟨hk, rfl⟩ | ⟨-, -, vs, t, rfl, rfl⟩⟩ := h
  · obtain ⟨t, rest, rfl, -⟩ := exists_cons_of_headKind hk (by decide)
    simp only [List.tail_cons, List.length_append, List.length_cons]
    omega
  · simp only [List.tail_cons, List.length_append, List.length_cons]
    omega

variable {E : List Token → Expr → Prop}

theorem sentence_bind_iff (hE : Begins E) {ts us : List Token} {s : Stmt} (hk : headKind ts = .letWord) :
    Sentence dir (Clause E) ts s us ↔ ∃ word name assign vs e, ts = word :: name :: assign :: vs ∧
      name.kind = .identifier ∧ assign.kind = .assign ∧ Sentence dir E vs e us ∧
        s = .bind word ⟨name, name.value⟩ (some (e.labelled name.value)) := by
  constructor
  · intro h
    obtain ⟨ws, rest, rfl, h, hend⟩ := h
    cases h with
    | @bind word name assign vs e hword hname hassign h =>
      obtain ⟨t, vs, rfl, -⟩ := hE.exists_cons h
      refine ⟨word, name, assign, _, e, rfl, hname, hassign, ⟨t :: vs, rest, rfl, h, ?_⟩, rfl⟩
      simpa only [ends_cons (List.cons_ne_nil _ _)] using hend
    | ret hword _ => exact absurd (hword.symm.trans hk) (by decide)
    | expr h => exact absurd (hk ▸ rfl) (hE.headKind_append h rest)
  · intro h
    obtain ⟨word, name, assign, vs, e, rfl, hname, hassign, ⟨ws, rest, rfl, h, hend⟩, rfl⟩ := h
    obtain ⟨t, vs, rfl, -⟩ := hE.exists_cons h
    refine ⟨word :: name :: assign :: t :: vs, rest, rfl, .bind hk hname hassign h, ?_⟩
    simpa only [ends_cons (List.cons_ne_nil _ _)] using hend

theorem sentence_ret_iff (hE : Begins E) {ts us : List Token} {s : Stmt} (hk : headKind ts = .returnWord) :
    Sentence dir (Clause E) ts s us ↔
      ∃ word vs e, ts = word :: vs ∧ Sentence dir E vs e us ∧ s = .ret word (some e) := by
  constructor
  · intro h
    obtain ⟨ws, rest, rfl, h, hend⟩ := h
    cases h with
    | bind hword _ _ _ => exact absurd (hword.symm.trans hk) (by decide)
    | @ret word vs e hword h =>
      obtain ⟨t, vs, rfl, -⟩ := hE.exists_cons h
      refine ⟨word, _, e, rfl, ⟨t :: vs, rest, rfl, h, ?_⟩, rfl⟩
      simpa only [ends_cons (List.cons_ne_nil _ _)] using hend
    | expr h => exact absurd (hk ▸ rfl) (hE.headKind_append h rest)
  · intro h
    obtain ⟨word, vs, e, rfl, ⟨ws, rest, rfl, h, hend⟩, rfl⟩ := h
    obtain ⟨t, vs, rfl, -⟩ := hE.exists_cons h
    refine ⟨word :: t :: vs, rest, rfl, .ret hk h, ?_⟩
    simpa only [ends_cons (List.cons_ne_nil _ _)] using hend

theorem sentence_expr_iff (hE : Begins E) (none : Token) {ts us : List Token} {s : Stmt}
    (hk : (headKind ts).statement? = .none) :
    Sentence dir (Clause E) ts s us ↔ ∃ e, Sentence dir E ts e us ∧ s = .expr (ts.headD none) e := by
  constructor
  · intro h
    obtain ⟨ws, rest, rfl, h, hend⟩ := h
    cases h with
    | bind hword _ _ _ => simp [hword, Kind.statement?] at hk
    | ret hword _ => simp [hword, Kind.statement?] at hk
    | expr h => exact ⟨_, ⟨_, rest, rfl, h, hend⟩, rfl⟩
  · intro h
    obtain ⟨e, ⟨ws, rest, rfl, h, hend⟩, rfl⟩ := h
    obtain ⟨t, vs, rfl, -⟩ := hE.exists_cons h
    exact ⟨t :: vs, rest, rfl, .expr h, hend⟩

/-- One statement more, and the move onto the token behind it. -/
def Collects (dir : Direction) (E : List Token → Expr → Prop) (found : Array Stmt) (ts : List Token)
    (found' : Array Stmt) (us : List Token) : Prop :=
  ∃ s vs, Sentence dir (Clause E) ts s vs ∧ us = vs.tail ∧ found' = found.push s

/-- No statement begins with a token that ends a block or the text, or that goes on with an `if`. -/
theorem clause_begins (hE : Begins E) {ts : List Token} {s : Stmt} (h : Clause E ts s) :
    ∃ t vs, ts = t :: vs ∧ t.kind ≠ .closeCurly ∧ t.kind ≠ .eof ∧ t.kind ≠ .elseWord := by
  cases h with
  | bind hword _ _ _ => exact ⟨_, _, rfl, by rw [hword]; decide⟩
  | ret hword _ => exact ⟨_, _, rfl, by rw [hword]; decide⟩
  | expr h =>
    refine ⟨_, _, rfl, ?_, ?_, ?_⟩ <;> intro hk <;> exact hE _ _ h (by rw [headKind_cons, hk]; rfl)

theorem clause_exists_concat {ts : List Token} {s : Stmt} (h : Clause E ts s) :
    ∃ vs t, ts = vs ++ [t] := by
  cases h <;> exact ⟨_, _, (List.dropLast_concat_getLast (List.cons_ne_nil _ _)).symm⟩

theorem stmts_of_repeats {stop : Kind → Bool} {found found' : Array Stmt} {ts us : List Token}
    (h : Repeats (fun ts => stop (headKind ts) = false) (Collects dir E) found ts found' us) :
    stop (headKind us) = true ∧ ∃ vs ss, ts = vs ++ us ∧ Stmts E vs ss ∧ found' = found ++ ss := by
  induction h with
  | done hM => exact ⟨by simpa using hM, [], [], rfl, .nil, by simp⟩
  | step _ hG _ ih =>
    obtain ⟨hstop, vs, ss, rfl, hss, hfound⟩ := ih
    obtain ⟨s, vs', ⟨ws, rest, rfl, hs, ⟨hk, rfl⟩ | ⟨hk, hrest, ws, t, rfl, rfl⟩⟩, hvs, rfl⟩ := hG
    · obtain ⟨semicolon, rest, rfl, ht⟩ := exists_cons_of_headKind hk (by decide)
      obtain rfl := hvs
      exact ⟨hstop, ws ++ semicolon :: vs, s :: ss, by simp, .ended hs ht hss, by simp [hfound]⟩
    -- The parser went on from the last token of the statement itself.
    · obtain rfl := hvs
      refine ⟨hstop, (ws ++ [t]) ++ vs, s :: ss, by simp, .bare hs (fun u hu => ?_) hss, by simp [hfound]⟩
      cases vs with
      | nil => simp at hu
      | cons v vs =>
        obtain rfl : v = u := by simpa using hu
        exact notMem_continuing_iff.mpr ⟨hk, stops_lowest_iff.mp hrest.1⟩

theorem repeats_of_stmts (found : Array Stmt) (hE : Begins E) {stop : Kind → Bool}
    (hstop : ∀ k, stop k = true → k = .closeCurly ∨ k = .eof)
    {us vs : List Token} {ss : List Stmt} (h : Stmts E vs ss) (hus : stop (headKind us) = true) :
    Repeats (fun ts => stop (headKind ts) = false) (Collects dir E) found (vs ++ us) (found ++ ss) us := by
  have hstart : ∀ {ts s rest}, Clause E ts s → stop (headKind (ts ++ rest)) = false := by
    intro ts s rest hs
    obtain ⟨t, ts, rfl, hclose, heof, -⟩ := clause_begins hE hs
    cases ht : stop t.kind with
    | false => exact ht
    | true => exact absurd (hstop _ ht) (not_or.mpr ⟨hclose, heof⟩)
  -- What follows a statement without a semicolon must not be taken for an alternative of it.
  have helse : ∀ {ts ss}, Stmts E ts ss → headKind (ts ++ us) ≠ .elseWord := by
    intro ts ss hss
    cases hss with
    | nil => obtain hk | hk := hstop _ hus <;> rw [List.nil_append, hk] <;> decide
    | ended hs _ _ | bare hs _ _ =>
      obtain ⟨t, ts, rfl, -, -, hk⟩ := clause_begins hE hs
      exact hk
  induction h generalizing found with
  | nil =>
    rw [List.nil_append, Array.appendList_nil]
    exact .done (by simp [hus])
  | @ended ts s semicolon vs ss hs hk _ ih =>
    have hnext : Collects dir E found (ts ++ semicolon :: (vs ++ us)) (found.push s) (vs ++ us) :=
      ⟨s, semicolon :: (vs ++ us), ⟨ts, semicolon :: (vs ++ us), rfl, hs, .inl ⟨hk, rfl⟩⟩, rfl, rfl⟩
    have htail := ih (found.push s)
    rw [List.append_assoc, List.cons_append, Array.appendList_cons]
    exact .step (hstart hs) hnext htail
  | @bare ts s vs ss hs hk hss ih =>
    have hfollow : headKind (vs ++ us) ∉ continuing := by
      cases vs with
      | nil => obtain hk | hk := hstop _ hus <;> rw [List.nil_append, hk] <;> decide
      | cons v vs => exact hk v rfl
    obtain ⟨hk, ho⟩ := notMem_continuing_iff.mp hfollow
    have hrest : Follow dir .lowest (vs ++ us) := follow_of_operator?_eq_none ho (helse hss)
    obtain ⟨ws, t, rfl⟩ : ∃ ws t, ts = ws ++ [t] := clause_exists_concat hs
    have hnext : Collects dir E found ((ws ++ [t]) ++ (vs ++ us)) (found.push s) (vs ++ us) :=
      ⟨s, t :: (vs ++ us), ⟨ws ++ [t], vs ++ us, rfl, hs, .inr ⟨hk, hrest, ws, t, rfl, rfl⟩⟩, rfl, rfl⟩
    have htail := ih (found.push s)
    rw [List.append_assoc, Array.appendList_cons]
    exact .step (hstart hs) hnext htail

namespace Describes

variable {I : Parser → Prop} {stop : Position} (hI : Stable I)

include hI

theorem ident : Describes dir I stop Parse.ident (Phrase fun ts id us =>
    us = ts.tail ∧ ∃ t rest, ts.tail = t :: rest ∧ t.kind = .identifier ∧ id = ⟨t, t.value⟩) := by
  refine (expect_bind hI .identifier (current_bind fun t => pure (Ident.mk t t.value))).congr fun ts a us => ?_
  cases a with
  | none => simp
  | some id =>
    constructor
    · intro h
      obtain ⟨hk, rfl, rfl⟩ := h
      obtain ⟨t, rest, hts, ht⟩ := exists_cons_of_headKind hk (by decide)
      exact ⟨rfl, t, rest, hts, ht, by rw [hts, List.headD_cons]⟩
    · intro h
      obtain ⟨rfl, t, rest, hts, ht, rfl⟩ := h
      exact ⟨by rw [hts, headKind_cons, ht], by rw [hts, List.headD_cons], rfl⟩

theorem skipSemicolon : Describes dir I stop Parse.skipSemicolon (Phrase fun ts _ us =>
    (headKind ts.tail = .semicolon ∧ us = ts.tail) ∨ (headKind ts.tail ≠ .semicolon ∧ us = ts)) := by
  refine (peekIs_bind .semicolon (advance hI) (pure ())).congr fun ts a us => ?_
  cases a with
  | none => simp
  | some _ => simp

variable (hE : Begins E) {sub : SubExpr}
  (hsub : Describes dir I stop (sub .lowest) (Phrase (Spans E (Follow dir .lowest))))

include hE hsub

/-- An expression at the end of a statement, and the semicolon if there is one. -/
theorem value_bind {f : Option Expr → Parse β} {H : Option Expr → List Token → Option β → List Token → Prop}
    (hf : ∀ o, Describes dir I stop (f o) (H o)) :
    Describes dir I stop (Parse.attempt (sub .lowest) >>= fun value => Parse.skipSemicolon >>= fun _ => f value)
      (fun ts b vs => ∃ e us, Sentence dir E ts e us ∧ H (some e) us b vs) := by
  refine (attempt_bind hsub fun o => (skipSemicolon hI).bind fun _ => hf o).congr fun ts b ws => ?_
  constructor
  · rintro ⟨e, -, ⟨vs, t, rest, rfl, rfl, h, hrest⟩, -, us, ⟨hk, rfl⟩ | ⟨hk, rfl⟩, hH⟩
    · exact ⟨e, us, ⟨vs ++ [t], us, by simp, h, .inl ⟨hk, rfl⟩⟩, hH⟩
    · exact ⟨e, _, ⟨vs ++ [t], rest, by simp, h, .inr ⟨hk, hrest, vs, t, rfl, rfl⟩⟩, hH⟩
  · rintro ⟨e, us, ⟨ws, rest, rfl, h, ⟨hk, rfl⟩ | ⟨hk, hrest, vs, t, rfl, rfl⟩⟩, hH⟩
    · obtain ⟨vs, t, rfl⟩ := hE.exists_concat h
      refine ⟨e, t :: us, ⟨vs, t, us, by simp, rfl, h, ?_⟩, (), us, .inl ⟨hk, rfl⟩, hH⟩
      exact follow_of_operator?_eq_none (by rw [hk]; rfl) (by rw [hk]; decide)
    · exact ⟨e, t :: rest, ⟨vs, t, rest, by simp, rfl, h, hrest⟩, (), t :: rest, .inr ⟨hk, rfl⟩, hH⟩

theorem bindStmt : Describes dir I stop (Parse.bindStmt sub) (Phrase fun ts s us =>
    ∃ word name assign vs e, ts = word :: name :: assign :: vs ∧ name.kind = .identifier ∧ assign.kind = .assign ∧
      Sentence dir E vs e us ∧ s = .bind word ⟨name, name.value⟩ (some (e.labelled name.value))) := by
  refine (current_bind fun word => (ident hI).bind fun name => expect_bind hI .assign <| advance_bind hI <|
    value_bind hI hE hsub fun value => pure _).congr fun ts a us => ?_
  cases a with
  | none => simp
  | some s =>
    constructor
    · intro h
      obtain ⟨id, -, ⟨rfl, name, rest, hts, hname, rfl⟩, hk, e, us, hS, rfl, rfl⟩ := h
      obtain ⟨assign, vs, ha, hassign⟩ := exists_cons_of_headKind hk (by decide)
      cases ts with
      | nil => simp at hts
      | cons word ts =>
        obtain rfl : ts = name :: rest := hts
        obtain rfl : rest = assign :: vs := ha
        exact ⟨word, name, assign, vs, e, rfl, hname, hassign, hS, rfl⟩
    · intro h
      obtain ⟨word, name, assign, vs, e, rfl, hname, hassign, hS, rfl⟩ := h
      exact ⟨_, _, ⟨rfl, name, assign :: vs, rfl, hname, rfl⟩, hassign, e, us, hS, rfl, rfl⟩

theorem retStmt : Describes dir I stop (Parse.retStmt sub) (Phrase fun ts s us =>
    ∃ word vs e, ts = word :: vs ∧ Sentence dir E vs e us ∧ s = .ret word (some e)) := by
  refine (current_bind fun word => advance_bind hI <| value_bind hI hE hsub fun value => pure _).congr
    fun ts a us => ?_
  cases a with
  | none => simp
  | some s =>
    constructor
    · intro h
      obtain ⟨e, us, hS, rfl, rfl⟩ := h
      cases ts with
      | nil =>
        obtain ⟨ws, rest, hts, h, -⟩ := hS
        obtain ⟨t, vs, rfl, -⟩ := hE.exists_cons h
        simp at hts
      | cons word ts => exact ⟨word, ts, e, rfl, hS, rfl⟩
    · intro h
      obtain ⟨word, vs, e, rfl, hS, rfl⟩ := h
      exact ⟨e, us, hS, rfl, rfl⟩

theorem exprStmt : Describes dir I stop (Parse.exprStmt sub) (Phrase fun ts s us =>
    ∃ e, Sentence dir E ts e us ∧ s = .expr (ts.headD (Token.eof stop)) e) := by
  refine (current_bind fun token => value_bind hI hE hsub fun value => ofOption_bind value fun e => pure _).congr
    fun ts a us => ?_
  cases a with
  | none => simp
  | some s =>
    constructor
    · intro h
      obtain ⟨e, us, hS, rfl, rfl⟩ := h
      exact ⟨e, hS, rfl⟩
    · intro h
      obtain ⟨e, hS, rfl⟩ := h
      exact ⟨e, us, hS, rfl, rfl⟩

theorem stmt : Describes dir I stop (Parse.stmt sub) (Phrase (Sentence dir (Clause E))) := by
  refine current_dispatch fun token => ?_
  have hkind : ∀ ts : List Token, ts.headD (Token.eof stop) = token → headKind ts = token.kind := by
    rintro ts rfl
    exact (headD_eof_kind ts stop).symm
  cases hform : token.kind.statement? with
  | none =>
    refine ⟨_, exprStmt hI hE hsub, fun ts s us hts => ?_⟩
    have hk : (headKind ts).statement? = none := (hkind ts hts).symm ▸ hform
    cases s with
    | none => rfl
    | some s => exact (sentence_expr_iff hE (Token.eof stop) hk).symm
  | some form =>
    cases form with
    | bind =>
      refine ⟨_, bindStmt hI hE hsub, fun ts s us hts => ?_⟩
      have hk : headKind ts = .letWord := (hkind ts hts).trans (Kind.eq_letWord hform)
      cases s with
      | none => rfl
      | some s => exact (sentence_bind_iff hE hk).symm
    | ret =>
      refine ⟨_, retStmt hI hE hsub, fun ts s us hts => ?_⟩
      have hk : headKind ts = .returnWord := (hkind ts hts).trans (Kind.eq_returnWord hform)
      cases s with
      | none => rfl
      | some s => exact (sentence_ret_iff hE hk).symm

theorem stmtsUntil (boundary : Kind → Bool) (heof : boundary .eof = true)
    (hboundary : ∀ k, boundary k = true → k = .closeCurly ∨ k = .eof) :
    Describes dir I stop (Parse.stmtsUntil sub boundary) (Phrase fun ts found us =>
      boundary (headKind us) = true ∧ ∃ vs ss, ts = vs ++ us ∧ Stmts E vs ss ∧ found = ss.toArray) := by
  have hstep : ∀ found, Describes dir I stop (Parse.collect sub found) (Phrase (Collects dir E found)) := by
    intro found
    refine congr (attempt_bind (stmt hI hE hsub) fun s => advance_bind hI (pure _)) fun ts a us => ?_
    cases a with
    | none => simp
    | some found' =>
      constructor
      · intro h
        obtain ⟨s, vs, hs, rfl, rfl⟩ := h
        exact ⟨s, vs, hs, rfl, rfl⟩
      · intro h
        obtain ⟨s, vs, hs, rfl, rfl⟩ := h
        exact ⟨s, vs, hs, rfl, rfl⟩
  have hmore : ∀ (p : Parser) ts, p.Sees stop ts →
      ((!boundary p.current.kind) = true ↔ boundary (headKind ts) = false) := by
    intro p ts hr
    rw [hr.current_kind, Bool.not_eq_true']
  refine (repeatWhile (μ := List.length) hmore hstep ?_ ?_ (fun p ts hr => hr.length_le_left) #[]).congr
    fun ts a us => ?_
  · rintro found ts found' us - ⟨s, vs, hs, rfl, -⟩
    exact hs.length_lt
  · intro ts hts
    rw [List.eq_nil_of_length_eq_zero hts]
    simp [headKind, heof]
  · cases a with
    | none => rfl
    | some found =>
      constructor
      · intro h
        obtain ⟨hus, vs, ss, hts, hss, rfl⟩ := stmts_of_repeats h
        exact ⟨hus, vs, ss, hts, hss, by simp⟩
      · intro h
        obtain ⟨hus, vs, ss, rfl, hss, rfl⟩ := h
        have hrep := @repeats_of_stmts dir E #[] hE boundary hboundary us vs ss hss hus
        simpa using hrep

theorem block : Describes dir I stop (Parse.block sub) (Phrase fun ts b us =>
    ∃ left ss, Encloses .closeCurly (Stmts E) left ts ss us ∧ b = .mk left ss) := by
  have hbody := Describes.stmtsUntil hI hE hsub (fun k => k == .closeCurly || k == .eof) rfl (by simp)
  refine congr (current_bind fun token => advance_bind hI <| hbody.bind fun body =>
    currentIs_bind .eof ((report hI _).bind fun _ => pure _) (pure _)) fun ts a us => ?_
  cases a with
  | none => simp
  | some b =>
    constructor
    · rintro ⟨body, us, ⟨hstop, vs, ss, hts, hss, rfl⟩, ⟨-, -, -, hfalse, -⟩ | ⟨heof, rfl, rfl⟩⟩
      · exact hfalse.elim
      · have hk : headKind us = .closeCurly := by simpa [heof] using hstop
        obtain ⟨right, rest, rfl, hright⟩ := exists_cons_of_headKind hk (by decide)
        cases ts with
        | nil => simp at hts
        | cons left ts =>
          obtain rfl : ts = vs ++ right :: rest := hts
          exact ⟨left, ss, ⟨vs, right, rest, rfl, rfl, hss, hright⟩, by simp⟩
    · intro h
      obtain ⟨left, ss, ⟨vs, right, rest, rfl, rfl, hss, hright⟩, rfl⟩ := h
      refine ⟨ss.toArray, right :: rest, ⟨?_, vs, ss, rfl, hss, rfl⟩, .inr ⟨?_, ?_⟩⟩
      · simp [hright]
      · simp [hright]
      · simp

end Describes

end FrontEnd.Parse
