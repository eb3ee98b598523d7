import FrontEnd.Parser.Operand
import FrontEnd.Proofs.Parser.Statement

/-!
What the steps for lists read: parameters, arguments, elements and entries, between their brackets.
-/

namespace FrontEnd

/-- Kinds that close a list: no operand begins with them and no operator goes on with them. -/
def Kind.closers : List Kind :=
  [.closeParen, .closeBracket]

namespace Parse

open Grammar

variable {α β : Type} {dir : Direction}

/-- One phrase more behind a comma. The step is on the last token of the phrase before, and keeps `w a`. -/
def Gathers (D : List Token → α → Prop) (F : List Token → Prop) (w : α → β) (found : Array β) (ts : List Token)
    (found' : Array β) (us : List Token) : Prop :=
  ∃ a, Spans D F ts.tail.tail a us ∧ found' = found.push (w a)

def CommaNext (ts : List Token) : Prop :=
  headKind ts.tail = .comma

theorem separated_of_repeats {D : List Token → α → Prop} {F : List Token → Prop} {w : α → β} {found found' : Array β}
    {ts us : List Token} (h : Repeats CommaNext (Gathers D F w) found ts found' us) {vs : List Token} {a : α}
    (ha : D vs a) : ∃ ws as, vs ++ ts.tail = ws ++ us.tail ∧ Separated D ws (a :: as) ∧ found' = found ++ as.map w := by
  induction h generalizing vs a with
  | done _ => exact ⟨vs, [], rfl, .one ha, by simp⟩
  | @step found ts _ us _ _ hcomma hG _ ih =>
    obtain ⟨b, ⟨xs, t, rest, hts, rfl, hb, -⟩, rfl⟩ := hG
    obtain ⟨comma, tail, htail, hk⟩ := exists_cons_of_headKind hcomma (by decide)
    obtain ⟨ws, bs, hws, hsep, rfl⟩ := ih hb
    obtain rfl : tail = xs ++ t :: rest := by simpa [htail] using hts
    refine ⟨vs ++ comma :: ws, b :: bs, ?_, .more ha hk hsep, by simp⟩
    rw [htail, List.append_assoc, List.cons_append, ← hws]
    simp

theorem repeats_of_separated {D : List Token → α → Prop} {F : List Token → Prop} (w : α → β)
    (hD : ∀ ts a, D ts a → ts ≠ []) {close : Kind} (hclose : close ≠ .comma)
    (hF : ∀ rest, headKind rest = .comma ∨ headKind rest = close → F rest) {ws : List Token} (rest : List Token)
    {as : List α} (h : Separated D ws as) (hrest : headKind rest = close) :
    ∃ a bs us, as = a :: bs ∧ Spans D F (ws ++ rest) a us ∧ ∀ found : Array β, ∃ vs,
      Repeats CommaNext (Gathers D F w) found us (found ++ bs.map w) vs ∧ vs.tail = rest := by
  have hspans : ∀ {ts a} rest', D ts a → F rest' → ∃ t, Spans D F (ts ++ rest') a (t :: rest') := by
    intro ts a rest' ha hrest'
    have hconcat := List.dropLast_concat_getLast (hD ts a ha)
    refine ⟨ts.getLast (hD ts a ha), ts.dropLast, _, rest', ?_, rfl, hconcat.symm ▸ ha, hrest'⟩
    rw [← List.singleton_append, ← List.append_assoc, hconcat]
  induction h with
  | @one ts a ha =>
    obtain ⟨t, ht⟩ := hspans rest ha (hF rest (.inr hrest))
    refine ⟨a, [], t :: rest, rfl, ht, fun found => ⟨t :: rest, ?_, rfl⟩⟩
    rw [List.map_nil, Array.appendList_nil]
    exact .done fun hc => hclose (hrest.symm.trans hc)
  | @more ts a comma us as ha hk _ ih =>
    obtain ⟨b, bs, vs, rfl, hb, hrep⟩ := ih
    obtain ⟨t, ht⟩ := hspans (comma :: (us ++ rest)) ha (hF _ (.inl hk))
    refine ⟨a, b :: bs, t :: comma :: (us ++ rest), rfl, by simpa using ht, fun found => ?_⟩
    obtain ⟨xs, hxs, hrest'⟩ := hrep (found.push (w b))
    refine ⟨xs, .step hk ⟨b, hb, rfl⟩ ?_, hrest'⟩
    simpa only [List.map_cons, Array.appendList_cons] using hxs

theorem exists_cons_of_tail_eq_cons {ts us : List Token} {t : Token} (h : ts.tail = t :: us) :
    ∃ left, ts = left :: t :: us := by
  cases ts with
  | nil => simp at h
  | cons left ts => exact ⟨left, congrArg (left :: ·) h⟩

theorem encloses_nil (D : List Token → α → Prop) {close : Kind} (hclose : close ≠ .eof) {ts : List Token}
    (h : headKind ts.tail = close) : ∃ left, Encloses close (Listing D) left ts [] ts.tail := by
  obtain ⟨right, rest, htail, hright⟩ := exists_cons_of_headKind h hclose
  obtain ⟨left, rfl⟩ := exists_cons_of_tail_eq_cons htail
  exact ⟨left, [], right, rest, rfl, rfl, .none, hright⟩

theorem encloses_of_repeats {D : List Token → α → Prop} {F : List Token → Prop} {w : α → β} {a : α} {found : Array β}
    {ts vs us : List Token} {close : Kind} (hclose : close ≠ .eof) (ha : Spans D F ts.tail a vs)
    (h : Repeats CommaNext (Gathers D F w) #[w a] vs found us) (hk : headKind us.tail = close) :
    ∃ left as, Encloses close (Listing D) left ts as us.tail ∧ found.toList = as.map w := by
  obtain ⟨xs, t, rest, hts, rfl, ha, -⟩ := ha
  obtain ⟨ws, as, hws, hsep, rfl⟩ := separated_of_repeats h ha
  obtain ⟨right, tail, hus, hright⟩ := exists_cons_of_headKind hk hclose
  have htail : ts.tail = ws ++ right :: tail := by
    rw [hts, ← hus, ← hws]
    simp
  cases ts with
  | nil => simp at htail
  | cons left ts =>
    obtain rfl : ts = ws ++ right :: tail := htail
    exact ⟨left, a :: as, ⟨ws, right, tail, rfl, hus, .some hsep, hright⟩, by simp⟩

theorem repeats_of_encloses {D : List Token → α → Prop} {F : List Token → Prop} (w : α → β) {left : Token}
    {ts us : List Token} {as : List α} {close : Kind} (hD : ∀ ts a, D ts a → ts ≠ [] ∧ headKind ts ≠ close)
    (hcomma : close ≠ .comma) (hF : ∀ rest, headKind rest = .comma ∨ headKind rest = close → F rest)
    (h : Encloses close (Listing D) left ts as us) :
    headKind us = close ∧ ((headKind ts.tail = close ∧ as = [] ∧ us = ts.tail) ∨
      (headKind ts.tail ≠ close ∧ ∃ a vs found xs, Spans D F ts.tail a vs ∧
        Repeats CommaNext (Gathers D F w) #[w a] vs found xs ∧ us = xs.tail ∧ found.toList = as.map w)) := by
  obtain ⟨ws, right, rest, rfl, rfl, hws, hright⟩ := h
  refine ⟨hright, ?_⟩
  cases hws with
  | none => exact .inl ⟨hright, rfl, rfl⟩
  | some hsep =>
    obtain ⟨a, bs, vs, rfl, ha, hrep⟩ :=
      repeats_of_separated w (fun ts a h => (hD ts a h).1) hcomma hF (right :: rest) hsep hright
    obtain ⟨xs, hxs, htail⟩ := hrep #[w a]
    refine .inr ⟨?_, a, vs, _, xs, ha, hxs, htail.symm, by simp⟩
    obtain ⟨t, ts, rfl, ht⟩ : ∃ t ts, ws = t :: ts ∧ t.kind ≠ close := by
      cases hsep with
      | one h | more h _ _ =>
        obtain ⟨hne, hk⟩ := hD _ _ h
        obtain ⟨t, ts, rfl⟩ := List.exists_cons_of_ne_nil hne
        exact ⟨t, _, rfl, hk⟩
    exact ht

namespace Describes

variable {I : Parser → Prop} {stop : Position} (hI : Stable I)

theorem commaLoop {D : List Token → α → Prop} {F : List Token → Prop} {w : α → β} {step : Array β → Parse (Array β)}
    (hstep : ∀ found, Describes dir I stop (step found) (Phrase (Gathers D F w found))) (found : Array β) :
    Describes dir I stop (Parse.repeatWhile (fun p => p.peek.kind == .comma) step found)
      (Phrase (Repeats CommaNext (Gathers D F w) found)) := by
  refine repeatWhile (μ := fun ts => ts.tail.length + 1) ?_ hstep ?_ ?_ ?_ found
  · intro p ts hr
    rw [beq_iff_eq, hr.peek_kind]
    rfl
  · rintro found ts found' us - ⟨a, ha, -⟩
    have hlt := ha.length_lt
    simp only [List.length_tail] at hlt ⊢
    omega
  · intro ts h
    simp at h
  · intro p ts hr
    exact hr.tail_length_lt_left

include hI

theorem parameters : Describes dir I stop Parse.parameters (Phrase fun ts ids us =>
    ∃ left, Encloses .closeParen (Listing Name) left ts ids us) := by
  have hident : ∀ {ts us : List Token} {id : Ident},
      (us = ts.tail ∧ ∃ t rest, ts.tail = t :: rest ∧ t.kind = .identifier ∧ id = ⟨t, t.value⟩) ↔
        Spans Name (fun _ => True) ts.tail id us := by
    intro ts us id
    constructor
    · intro h
      obtain ⟨rfl, t, rest, hts, ht, rfl⟩ := h
      exact ⟨[], t, rest, hts, hts, .mk ht, trivial⟩
    · intro h
      obtain ⟨vs, t, rest, hts, rfl, hname, -⟩ := h
      cases vs with
      | nil =>
        cases hname with
        | mk ht => exact ⟨hts.symm, t, rest, hts, ht, rfl⟩
      | cons v vs => cases vs <;> cases hname
  have hstep : ∀ found : Array Ident, Describes dir I stop
      (Parse.advance >>= fun _ => Parse.ident >>= fun id => Pure.pure (found.push id))
      (Phrase (Gathers Name (fun _ => True) id found)) := by
    intro found
    refine congr (advance_bind hI <| (ident hI).bind fun id => pure (found.push id)) fun ts a us => ?_
    cases a with
    | none => simp
    | some found' =>
      constructor
      · intro h
        obtain ⟨id, us, h, rfl, rfl⟩ := h
        exact ⟨id, hident.mp h, rfl⟩
      · intro h
        obtain ⟨id, h, rfl⟩ := h
        exact ⟨id, us, hident.mpr h, rfl, rfl⟩
  refine congr (peekIs_bind .closeParen (advance_bind hI (pure [])) <| (ident hI).bind fun first =>
    (commaLoop hstep #[first]).bind fun found => expect_bind hI .closeParen (pure found.toList)) fun ts a us => ?_
  cases a with
  | none => simp
  | some ids =>
    constructor
    · rintro (⟨hk, rfl, rfl⟩ | ⟨-, first, vs, hfirst, found, xs, hrep, hk, rfl, rfl⟩)
      · exact encloses_nil Name (by decide) hk
      · obtain ⟨left, as, h, hfound⟩ := encloses_of_repeats (by decide) (hident.mp hfirst) hrep hk
        exact ⟨left, by rwa [hfound, List.map_id]⟩
    · intro h
      obtain ⟨left, h⟩ := h
      have hname : ∀ ts id, Name ts id → ts ≠ [] ∧ headKind ts ≠ .closeParen := by
        rintro _ _ ⟨ht⟩
        exact ⟨List.cons_ne_nil _ _, by rw [headKind_cons, ht]; decide⟩
      obtain ⟨hus, ⟨hk, rfl, rfl⟩ | ⟨hk, first, vs, found, xs, hfirst, hrep, rfl, hfound⟩⟩ :=
        repeats_of_encloses (F := fun _ => True) id hname (by decide) (fun _ _ => trivial) h
      · exact .inl ⟨hk, rfl, rfl⟩
      · refine .inr ⟨hk, first, vs, hident.mpr hfirst, found, xs, hrep, hus, ?_, rfl⟩
        rw [hfound, List.map_id]

variable {E : List Token → Expr → Prop} (hE : Begins E) {sub : SubExpr}
  (hsub : Describes dir I stop (sub .lowest) (Phrase (Spans E (Follow dir .lowest))))

include hE hsub

theorem items (close : Kind) (hclose : close ∈ Kind.closers) :
    Describes dir I stop (Parse.items sub close) (Phrase fun ts es us =>
      ∃ left, Encloses close (Listing E) left ts es us) := by
  have hstep : ∀ found : Array (Option Expr), Describes dir I stop
      (Parse.advance >>= fun _ => Parse.advance >>= fun _ => Parse.attempt (sub .lowest) >>= fun e =>
        Pure.pure (found.push e)) (Phrase (Gathers E (Follow dir .lowest) some found)) := by
    intro found
    refine congr (advance_bind hI <| advance_bind hI <| attempt_bind hsub fun e => pure (found.push e))
      fun ts a us => ?_
    cases a with
    | none => simp
    | some found' =>
      constructor
      · intro h
        obtain ⟨e, us, he, rfl, rfl⟩ := h
        exact ⟨e, he, rfl⟩
      · intro h
        obtain ⟨e, he, rfl⟩ := h
        exact ⟨e, us, he, rfl, rfl⟩
  refine congr (peekIs_bind close (advance_bind hI (pure [])) <| advance_bind hI <| attempt_bind hsub fun first =>
    (commaLoop hstep #[first]).bind fun found => expect_bind hI close (ofOption (found.toList.mapM id)))
      fun ts a us => ?_
  have hk : close ≠ .eof ∧ close ≠ .comma ∧ close ≠ .elseWord ∧ close.operator? = none ∧ close.operand? = none := by
    cases close <;> simp [Kind.closers] at hclose <;> decide
  obtain ⟨heof, hcomma, helse, hoperator, hoperand⟩ := hk
  cases a with
  | none =>
    constructor
    · rintro (⟨-, h⟩ | ⟨-, e, vs, he, found, xs, hrep, hk, hes, -⟩)
      · exact h
      · obtain ⟨left, as, -, hfound⟩ := encloses_of_repeats heof he hrep hk
        rw [hfound, mapM_id_map_some] at hes
        exact absurd hes (by simp)
    · exact False.elim
  | some es =>
    constructor
    · rintro (⟨hk, rfl, rfl⟩ | ⟨-, e, vs, he, found, xs, hrep, hk, hes, rfl⟩)
      · exact encloses_nil E heof hk
      · obtain ⟨left, as, h, hfound⟩ := encloses_of_repeats heof he hrep hk
        rw [hfound, mapM_id_map_some] at hes
        obtain rfl := Option.some.inj hes
        exact ⟨left, h⟩
    · intro h
      obtain ⟨left, h⟩ := h
      -- One token tells a list without elements, as no element begins with the closing bracket.
      have hfirst : ∀ ts e, E ts e → ts ≠ [] ∧ headKind ts ≠ close := by
        intro ts e h
        obtain ⟨t, vs, rfl, ht⟩ := hE.exists_cons h
        exact ⟨List.cons_ne_nil _ _, fun hc => ht ((congrArg Kind.operand? hc).trans hoperand)⟩
      have hfollow : ∀ rest, headKind rest = .comma ∨ headKind rest = close → Follow dir .lowest rest := by
        rintro rest (hr | hr)
        · exact follow_of_operator?_eq_none (by rw [hr]; rfl) (by rw [hr]; decide)
        · exact follow_of_operator?_eq_none (by rw [hr, hoperator]) (by rwa [hr])
      obtain ⟨hus, ⟨hk, rfl, rfl⟩ | ⟨hk, e, vs, found, xs, he, hrep, rfl, hfound⟩⟩ :=
        repeats_of_encloses some hfirst hcomma hfollow h
      · exact .inl ⟨hk, rfl, rfl⟩
      · refine .inr ⟨hk, e, vs, he, found, xs, hrep, hus, ?_, rfl⟩
        rw [hfound, mapM_id_map_some]

end Describes

/-- An entry up to its comma, or up to its last token where the list ends. -/
def EntrySpan (E : List Token → Expr → Prop) (ts : List Token) (entry : Entry) (us : List Token) : Prop :=
  ∃ left vs t rest, ts = left :: (vs ++ t :: rest) ∧ Pair E (vs ++ [t]) entry ∧
    ((headKind rest = .closeCurly ∧ us = t :: rest) ∨ (headKind rest = .comma ∧ us = rest))

/-- One entry more. -/
def GathersEntry (E : List Token → Expr → Prop) (found : Array (Option Entry)) (ts : List Token)
    (found' : Array (Option Entry)) (us : List Token) : Prop :=
  ∃ entry, EntrySpan E ts entry us ∧ found' = found.push (some entry)

def EntryNext (ts : List Token) : Prop :=
  headKind ts.tail ≠ .closeCurly

theorem EntrySpan.length_lt {E : List Token → Expr → Prop} {ts us : List Token} {entry : Entry}
    (h : EntrySpan E ts entry us) : us.tail.length < ts.tail.length := by
  obtain ⟨left, vs, t, rest, rfl, -, ⟨-, rfl⟩ | ⟨-, rfl⟩⟩ := h <;>
    simp only [List.tail_cons, List.length_tail, List.length_append, List.length_cons] <;> omega

theorem pair_begins {E : List Token → Expr → Prop} (hE : Begins E) {ts : List Token} {entry : Entry}
    (h : Pair E ts entry) : ∃ t vs, ts = t :: vs ∧ t.kind ≠ .closeCurly := by
  obtain ⟨hkey, -, -⟩ := h
  obtain ⟨t, vs, rfl, ht⟩ := hE.exists_cons hkey
  exact ⟨t, _, rfl, fun hk => ht (by rw [hk]; rfl)⟩

theorem pairs_begin {E : List Token → Expr → Prop} (hE : Begins E) {ts : List Token} {entries : List Entry}
    (h : Pairs E ts entries) : ∃ t vs, ts = t :: vs ∧ t.kind ≠ .closeCurly := by
  cases h with
  | one h => exact pair_begins hE h
  | trailing h _ | more h _ _ =>
    obtain ⟨t, vs, rfl, ht⟩ := pair_begins hE h
    exact ⟨t, _, rfl, ht⟩

theorem pairs_of_repeats {E : List Token → Expr → Prop} (hE : Begins E) {found found' : Array (Option Entry)}
    {ts us : List Token} (h : Repeats EntryNext (GathersEntry E) found ts found' us) :
    headKind us.tail = .closeCurly ∧ ∃ ws entries, ts.tail = ws ++ us.tail ∧ PairListing E ws entries ∧
      found' = found ++ entries.map some := by
  induction h with
  | done hnext =>
    have hk : headKind _ = Kind.closeCurly := Decidable.not_not.mp hnext
    exact ⟨hk, [], [], rfl, .none, by simp⟩
  | step _ hG _ ih =>
    obtain ⟨hend, ws, entries, hws, hlist, rfl⟩ := ih
    obtain ⟨entry, ⟨left, vs, t, rest, rfl, hpair, ⟨hk, rfl⟩ | ⟨hk, rfl⟩⟩, rfl⟩ := hG
    · obtain rfl : rest = ws ++ _ := hws
      cases hlist with
      | none => exact ⟨hend, vs ++ [t], [entry], by simp, .some (.one hpair), by simp⟩
      | some hpairs =>
        -- Without a comma there is no further entry.
        obtain ⟨u, ws, rfl, hu⟩ := pairs_begin hE hpairs
        exact absurd hk hu
    · obtain ⟨comma, rest, rfl, hcomma⟩ := exists_cons_of_headKind hk (by decide)
      obtain rfl : rest = ws ++ _ := hws
      cases hlist with
      | none => exact ⟨hend, vs ++ [t] ++ [comma], [entry], by simp, .some (.trailing hpair hcomma), by simp⟩
      | some hpairs =>
        exact ⟨hend, vs ++ [t] ++ comma :: ws, entry :: entries, by simp, .some (.more hpair hcomma hpairs), by simp⟩

theorem repeats_of_pairs {E : List Token → Expr → Prop} (hE : Begins E) {ws : List Token} (rest : List Token)
    {entries : List Entry} (h : Pairs E ws entries) (hrest : headKind rest = .closeCurly) (left : Token)
    (found : Array (Option Entry)) :
    ∃ us, Repeats EntryNext (GathersEntry E) found (left :: (ws ++ rest)) (found ++ entries.map some) us ∧
      us.tail = rest := by
  have hconcat : ∀ {ts entry}, Pair E ts entry → ∃ vs t, ts = vs ++ [t] := by
    intro ts entry hpair
    obtain ⟨t, vs, rfl, -⟩ := pair_begins hE hpair
    exact ⟨_, _, (List.dropLast_concat_getLast (List.cons_ne_nil t vs)).symm⟩
  have hnext : ∀ {ts entry left us}, Pair E ts entry → EntryNext (left :: (ts ++ us)) := by
    intro ts entry left us hpair
    obtain ⟨t, vs, rfl, ht⟩ := pair_begins hE hpair
    exact ht
  induction h generalizing left found with
  | @one ts entry hpair =>
    obtain ⟨vs, t, rfl⟩ := hconcat hpair
    have hG : GathersEntry E found (left :: ((vs ++ [t]) ++ rest)) (found.push (some entry)) (t :: rest) :=
      ⟨entry, ⟨left, vs, t, rest, by simp, hpair, .inl ⟨hrest, rfl⟩⟩, rfl⟩
    exact ⟨t :: rest, .step (hnext hpair) hG (.done (Decidable.not_not.mpr hrest)), rfl⟩
  | @trailing ts entry comma hpair hcomma =>
    obtain ⟨vs, t, rfl⟩ := hconcat hpair
    have hG : GathersEntry E found (left :: ((vs ++ [t]) ++ comma :: rest)) (found.push (some entry)) (comma :: rest) :=
      ⟨entry, ⟨left, vs, t, comma :: rest, by simp, hpair, .inr ⟨hcomma, rfl⟩⟩, rfl⟩
    rw [List.append_assoc]
    exact ⟨comma :: rest, .step (hnext hpair) hG (.done (Decidable.not_not.mpr hrest)), rfl⟩
  | @more ts entry comma us entries hpair hcomma _ ih =>
    obtain ⟨vs, t, rfl⟩ := hconcat hpair
    have hG : GathersEntry E found (left :: ((vs ++ [t]) ++ comma :: (us ++ rest))) (found.push (some entry))
        (comma :: (us ++ rest)) :=
      ⟨entry, ⟨left, vs, t, comma :: (us ++ rest), by simp, hpair, .inr ⟨hcomma, rfl⟩⟩, rfl⟩
    obtain ⟨xs, hxs, htail⟩ := ih comma (found.push (some entry))
    rw [List.append_assoc, List.cons_append, List.map_cons, Array.appendList_cons]
    exact ⟨xs, .step (hnext hpair) hG hxs, htail⟩

namespace Describes

variable {I : Parser → Prop} {stop : Position} (hI : Stable I) {E : List Token → Expr → Prop} (hE : Begins E)
  {sub : SubExpr} (hsub : Describes dir I stop (sub .lowest) (Phrase (Spans E (Follow dir .lowest))))

include hI hE hsub

/-- An expression and the token that has to come behind it. -/
theorem enclosed_bind (close : Kind) (hoperator : close.operator? = none) (heof : close ≠ .eof)
    (helse : close ≠ .elseWord) {f : Option Expr → Parse β}
    {H : Option Expr → List Token → Option β → List Token → Prop} (hf : ∀ o, Describes dir I stop (f o) (H o)) :
    Describes dir I stop
      (Parse.advance >>= fun _ => Parse.attempt (sub .lowest) >>= fun o => Parse.expect close >>= fun _ => f o)
      (fun ts b vs => ∃ left e us, Encloses close E left ts e us ∧ H (some e) us b vs) := by
  refine congr (advance_bind hI <| attempt_bind hsub fun o => expect_bind hI close (hf o)) fun ts b vs => ?_
  constructor
  · intro h
    obtain ⟨e, us, he, hk, hH⟩ := h
    obtain ⟨left, h⟩ := (exists_spans_iff_encloses hE hoperator heof helse).mp ⟨us, he, hk, rfl⟩
    exact ⟨left, e, _, h, hH⟩
  · intro h
    obtain ⟨left, e, us, h, hH⟩ := h
    obtain ⟨vs, he, hk, rfl⟩ := (exists_spans_iff_encloses hE hoperator heof helse).mpr ⟨left, h⟩
    exact ⟨e, vs, he, hk, hH⟩

theorem entry : Describes dir I stop (Parse.entry sub) (Phrase fun ts o us =>
    ∃ entry, o = some entry ∧ EntrySpan E ts entry us) := by
  refine congr (enclosed_bind hI hE hsub .colon rfl (by decide) (by decide) fun key =>
    advance_bind hI <| attempt_bind hsub fun value =>
      peekIs_bind .closeCurly (pure _) <| expect_bind hI .comma (pure (Entry.mk <$> key <*> value))) fun ts a us => ?_
  cases a with
  | none => simp
  | some o =>
    constructor
    · intro h
      obtain ⟨left, k, _, ⟨ks, colon, _, rfl, rfl, hkey, hcolon⟩, v, _, ⟨vs, t, rest, rfl, rfl, hvalue, -⟩, hend⟩ := h
      have hpair : Pair E (ks ++ colon :: (vs ++ [t])) (.mk k v) := .mk hkey hcolon hvalue
      obtain ⟨hk, rfl, rfl⟩ | ⟨-, hk, rfl, rfl⟩ := hend
      · exact ⟨.mk k v, rfl, left, ks ++ colon :: vs, t, rest, by simp, by simpa using hpair, .inl ⟨hk, rfl⟩⟩
      · exact ⟨.mk k v, rfl, left, ks ++ colon :: vs, t, us, by simp, by simpa using hpair, .inr ⟨hk, rfl⟩⟩
    · intro h
      obtain ⟨entry, rfl, left, ws, t, rest, rfl, hpair, hend⟩ := h
      -- The last token of the entry is the last one of its value.
      generalize hws : ws ++ [t] = xs at hpair
      obtain @⟨ks, k, colon, vs, v, hkey, hcolon, hvalue⟩ := hpair
      obtain ⟨vs, u, rfl⟩ := hE.exists_concat hvalue
      obtain ⟨rfl, rfl⟩ : ws = ks ++ colon :: vs ∧ t = u := by
        have hsplit : ws ++ [t] = (ks ++ colon :: vs) ++ [u] := by simpa using hws
        exact ⟨(List.append_inj' hsplit rfl).1, List.singleton_inj.mp (List.append_inj' hsplit rfl).2⟩
      refine ⟨left, k, colon :: (vs ++ t :: rest), ⟨ks, colon, vs ++ t :: rest, by simp, rfl, hkey, hcolon⟩, v,
        t :: rest, ⟨vs, t, rest, rfl, rfl, hvalue, ?_⟩, ?_⟩
      · obtain ⟨hk, -⟩ | ⟨hk, -⟩ := hend <;>
          exact follow_of_operator?_eq_none (by rw [hk]; rfl) (by rw [hk]; decide)
      · obtain ⟨hk, rfl⟩ | ⟨hk, rfl⟩ := hend
        · exact .inl ⟨hk, rfl, rfl⟩
        · exact .inr ⟨by rw [List.tail_cons, hk]; decide, hk, rfl, rfl⟩

theorem hash : Describes dir I stop (Parse.hash sub) (Phrase fun ts e us =>
    ∃ left entries, Encloses .closeCurly (PairListing E) left ts entries us ∧ e = .hash left entries) := by
  have hmore : ∀ (p : Parser) ts, p.Sees stop ts → ((p.peek.kind != .closeCurly) = true ↔ EntryNext ts) := by
    intro p ts hr
    rw [bne_iff_ne, hr.peek_kind]
    rfl
  have hstep : ∀ found : Array (Option Entry), Describes dir I stop
      (Parse.entry sub >>= fun o => Pure.pure (found.push o)) (Phrase (GathersEntry E found)) := by
    intro found
    refine congr ((entry hI hE hsub).bind fun o => pure (found.push o)) fun ts a us => ?_
    cases a with
    | none => simp
    | some found' =>
      constructor
      · intro h
        obtain ⟨_, us, ⟨entry, rfl, h⟩, rfl, rfl⟩ := h
        exact ⟨entry, h, rfl⟩
      · intro h
        obtain ⟨entry, h, rfl⟩ := h
        exact ⟨_, us, ⟨entry, rfl, h⟩, rfl, rfl⟩
  have hloop := repeatWhile (μ := fun ts => ts.tail.length + 1) hmore hstep
    (by
      rintro found ts found' us - ⟨entry, h, -⟩
      exact Nat.succ_lt_succ h.length_lt)
    (fun ts h => absurd h (Nat.succ_ne_zero _)) (fun p ts hr => hr.tail_length_lt_left) #[]
  refine congr (current_bind fun token => hloop.bind fun found => expect_bind hI .closeCurly <|
    ofOption_bind (found.toList.mapM id) fun entries => pure (Expr.hash token entries)) fun ts a us => ?_
  have hvalues : ∀ entries : List Entry,
      ((#[] : Array (Option Entry)) ++ entries.map some).toList.mapM id = some entries := by
    intro entries
    rw [Array.toList_appendList, List.nil_append, mapM_id_map_some]
  constructor
  · intro h
    obtain ⟨found, xs, hrep, hk, h⟩ := h
    obtain ⟨-, ws, entries, hws, hlist, rfl⟩ := pairs_of_repeats hE hrep
    obtain ⟨right, rest, hxs, hright⟩ := exists_cons_of_headKind hk (by decide)
    rw [hxs] at hws
    obtain ⟨left, ts, rfl⟩ : ∃ left ts', ts = left :: ts' := by
      cases ts with
      | nil => simp at hws
      | cons left ts => exact ⟨left, ts, rfl⟩
    obtain rfl : ts = ws ++ right :: rest := hws
    rw [hvalues] at h
    cases a with
    | none => exact h.elim
    | some e =>
      obtain ⟨rfl, rfl⟩ := h
      exact ⟨left, entries, ⟨ws, right, rest, rfl, hxs, hlist, hright⟩, rfl⟩
  · intro h
    cases a with
    | none => exact h.elim
    | some e =>
      obtain ⟨left, entries, ⟨ws, right, rest, rfl, rfl, hlist, hright⟩, rfl⟩ := h
      have hrep : ∃ xs, Repeats EntryNext (GathersEntry E) #[] (left :: (ws ++ right :: rest))
          ((#[] : Array (Option Entry)) ++ entries.map some) xs ∧ xs.tail = right :: rest := by
        cases hlist with
        | none => exact ⟨left :: right :: rest, .done (Decidable.not_not.mpr hright), rfl⟩
        | some hpairs => exact repeats_of_pairs hE (right :: rest) hpairs hright left #[]
      obtain ⟨xs, hrep, htail⟩ := hrep
      refine ⟨_, xs, hrep, by rw [htail, headKind_cons, hright], ?_⟩
      rw [hvalues]
      exact ⟨rfl, htail.symm⟩

end Describes

end Parse

end FrontEnd
