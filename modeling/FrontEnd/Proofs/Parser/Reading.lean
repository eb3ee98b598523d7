import FrontEnd.Proofs.Parser.Step

/-!
What a parsing step reads. `Describes` ties a step to a relation between the tokens before it and the tokens behind it:
a run without a report lands in the relation, and where the relation holds the run is that one, unless the nesting limit
stops it.
-/

namespace FrontEnd

/-- The kind of the first token; behind the last one the stream has ended. -/
def headKind : List Token → Kind
  | [] => .eof
  | t :: _ => t.kind

@[simp] theorem headKind_cons (t : Token) (ts : List Token) : headKind (t :: ts) = t.kind := rfl

@[simp] theorem headD_eof_kind (ts : List Token) (stop : Position) :
    (ts.headD (Token.eof stop)).kind = headKind ts := by
  cases ts <;> rfl

theorem exists_cons_of_headKind {ts : List Token} {k : Kind} (h : headKind ts = k) (hk : k ≠ .eof) :
    ∃ t us, ts = t :: us ∧ t.kind = k := by
  cases ts with
  | nil => exact absurd h.symm hk
  | cons t us => exact ⟨t, us, rfl, h⟩

namespace Parser

/-- From the current token on there are `ts`, which may hold ends of their own; behind them the stream has ended at
`stop`. -/
structure Sees (stop : Position) (ts : List Token) (p : Parser) : Prop where
  current_eq : p.current = ts.headD (Token.eof stop)
  peek_eq : p.peek = ts.tail.headD (Token.eof stop)
  source_eq : p.source = .buffer ⟨ts.tail.tail, stop⟩

/-- From the current token on there are just `ts`; behind them the stream has ended at `stop`. -/
structure Reads (stop : Position) (ts : List Token) (p : Parser) : Prop where
  current_eq : p.current = ts.headD (Token.eof stop)
  peek_eq : p.peek = ts.tail.headD (Token.eof stop)
  source_eq : p.source = .buffer ⟨ts.tail.tail, stop⟩
  free : ∀ t ∈ ts, t.kind ≠ .eof

/-- A report of nesting beyond the limit has been made. -/
def TooDeep (p : Parser) : Prop :=
  ∃ d ∈ p.diagnostics.toList, ∃ limit, d.fault = .nestingTooDeep limit

/-- Reports are only ever added, and an expression is not given up without one. -/
structure Grows (p q : Parser) : Prop where
  limit_eq : q.limit = p.limit
  earlier : p.diagnostics.toList <+: q.diagnostics.toList
  noted : p.overflowed = false → q.overflowed = true → p.diagnostics.size < q.diagnostics.size

variable {stop : Position} {ts : List Token} {p q r : Parser}

theorem Sees.current_kind (h : p.Sees stop ts) : p.current.kind = headKind ts := by
  rw [h.current_eq, headD_eof_kind]

theorem Sees.peek_kind (h : p.Sees stop ts) : p.peek.kind = headKind ts.tail := by
  rw [h.peek_eq, headD_eof_kind]

theorem Sees.advance (h : p.Sees stop ts) : p.advance.Sees stop ts.tail where
  current_eq := h.peek_eq
  peek_eq := by
    show p.source.next.1 = _
    rw [h.source_eq]
    cases ts.tail.tail <;> rfl
  source_eq := by
    show p.source.next.2 = _
    rw [h.source_eq]
    cases ts.tail.tail <;> rfl

theorem Reads.sees (h : p.Reads stop ts) : p.Sees stop ts :=
  ⟨h.current_eq, h.peek_eq, h.source_eq⟩

/-- Where no ends come in between, none do further on. -/
theorem Reads.of_suffix {us : List Token} (h : p.Reads stop ts) (hq : q.Sees stop us) (hsuffix : us <:+ ts) :
    q.Reads stop us :=
  ⟨hq.current_eq, hq.peek_eq, hq.source_eq, fun t ht => h.free t (hsuffix.subset ht)⟩

theorem Reads.current_kind (h : p.Reads stop ts) : p.current.kind = headKind ts :=
  h.sees.current_kind

theorem Reads.peek_kind (h : p.Reads stop ts) : p.peek.kind = headKind ts.tail :=
  h.sees.peek_kind

theorem Reads.advance (h : p.Reads stop ts) : p.advance.Reads stop ts.tail :=
  h.of_suffix h.sees.advance (List.tail_suffix ts)

theorem Sees.length_le_left (h : p.Sees stop ts) : ts.length ≤ p.left := by
  unfold Parser.left
  rw [h.source_eq]
  show ts.length ≤ ts.tail.tail.length + 2
  simp only [List.length_tail]
  omega

theorem Reads.length_le_left (h : p.Reads stop ts) : ts.length ≤ p.left :=
  h.sees.length_le_left

theorem Sees.tail_length_lt_left (h : p.Sees stop ts) : ts.tail.length < p.left := by
  unfold Parser.left
  rw [h.source_eq]
  show ts.tail.length < ts.tail.tail.length + 2
  simp only [List.length_tail]
  omega

theorem Reads.tail_length_lt_left (h : p.Reads stop ts) : ts.tail.length < p.left :=
  h.sees.tail_length_lt_left

theorem Grows.refl (p : Parser) : p.Grows p :=
  ⟨rfl, List.prefix_rfl, fun h h' => by simp [h] at h'⟩

theorem Grows.trans (h : p.Grows q) (h' : q.Grows r) : p.Grows r where
  limit_eq := h'.limit_eq.trans h.limit_eq
  earlier := h.earlier.trans h'.earlier
  noted := by
    intro hp hr
    have hpq : p.diagnostics.size ≤ q.diagnostics.size := by simpa using h.earlier.length_le
    have hqr : q.diagnostics.size ≤ r.diagnostics.size := by simpa using h'.earlier.length_le
    cases hq : q.overflowed with
    | true => exact Nat.lt_of_lt_of_le (h.noted hp hq) hqr
    | false => exact Nat.lt_of_le_of_lt hpq (h'.noted hq hr)

/-- Without a report in all, there was none on the way. -/
theorem Grows.quiet_left (h : p.Grows q) (h' : q.Grows r) (hr : r.diagnostics = p.diagnostics) :
    q.diagnostics = p.diagnostics := by
  have hle : q.diagnostics.toList.length ≤ p.diagnostics.toList.length := by
    simpa only [hr] using h'.earlier.length_le
  exact Array.toList_inj.mp (h.earlier.eq_of_length_le hle).symm

theorem Grows.calm (h : p.Grows q) (hp : p.overflowed = false) (hq : q.diagnostics = p.diagnostics) :
    q.overflowed = false := by
  cases ho : q.overflowed with
  | false => rfl
  | true => exact absurd (h.noted hp ho) (by simp [hq])

theorem tooDeep_congr (h : p.diagnostics = q.diagnostics) : p.TooDeep ↔ q.TooDeep := by
  unfold TooDeep
  rw [h]

theorem Grows.tooDeep (h : p.Grows q) (hp : p.TooDeep) : q.TooDeep := by
  obtain ⟨d, hd, hl⟩ := hp
  exact ⟨d, h.earlier.subset hd, hl⟩

theorem grows_advance (p : Parser) : p.Grows p.advance :=
  ⟨rfl, List.prefix_rfl, fun h h' => by simp [advance, h] at h'⟩

theorem grows_report (d : Diagnostic) (p : Parser) : p.Grows (p.report d) := by
  unfold report
  split
  · exact Grows.refl p
  · refine ⟨rfl, by simp, fun h h' => ?_⟩
    simp [h] at h'

theorem grows_deeper (p : Parser) : p.Grows p.deeper :=
  ⟨rfl, List.prefix_rfl, fun h h' => absurd (h.symm.trans h') (by decide)⟩

theorem grows_gaveUp (p : Parser) : p.Grows p.gaveUp :=
  ⟨rfl, by simp [gaveUp], fun _ _ => by simp [gaveUp]⟩

theorem grows_unwind (p : Parser) (depth : Nat) : p.Grows (p.unwind depth) where
  limit_eq := p.unwind_limit depth
  earlier := (p.unwind_diagnostics depth).symm ▸ List.prefix_rfl
  noted := by
    intro h h'
    exact absurd (h.symm.trans ((p.unwind_overflowed depth).mp h').2) (by decide)

theorem tooDeep_gaveUp (p : Parser) : p.gaveUp.TooDeep :=
  ⟨⟨.nestingTooDeep p.limit, p.current.span.start⟩, by simp [gaveUp], p.limit, rfl⟩

theorem diagnostics_gaveUp_ne (p : Parser) : p.gaveUp.diagnostics ≠ p.diagnostics := by
  intro h
  exact absurd (congrArg Array.size h) (by simp [gaveUp])

theorem report_of_calm (d : Diagnostic) (h : p.overflowed = false) :
    (p.report d).diagnostics = p.diagnostics.push d := by
  simp [report, h]

end Parser

namespace Parse

variable {α β σ : Type}

/-- What a step that always succeeds lands in. -/
def Phrase (G : List Token → α → List Token → Prop) : List Token → Option α → List Token → Prop
  | ts, some a, us => G ts a us
  | _, none, _ => False

@[simp] theorem phrase_some {G : List Token → α → List Token → Prop} {ts us : List Token} {a : α} :
    Phrase G ts (some a) us ↔ G ts a us := Iff.rfl

@[simp] theorem phrase_none {G : List Token → α → List Token → Prop} {ts us : List Token} :
    Phrase G ts none us ↔ False := Iff.rfl

/-- What a relation says of a step: where its runs land, or what its runs have to be. -/
inductive Direction
  | sound | complete

/-- The step from one relation to another that a direction allows. -/
def Leads (dir : Direction) (a b : Prop) : Prop :=
  (dir = .sound → a → b) ∧ (dir = .complete → b → a)

theorem Leads.of_iff {dir : Direction} {a b : Prop} (h : a ↔ b) : Leads dir a b :=
  ⟨fun _ => h.mp, fun _ => h.mpr⟩

/-- Within the states `I`, a run without a report that goes from tokens `ts` to tokens `us` with a result `a` lands in
`G ts a us`. In the other direction, where `G ts a us` holds the run is that one, unless it is too deep. -/
structure Describes (dir : Direction) (I : Parser → Prop) (stop : Position) (x : Parse α)
    (G : List Token → Option α → List Token → Prop) : Prop where
  keeps : ∀ p : Parser, I p → I (x p).2
  grows : ∀ p : Parser, p.Grows (x p).2
  lands : dir = .sound → ∀ (p : Parser) ts, I p → p.overflowed = false → p.Sees stop ts →
    (x p).2.diagnostics = p.diagnostics → ∃ us, us <:+ ts ∧ (x p).2.Sees stop us ∧ G ts (x p).1 us
  meets : dir = .complete → ∀ (p : Parser) ts a us, I p → p.overflowed = false → p.Sees stop ts → G ts a us →
    (x p).2.TooDeep ∨
      ((x p).1 = a ∧ us <:+ ts ∧ (x p).2.Sees stop us ∧ (x p).2.diagnostics = p.diagnostics)

/-- A step that goes on for as long as `M` holds of the tokens before it. -/
inductive Repeats (M : List Token → Prop) (G : σ → List Token → σ → List Token → Prop) :
    σ → List Token → σ → List Token → Prop
  | done {s ts} : ¬M ts → Repeats M G s ts s ts
  | step {s ts s₁ ts₁ s₂ ts₂} : M ts → G s ts s₁ ts₁ → Repeats M G s₁ ts₁ s₂ ts₂ → Repeats M G s ts s₂ ts₂

/-- The first rounds of such a step. -/
inductive Rounds (M : List Token → Prop) (G : σ → List Token → σ → List Token → Prop) :
    σ → List Token → σ → List Token → Prop
  | none {s ts} : Rounds M G s ts s ts
  | more {s ts s₁ ts₁ s₂ ts₂} : Rounds M G s ts s₁ ts₁ → M ts₁ → G s₁ ts₁ s₂ ts₂ → Rounds M G s ts s₂ ts₂

theorem Rounds.first {M : List Token → Prop} {G : σ → List Token → σ → List Token → Prop} {s s₁ s₂ : σ}
    {ts ts₁ ts₂ : List Token} (hM : M ts) (hG : G s ts s₁ ts₁) (h : Rounds M G s₁ ts₁ s₂ ts₂) :
    Rounds M G s ts s₂ ts₂ := by
  induction h with
  | none => exact .more .none hM hG
  | more _ hM' hG' ih => exact .more ih hM' hG'

theorem Repeats.rounds {M : List Token → Prop} {G : σ → List Token → σ → List Token → Prop} {s s' : σ}
    {ts us : List Token} (h : Repeats M G s ts s' us) : Rounds M G s ts s' us ∧ ¬M us := by
  induction h with
  | done hM => exact ⟨.none, hM⟩
  | step hM hG _ ih => exact ⟨.first hM hG ih.1, ih.2⟩

theorem Rounds.repeats {M : List Token → Prop} {G : σ → List Token → σ → List Token → Prop} {s s₁ s₂ : σ}
    {ts ts₁ ts₂ : List Token} (h : Rounds M G s ts s₁ ts₁) (hrest : Repeats M G s₁ ts₁ s₂ ts₂) :
    Repeats M G s ts s₂ ts₂ := by
  induction h with
  | none => exact hrest
  | more _ hM hG ih => exact ih (.step hM hG hrest)

/-- States that moving on and reporting do not leave. -/
structure Stable (I : Parser → Prop) : Prop where
  advance : ∀ p : Parser, I p → I p.advance
  report : ∀ (d : Diagnostic) (p : Parser), I p → I (p.report d)

namespace Describes

variable {dir : Direction} {I : Parser → Prop} {stop : Position}

/-- Where no ends come in between, none do behind the step. -/
theorem sound {x : Parse α} {G : List Token → Option α → List Token → Prop} (h : Describes dir I stop x G)
    (hdir : dir = .sound) (p : Parser) (ts : List Token) (hp : I p) (ho : p.overflowed = false) (hr : p.Reads stop ts)
    (hd : (x p).2.diagnostics = p.diagnostics) : ∃ us, (x p).2.Reads stop us ∧ G ts (x p).1 us := by
  obtain ⟨us, hsuffix, hus, hG⟩ := h.lands hdir p ts hp ho hr.sees hd
  exact ⟨us, hr.of_suffix hus hsuffix, hG⟩

theorem complete {x : Parse α} {G : List Token → Option α → List Token → Prop} (h : Describes dir I stop x G)
    (hdir : dir = .complete) (p : Parser) (ts : List Token) (a : Option α) (us : List Token) (hp : I p)
    (ho : p.overflowed = false) (hr : p.Reads stop ts) (hG : G ts a us) :
    (x p).2.TooDeep ∨ ((x p).1 = a ∧ (x p).2.Reads stop us ∧ (x p).2.diagnostics = p.diagnostics) :=
  (h.meets hdir p ts a us hp ho hr.sees hG).imp_right fun ⟨ha, hsuffix, hus, hd⟩ => ⟨ha, hr.of_suffix hus hsuffix, hd⟩

theorem shift {x : Parse α} {G H : List Token → Option α → List Token → Prop} (h : Describes dir I stop x G)
    (hGH : ∀ ts a us, Leads dir (G ts a us) (H ts a us)) : Describes dir I stop x H where
  keeps := h.keeps
  grows := h.grows
  lands hdir p ts hp ho hr hd := by
    obtain ⟨us, hsuffix, hus, hG⟩ := h.lands hdir p ts hp ho hr hd
    exact ⟨us, hsuffix, hus, (hGH ts _ us).1 hdir hG⟩
  meets hdir p ts a us hp ho hr hH := h.meets hdir p ts a us hp ho hr ((hGH ts a us).2 hdir hH)

theorem congr {x : Parse α} {G H : List Token → Option α → List Token → Prop} (h : Describes dir I stop x G)
    (hGH : ∀ ts a us, G ts a us ↔ H ts a us) : Describes dir I stop x H :=
  h.shift fun ts a us => .of_iff (hGH ts a us)

theorem pure (a : α) : Describes dir I stop (Pure.pure a : Parse α) (Phrase fun ts b us => b = a ∧ us = ts) where
  keeps p hp := hp
  grows p := Parser.Grows.refl p
  lands _ p ts _ _ hr _ := ⟨ts, List.suffix_rfl, hr, rfl, rfl⟩
  meets _ p ts b us _ _ hr hG := by
    cases b with
    | none => exact hG.elim
    | some b =>
      obtain ⟨rfl, rfl⟩ := hG
      exact .inr ⟨rfl, List.suffix_rfl, hr, rfl⟩

theorem ofOption (o : Option α) : Describes dir I stop (Parse.ofOption o) (fun ts a us => a = o ∧ us = ts) where
  keeps p hp := hp
  grows p := Parser.Grows.refl p
  lands _ p ts _ _ hr _ := ⟨ts, List.suffix_rfl, hr, rfl, rfl⟩
  meets _ p ts b us _ _ hr hG := by
    obtain ⟨rfl, rfl⟩ := hG
    exact .inr ⟨rfl, List.suffix_rfl, hr, rfl⟩

theorem fail : Describes dir I stop (Parse.fail : Parse α) (fun ts a us => a = none ∧ us = ts) :=
  ofOption none

theorem view (f : Parser → α) (g : List Token → α) (hf : ∀ p ts, p.Sees stop ts → f p = g ts) :
    Describes dir I stop (Parse.view f) (Phrase fun ts a us => a = g ts ∧ us = ts) where
  keeps p hp := hp
  grows p := Parser.Grows.refl p
  lands _ p ts _ _ hr _ := ⟨ts, List.suffix_rfl, hr, hf p ts hr, rfl⟩
  meets _ p ts b us _ _ hr hG := by
    cases b with
    | none => exact hG.elim
    | some b =>
      obtain ⟨rfl, rfl⟩ := hG
      exact .inr ⟨congrArg some (hf p us hr), List.suffix_rfl, hr, rfl⟩

theorem current : Describes dir I stop Parse.current (Phrase fun ts t us => t = ts.headD (Token.eof stop) ∧ us = ts) :=
  view _ _ fun _ _ h => h.current_eq

theorem currentIs (k : Kind) :
    Describes dir I stop (Parse.currentIs k) (Phrase fun ts b us => b = decide (headKind ts = k) ∧ us = ts) :=
  view _ _ fun _ _ h => h.current_kind ▸ rfl

theorem peekIs (k : Kind) :
    Describes dir I stop (Parse.peekIs k) (Phrase fun ts b us => b = decide (headKind ts.tail = k) ∧ us = ts) :=
  view _ _ fun _ _ h => h.peek_kind ▸ rfl

theorem advance (hI : Stable I) : Describes dir I stop Parse.advance (Phrase fun ts _ us => us = ts.tail) where
  keeps p hp := hI.advance p hp
  grows p := p.grows_advance
  lands _ p ts _ _ hr _ := ⟨ts.tail, List.tail_suffix ts, hr.advance, rfl⟩
  meets _ p ts b us _ _ hr hG := by
    cases b with
    | none => exact hG.elim
    | some b =>
      obtain rfl : us = ts.tail := hG
      exact .inr ⟨rfl, List.tail_suffix ts, hr.advance, rfl⟩

/-- Where a report is made, there is no run without one. -/
theorem report (hI : Stable I) (d : Diagnostic) :
    Describes dir I stop (Parse.report d) (Phrase fun _ _ _ => False) where
  keeps p hp := hI.report d p hp
  grows p := p.grows_report d
  lands _ p ts _ ho _ hd := by
    have hs : (p.report d).diagnostics = p.diagnostics.push d := p.report_of_calm d ho
    have he : p.diagnostics.push d = p.diagnostics := hs.symm.trans hd
    exact absurd (congrArg Array.size he) (by simp)
  meets _ p ts b us _ _ _ hG := by
    cases b <;> exact hG.elim

theorem expect (hI : Stable I) (k : Kind) :
    Describes dir I stop (Parse.expect k) (Phrase fun ts _ us => headKind ts.tail = k ∧ us = ts.tail) where
  keeps p hp := by
    obtain ⟨-, h⟩ | ⟨-, h⟩ := expect_cases k p <;> rw [h]
    · exact hI.advance p hp
    · exact hI.report _ p hp
  grows p := by
    obtain ⟨-, h⟩ | ⟨-, h⟩ := expect_cases k p <;> rw [h]
    · exact p.grows_advance
    · exact p.grows_report _
  lands _ p ts _ ho hr hd := by
    obtain ⟨hk, h⟩ | ⟨-, h⟩ := expect_cases k p <;> rw [h] at hd ⊢
    · exact ⟨ts.tail, List.tail_suffix ts, hr.advance, hr.peek_kind.symm.trans hk, rfl⟩
    · have he := (p.report_of_calm _ ho).symm.trans hd
      exact absurd (congrArg Array.size he) (by simp)
  meets _ p ts b us _ _ hr hG := by
    cases b with
    | none => exact hG.elim
    | some b =>
      obtain ⟨hk, rfl⟩ := hG
      obtain ⟨-, h⟩ | ⟨hn, -⟩ := expect_cases k p
      · rw [h]
        exact .inr ⟨rfl, List.tail_suffix ts, hr.advance, rfl⟩
      · exact absurd (hr.peek_kind.trans hk) hn

/-- Without a report there is a value to go on with. -/
theorem attempt {x : Parse α} {G : List Token → α → List Token → Prop} (hx : Describes dir I stop x (Phrase G)) :
    Describes dir I stop (Parse.attempt x) (Phrase fun ts o us => ∃ a, o = some a ∧ G ts a us) where
  keeps p hp := hx.keeps p hp
  grows p := hx.grows p
  lands hdir p ts hp ho hr hd := by
    obtain ⟨us, hsuffix, hus, hG⟩ := hx.lands hdir p ts hp ho hr hd
    refine ⟨us, hsuffix, hus, ?_⟩
    show ∃ a, (x p).1 = some a ∧ G ts a us
    cases h : (x p).1 with
    | none => exact (h ▸ hG : Phrase G ts none us).elim
    | some a => exact ⟨a, rfl, (h ▸ hG : Phrase G ts (some a) us)⟩
  meets hdir p ts b us hp ho hr hG := by
    cases b with
    | none => exact hG.elim
    | some b =>
      obtain ⟨a, rfl, hG⟩ := hG
      obtain h | ⟨ha, hrest⟩ := hx.meets hdir p ts (some a) us hp ho hr hG
      · exact .inl h
      · exact .inr ⟨congrArg some ha, hrest⟩

theorem bind {x : Parse α} {f : α → Parse β} {G : List Token → α → List Token → Prop}
    {H : α → List Token → Option β → List Token → Prop} (hx : Describes dir I stop x (Phrase G))
    (hf : ∀ a, Describes dir I stop (f a) (H a)) :
    Describes dir I stop (x >>= f) (fun ts b vs => ∃ a us, G ts a us ∧ H a us b vs) where
  keeps p hp := by
    have hq := hx.keeps p hp
    rw [bind_apply]
    split <;> rename_i h <;> rw [h] at hq
    · exact (hf _).keeps _ hq
    · exact hq
  grows p := by
    have hq := hx.grows p
    rw [bind_apply]
    split <;> rename_i h <;> rw [h] at hq
    · exact hq.trans ((hf _).grows _)
    · exact hq
  lands hdir p ts hp ho hr hd := by
    have hI := hx.keeps p hp
    have hg := hx.grows p
    have hs := hx.lands hdir p ts hp ho hr
    rw [bind_apply] at hd ⊢
    split at hd <;> rename_i a q h <;> rw [h] at hI hg hs
    · have hq := hg.quiet_left ((hf a).grows q) hd
      obtain ⟨us, hsuffix, hus, hG⟩ := hs hq
      obtain ⟨vs, hsuffix', hvs, hH⟩ := (hf a).lands hdir q us hI (hg.calm ho hq) hus (hd.trans hq.symm)
      exact ⟨vs, hsuffix'.trans hsuffix, hvs, a, us, hG, hH⟩
    · obtain ⟨us, -, -, hG⟩ := hs hd
      exact hG.elim
  meets hdir p ts b vs hp ho hr hG := by
    obtain ⟨a, us, hG, hH⟩ := hG
    have hI := hx.keeps p hp
    have hg := hx.grows p
    have hc := hx.meets hdir p ts (some a) us hp ho hr hG
    rw [bind_apply]
    split <;> rename_i q h <;> rw [h] at hI hg hc
    · obtain hc | ⟨ha, hsuffix, hus, hq⟩ := hc
      · exact .inl (((hf _).grows q).tooDeep hc)
      · obtain rfl := Option.some.inj ha
        obtain hd | ⟨hb, hsuffix', hvs, hd⟩ := (hf _).meets hdir q us b vs hI (hg.calm ho hq) hus hH
        · exact .inl hd
        · exact .inr ⟨hb, hsuffix'.trans hsuffix, hvs, hd.trans hq⟩
    · obtain hc | ⟨ha, -⟩ := hc
      · exact .inl hc
      · exact absurd ha (by simp)

theorem current_bind {f : Token → Parse β} {H : Token → List Token → Option β → List Token → Prop}
    (hf : ∀ t, Describes dir I stop (f t) (H t)) :
    Describes dir I stop (Parse.current >>= f) (fun ts => H (ts.headD (Token.eof stop)) ts) := by
  refine (current.bind hf).congr fun ts b us => ⟨?_, fun h => ⟨_, _, ⟨rfl, rfl⟩, h⟩⟩
  intro h
  obtain ⟨t, vs, ⟨rfl, rfl⟩, h⟩ := h
  exact h

/-- Where the current token decides what follows, each case need only be right for the tokens that begin with it. -/
theorem current_dispatch {f : Token → Parse β} {G : List Token → Option β → List Token → Prop}
    (hf : ∀ t, ∃ H, Describes dir I stop (f t) H ∧
      ∀ ts b us, ts.headD (Token.eof stop) = t → (H ts b us ↔ G ts b us)) :
    Describes dir I stop (Parse.current >>= f) G := by
  refine (current_bind fun t => (hf t).choose_spec.1).congr fun ts b us => ?_
  exact (hf (ts.headD (Token.eof stop))).choose_spec.2 ts b us rfl

theorem test_bind {x : Parse Bool} {P : List Token → Prop} [DecidablePred P]
    (hx : Describes dir I stop x (Phrase fun ts b us => b = decide (P ts) ∧ us = ts)) {f : Bool → Parse β}
    {G H : List Token → Option β → List Token → Prop} (ht : Describes dir I stop (f true) G)
    (hf : Describes dir I stop (f false) H) :
    Describes dir I stop (x >>= f) (fun ts b us => (P ts ∧ G ts b us) ∨ (¬P ts ∧ H ts b us)) := by
  have hb : ∀ b, Describes dir I stop (f b) (fun ts a us => (b = true ∧ G ts a us) ∨ (b = false ∧ H ts a us)) := by
    intro b
    cases b with
    | true => exact ht.congr (by simp)
    | false => exact hf.congr (by simp)
  refine (hx.bind hb).congr fun ts b us => ⟨?_, ?_⟩
  · intro h
    obtain ⟨_, vs, ⟨rfl, rfl⟩, h⟩ := h
    simpa using h
  · intro h
    exact ⟨_, ts, ⟨rfl, rfl⟩, by simpa using h⟩

theorem peekIs_bind (k : Kind) {f : Bool → Parse β} {G H : List Token → Option β → List Token → Prop}
    (ht : Describes dir I stop (f true) G) (hf : Describes dir I stop (f false) H) :
    Describes dir I stop (Parse.peekIs k >>= f)
      (fun ts b us => (headKind ts.tail = k ∧ G ts b us) ∨ (headKind ts.tail ≠ k ∧ H ts b us)) :=
  (peekIs k).test_bind ht hf

theorem currentIs_bind (k : Kind) {f : Bool → Parse β} {G H : List Token → Option β → List Token → Prop}
    (ht : Describes dir I stop (f true) G) (hf : Describes dir I stop (f false) H) :
    Describes dir I stop (Parse.currentIs k >>= f)
      (fun ts b us => (headKind ts = k ∧ G ts b us) ∨ (headKind ts ≠ k ∧ H ts b us)) :=
  (currentIs k).test_bind ht hf

variable (hI : Stable I)
include hI

theorem advance_bind {f : Unit → Parse β} {H : List Token → Option β → List Token → Prop}
    (hf : Describes dir I stop (f ()) H) : Describes dir I stop (Parse.advance >>= f) (fun ts => H ts.tail) := by
  refine ((advance hI).bind fun _ => hf).congr fun ts b us => ⟨?_, fun h => ⟨(), _, rfl, h⟩⟩
  intro h
  obtain ⟨_, vs, rfl, h⟩ := h
  exact h

theorem expect_bind (k : Kind) {f : Unit → Parse β} {H : List Token → Option β → List Token → Prop}
    (hf : Describes dir I stop (f ()) H) :
    Describes dir I stop (Parse.expect k >>= f) (fun ts b us => headKind ts.tail = k ∧ H ts.tail b us) := by
  refine ((expect hI k).bind fun _ => hf).congr fun ts b us => ⟨?_, fun h => ⟨(), _, ⟨h.1, rfl⟩, h.2⟩⟩
  intro h
  obtain ⟨_, vs, ⟨hk, rfl⟩, h⟩ := h
  exact ⟨hk, h⟩

omit hI

theorem attempt_bind {x : Parse α} {f : Option α → Parse β} {G : List Token → α → List Token → Prop}
    {H : Option α → List Token → Option β → List Token → Prop} (hx : Describes dir I stop x (Phrase G))
    (hf : ∀ o, Describes dir I stop (f o) (H o)) :
    Describes dir I stop (Parse.attempt x >>= f) (fun ts b vs => ∃ a us, G ts a us ∧ H (some a) us b vs) := by
  refine (hx.attempt.bind hf).congr fun ts b vs => ⟨?_, ?_⟩
  · intro h
    obtain ⟨_, us, ⟨a, rfl, hG⟩, hH⟩ := h
    exact ⟨a, us, hG, hH⟩
  · intro h
    obtain ⟨a, us, hG, hH⟩ := h
    exact ⟨_, us, ⟨a, rfl, hG⟩, hH⟩

theorem ofOption_bind (o : Option α) {f : α → Parse β} {H : α → List Token → Option β → List Token → Prop}
    (hf : ∀ a, Describes dir I stop (f a) (H a)) :
    Describes dir I stop (Parse.ofOption o >>= f) (fun ts b us =>
      match o with
      | some a => H a ts b us
      | none => b = none ∧ us = ts) := by
  cases o with
  | none => exact fail
  | some a => exact hf a

section Loop

variable {more : Parser → Bool} {step : σ → Parse σ} {M : List Token → Prop}
  {G : σ → List Token → σ → List Token → Prop} {μ : List Token → Nat}

theorem repeatWithin_keeps (hstep : ∀ s, Describes dir I stop (step s) (Phrase (G s))) (n : Nat) (s : σ) (p : Parser)
    (hp : I p) : I (Parse.repeatWithin more step n s p).2 := by
  induction n generalizing s p with
  | zero => exact hp
  | succ n ih =>
    have hk := (hstep s).keeps p hp
    obtain ⟨-, h⟩ | ⟨s₁, q, -, he, h⟩ | ⟨q, -, he, h⟩ := repeatWithin_cases more step n s p
    · exact h ▸ hp
    · rw [he] at hk
      exact h ▸ ih s₁ q hk
    · rw [he] at hk
      exact h ▸ hk

theorem repeatWithin_grows (hstep : ∀ s, Describes dir I stop (step s) (Phrase (G s))) (n : Nat) (s : σ) (p : Parser) :
    p.Grows (Parse.repeatWithin more step n s p).2 := by
  induction n generalizing s p with
  | zero => exact Parser.Grows.refl p
  | succ n ih =>
    have hg := (hstep s).grows p
    obtain ⟨-, h⟩ | ⟨s₁, q, -, he, h⟩ | ⟨q, -, he, h⟩ := repeatWithin_cases more step n s p
    · exact h ▸ Parser.Grows.refl p
    · rw [he] at hg
      exact h ▸ hg.trans (ih s₁ q)
    · rw [he] at hg
      exact h ▸ hg

variable (hmore : ∀ (p : Parser) ts, p.Sees stop ts → (more p = true ↔ M ts))
  (hstep : ∀ s, Describes dir I stop (step s) (Phrase (G s)))
  (hμ : ∀ s ts s' us, M ts → G s ts s' us → μ us < μ ts)

include hmore hstep hμ

/-- The loop comes through every round that the relation has, unless it gets too deep. The measure `μ` bounds how often
the step can still be taken, so a large enough bound is never used up. -/
theorem repeatWithin_rounds (hdir : dir = .complete) (n : Nat) {s : σ} (p : Parser) {ts : List Token} (hp : I p)
    (ho : p.overflowed = false) (hr : p.Sees stop ts) (hn : μ ts ≤ n) {s' : σ} {us : List Token}
    (hG : Rounds M G s ts s' us) :
    (Parse.repeatWithin more step n s p).2.TooDeep ∨
      ∃ m q, Parse.repeatWithin more step n s p = Parse.repeatWithin more step m s' q ∧ I q ∧ q.overflowed = false ∧
        us <:+ ts ∧ q.Sees stop us ∧ μ us ≤ m ∧ q.diagnostics = p.diagnostics := by
  induction hG with
  | none => exact .inr ⟨n, p, rfl, hp, ho, List.suffix_rfl, hr, hn, rfl⟩
  | @more s₁ ts₁ s₂ ts₂ _ hM hG ih =>
    rcases ih with hdeep | ⟨m, q, heq, hq, hcalm, hsuffix, hus, hm, hd⟩
    · exact .inl hdeep
    · have hlt := hμ s₁ ts₁ s₂ ts₂ hM hG
      cases m with
      | zero => omega
      | succ m =>
        have hk := (hstep s₁).keeps q hq
        have hg := (hstep s₁).grows q
        have hc := (hstep s₁).meets hdir q ts₁ (some s₂) ts₂ hq hcalm hus hG
        obtain ⟨hno, -⟩ | ⟨s₁', r, -, he, h⟩ | ⟨r, -, he, h⟩ := repeatWithin_cases more step m s₁ q
        · simp [(hmore q ts₁ hus).mpr hM] at hno
        · rw [he] at hk hg hc
          rw [heq, h]
          obtain hc | ⟨ha, hsuffix', hvs, hdr⟩ := hc
          · exact .inl ((repeatWithin_grows hstep m s₁' r).tooDeep hc)
          · obtain rfl := Option.some.inj ha
            exact .inr ⟨m, r, rfl, hk, hg.calm hcalm hdr, hsuffix'.trans hsuffix, hvs, by omega, hdr.trans hd⟩
        · rw [he] at hc
          rw [heq, h]
          obtain hc | ⟨ha, -⟩ := hc
          · exact .inl hc
          · exact absurd ha (by simp)

theorem repeatWithin_complete (hdir : dir = .complete) (n : Nat) {s : σ} (p : Parser) {ts : List Token} (hp : I p)
    (ho : p.overflowed = false) (hr : p.Sees stop ts) (hn : μ ts ≤ n) {s' : σ} {us : List Token}
    (hG : Repeats M G s ts s' us) :
    (Parse.repeatWithin more step n s p).2.TooDeep ∨
      ((Parse.repeatWithin more step n s p).1 = some s' ∧ us <:+ ts ∧
        (Parse.repeatWithin more step n s p).2.Sees stop us ∧
        (Parse.repeatWithin more step n s p).2.diagnostics = p.diagnostics) := by
  obtain ⟨hrounds, hdone⟩ := hG.rounds
  rcases repeatWithin_rounds hmore hstep hμ hdir n p hp ho hr hn hrounds with
    hdeep | ⟨m, q, heq, -, -, hsuffix, hus, -, hd⟩
  · exact .inl hdeep
  · have hend : Parse.repeatWithin more step m s' q = (some s', q) := by
      cases m with
      | zero => rfl
      | succ m =>
        obtain ⟨-, h⟩ | ⟨_, _, hm, _⟩ | ⟨_, hm, _⟩ := repeatWithin_cases more step m s' q
        · exact h
        · exact absurd ((hmore q us hus).mp hm) hdone
        · exact absurd ((hmore q us hus).mp hm) hdone
    rw [heq, hend]
    exact .inr ⟨rfl, hsuffix, hus, hd⟩

variable (h0 : ∀ ts, μ ts = 0 → ¬M ts)

include h0

theorem repeatWithin_sound (hdir : dir = .sound) (n : Nat) (s : σ) (p : Parser) (ts : List Token) (hp : I p)
    (ho : p.overflowed = false) (hr : p.Sees stop ts) (hn : μ ts ≤ n)
    (hd : (Parse.repeatWithin more step n s p).2.diagnostics = p.diagnostics) :
    ∃ us, us <:+ ts ∧ (Parse.repeatWithin more step n s p).2.Sees stop us ∧
      Phrase (Repeats M G s) ts (Parse.repeatWithin more step n s p).1 us := by
  induction n generalizing s p ts with
  -- Out of rounds, the measure is used up as well, so the loop would have stopped here.
  | zero => exact ⟨ts, List.suffix_rfl, hr, .done (h0 ts (Nat.le_zero.mp hn))⟩
  | succ n ih =>
    have hk := (hstep s).keeps p hp
    have hg := (hstep s).grows p
    have hs := (hstep s).lands hdir p ts hp ho hr
    obtain ⟨hm, h⟩ | ⟨s₁, q, hm, he, h⟩ | ⟨q, hm, he, h⟩ := repeatWithin_cases more step n s p <;> rw [h] at hd ⊢
    · exact ⟨ts, List.suffix_rfl, hr, .done fun hM => by simp [(hmore p ts hr).mpr hM] at hm⟩
    · rw [he] at hk hg hs
      have hM := (hmore p ts hr).mp hm
      -- Nothing is reported in the end, so nothing was in the first round.
      have hq := hg.quiet_left (repeatWithin_grows hstep n s₁ q) hd
      obtain ⟨us, hsuffix, hus, hG⟩ := hs hq
      have hlt := hμ s ts s₁ us hM hG
      obtain ⟨vs, hsuffix', hvs, hrep⟩ := ih s₁ q us hk (hg.calm ho hq) hus (by omega) (hd.trans hq.symm)
      refine ⟨vs, hsuffix'.trans hsuffix, hvs, ?_⟩
      cases hout : (Parse.repeatWithin more step n s₁ q).1 with
      | none => exact (hout ▸ hrep : Phrase (Repeats M G s₁) us none vs).elim
      | some s₂ => exact .step hM hG (hout ▸ hrep : Phrase (Repeats M G s₁) us (some s₂) vs)
    · rw [he] at hs
      obtain ⟨us, -, -, hG⟩ := hs hd
      exact hG.elim

theorem repeatWhile (hleft : ∀ (p : Parser) ts, p.Sees stop ts → μ ts ≤ p.left) (s : σ) :
    Describes dir I stop (Parse.repeatWhile more step s) (Phrase (Repeats M G s)) where
  keeps p hp := repeatWithin_keeps hstep p.left s p hp
  grows p := repeatWithin_grows hstep p.left s p
  lands hdir p ts hp ho hr hd := repeatWithin_sound hmore hstep hμ h0 hdir p.left s p ts hp ho hr (hleft p ts hr) hd
  meets hdir p ts b us hp ho hr hG := by
    cases b with
    | none => exact hG.elim
    | some s' => exact repeatWithin_complete hmore hstep hμ hdir p.left p hp ho hr (hleft p ts hr) hG

end Loop

end Describes

end Parse

end FrontEnd
