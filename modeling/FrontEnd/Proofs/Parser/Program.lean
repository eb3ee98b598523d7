import FrontEnd.Parser.Program
import FrontEnd.Proofs.Parser.Expr

/-!
Parsing against the grammar: a parse without diagnostics returns a tree that the tokens spell, and tokens that spell a
tree are parsed to it unless they nest too deep.
-/

namespace FrontEnd

open Grammar

/-- States in which at most `n` expressions more fit inside one another. -/
structure Parser.Ready (limit n : Nat) (p : Parser) : Prop where
  limit_eq : p.limit = limit
  room : limit < p.depth + n
  within : p.overflowed = false → p.depth ≤ p.limit

namespace Parser

variable {limit n : Nat} {stop : Position} {ts : List Token} {p q : Parser}

theorem Ready.unwind (hp : p.Ready limit n) (hq : q.limit = p.limit) (h : p.overflowed = false ∨ q = p) :
    (q.unwind p.depth).Ready limit n where
  limit_eq := by rw [unwind_limit, hq, hp.limit_eq]
  room := by rw [unwind_depth]; exact hp.room
  within := by
    intro ho
    rw [unwind_depth, unwind_limit, hq]
    cases hover : p.overflowed with
    | false => exact hp.within hover
    | true =>
      have hq : q = p := h.resolve_left (by simp [hover])
      subst hq
      cases hd : q.depth with
      | zero => exact Nat.zero_le _
      | succ d =>
        have hunwind := (q.unwind_overflowed q.depth).mpr ⟨by simp [hd], hover⟩
        exact absurd (ho.symm.trans hunwind) (by decide)

theorem Sees.deeper (h : p.Sees stop ts) : p.deeper.Sees stop ts :=
  ⟨h.current_eq, h.peek_eq, h.source_eq⟩

theorem Reads.deeper (h : p.Reads stop ts) : p.deeper.Reads stop ts :=
  h.of_suffix h.sees.deeper List.suffix_rfl

end Parser

namespace Parse

theorem stable_ready (limit n : Nat) : Stable (Parser.Ready limit n) where
  advance _ h := ⟨h.limit_eq, h.room, h.within⟩
  report d p h := by
    unfold Parser.report
    split
    · exact h
    · exact ⟨h.limit_eq, h.room, h.within⟩

theorem bindsTighter_iff {stop : Position} (power : BindingPower) (p : Parser) (ts : List Token)
    (hr : p.Sees stop ts) : bindsTighter power p = true ↔ Tighter power ts := by
  unfold bindsTighter Tighter
  rw [hr.peek_kind]
  cases (headKind ts.tail).operator? <;> simp

namespace Describes

variable {dir : Direction} {stop : Position} {limit n : Nat}

theorem descend : Describes dir (Parser.Ready limit n) stop Parse.descend (Phrase fun ts _ us => us = ts) where
  keeps p hp := by
    rcases descend_cases p with ⟨-, h⟩ | ⟨-, hlt, h⟩ | ⟨-, -, h⟩ <;> rw [h]
    · exact hp
    · exact ⟨hp.limit_eq, Nat.lt_of_lt_of_le hp.room (Nat.add_le_add_right (Nat.le_succ _) n), fun _ => hlt⟩
    · exact ⟨hp.limit_eq, Nat.lt_of_lt_of_le hp.room (Nat.add_le_add_right (Nat.le_succ _) n), fun ho => nomatch ho⟩
  grows p := by
    rcases descend_cases p with ⟨-, h⟩ | ⟨-, -, h⟩ | ⟨-, -, h⟩ <;> rw [h]
    · exact Parser.Grows.refl p
    · exact p.grows_deeper
    · exact p.grows_gaveUp
  lands _ p ts hp ho hr hd := by
    rcases descend_cases p with ⟨ho', h⟩ | ⟨-, hlt, h⟩ | ⟨-, -, h⟩ <;> rw [h] at hd ⊢
    · exact absurd (ho.symm.trans ho') (by decide)
    · exact ⟨ts, List.suffix_rfl, hr.deeper, rfl⟩
    · exact absurd hd p.diagnostics_gaveUp_ne
  meets _ p ts a us hp ho hr hG := by
    cases a with
    | none => exact hG.elim
    | some _ =>
      obtain rfl : us = ts := hG
      rcases descend_cases p with ⟨ho', h⟩ | ⟨-, hlt, h⟩ | ⟨-, -, h⟩ <;> rw [h]
      · exact absurd (ho.symm.trans ho') (by decide)
      · exact .inr ⟨rfl, List.suffix_rfl, hr.deeper, rfl⟩
      · exact .inl p.tooDeep_gaveUp

variable {E : List Token → Expr → Prop} (hE : Begins E) {sub : SubExpr}

theorem binary (left : Expr) {power : BindingPower} (hright : Describes dir (Parser.Ready limit n) stop (sub power)
    (Phrase (Spans (Level E (levels.drop power.rank)) (Follow dir power)))) :
    Describes dir (Parser.Ready limit n) stop (Parse.binary sub left power)
      (Phrase (FoldForm dir E left (power, .binary))) := by
  refine congr (current_bind fun token => advance_bind (stable_ready limit n) <|
    hright.bind fun r => pure _) fun ts a us => ?_
  cases a with
  | none => simp
  | some e =>
    constructor
    · intro h
      obtain ⟨r, us, hr, rfl, rfl⟩ := h
      have htokens := hr
      obtain ⟨vs, t, rest, hts, -⟩ := htokens
      cases ts with
      | nil => simp at hts
      | cons op ts => exact ⟨op, ts, r, rfl, hr, rfl⟩
    · intro h
      obtain ⟨op, vs, r, rfl, hr, rfl⟩ := h
      exact ⟨r, us, hr, rfl, rfl⟩

variable (hsub : ∀ power : BindingPower, power.rank ≤ 5 → Describes dir (Parser.Ready limit n) stop (sub power)
    (Phrase (Spans (Level E (levels.drop power.rank)) (Follow dir power))))

include hsub

theorem tightest : Describes dir (Parser.Ready limit n) stop (sub .unary)
    (Phrase (Spans (Unary E) (Follow dir .unary))) := by
  have hunary : Level E (levels.drop BindingPower.unary.rank) = Unary E := by
    funext ts e
    refine propext ⟨fun h => ?_, .unary⟩
    cases h with
    | unary h => exact h
  have htightest := hsub .unary (by decide)
  rwa [hunary] at htightest

variable (hlevel : ∀ ts e, E ts e ↔ Level E levels ts e)

include hlevel

theorem lowest : Describes dir (Parser.Ready limit n) stop (sub .lowest) (Phrase (Spans E (Follow dir .lowest))) := by
  have hE : E = Level E (levels.drop BindingPower.lowest.rank) := by
    funext ts e
    exact propext (hlevel ts e)
  have hlowest := hsub .lowest (by decide)
  rwa [← hE] at hlowest

/-- Where an operator comes next, it is folded onto what is to its left. -/
theorem fold (left : Expr) :
    Describes dir (Parser.Ready limit n) stop (Parse.fold sub left) (Phrase (FoldSpan dir E left)) := by
  have hI := stable_ready limit n
  have hbegins : Begins E := by
    intro ts e h
    exact level_begins ts e ((hlevel ts e).mp h)
  have hlowest := lowest hsub hlevel
  have hform : Describes dir (Parser.Ready limit n) stop (Parse.current >>= Parse.foldAt sub left)
      (Phrase (FoldFrom dir E left)) := by
    refine current_dispatch fun token => ?_
    have hfold : ∀ {x : Parse Expr} {op}, token.kind.operator? = some op →
        Describes dir (Parser.Ready limit n) stop x (Phrase (FoldForm dir E left op)) →
          ∃ H, Describes dir (Parser.Ready limit n) stop x H ∧ ∀ ts b us, ts.headD (Token.eof stop) = token →
            (H ts b us ↔ Phrase (FoldFrom dir E left) ts b us) := by
      intro x op hop hx
      refine ⟨_, hx, fun ts b us hts => ?_⟩
      rw [← hts, headD_eof_kind] at hop
      cases b with
      | none => rfl
      | some e => simp [FoldFrom, hop]
    unfold Parse.foldAt
    cases hop : token.kind.operator? with
    | none =>
      refine ⟨_, pure left, fun ts b us hts => ?_⟩
      rw [← hts, headD_eof_kind] at hop
      cases b with
      | none => rfl
      | some e => simp [FoldFrom, hop]
    | some op =>
      obtain ⟨power, form⟩ := op
      cases form with
      | binary => exact hfold hop (binary left (hsub power (Nat.le_succ_of_le (Kind.rank_le_of_binary hop))))
      | call => exact hfold hop (call hI hbegins hlowest left)
      | index => exact hfold hop (index hI hbegins hlowest left)
  refine congr (descend.bind fun _ => advance_bind hI hform) fun ts a us => ?_
  cases a with
  | none => simp
  | some e =>
    constructor
    · intro h
      obtain ⟨-, us, rfl, h⟩ := h
      exact h
    · intro h
      exact ⟨(), ts, rfl, h⟩

/-- The operand and the operators that bind tighter behind it. -/
theorem chain {power : BindingPower} (hpower : dir = .complete → power.rank ≤ 5) :
    Describes dir (Parser.Ready limit n) stop (Parse.chain sub power)
      (Phrase (Spans (Level E (levels.drop power.rank)) (Follow dir power))) := by
  have hbegins : Begins E := by
    intro ts e h
    exact level_begins ts e ((hlevel ts e).mp h)
  have hoperand := operand (stable_ready limit n) hbegins (lowest hsub hlevel) (tightest hsub)
  have hloop := fun left => repeatWhile (μ := fun ts => ts.tail.length + 1) (bindsTighter_iff power) (fold hsub hlevel)
    (fun left ts e us hnext hfold => Nat.succ_lt_succ (foldSpan_length_lt hnext hfold))
    (fun ts h => absurd h (Nat.succ_ne_zero _)) (fun p ts hr => hr.tail_length_lt_left) left
  refine shift (hoperand.bind hloop) fun ts a us => ?_
  cases a with
  | none => exact ⟨fun _ h => by simp at h, fun _ h => h.elim⟩
  | some e => exact folds_lead_to_level hpower ts e us

theorem exprStep {power : BindingPower} (hpower : dir = .complete → power.rank ≤ 5) :
    Describes dir (Parser.Ready limit (n + 1)) stop (Parse.exprStep sub power)
      (Phrase (Spans (Level E (levels.drop power.rank)) (Follow dir power))) := by
  have hchain := chain hsub hlevel hpower
  have hready : ∀ {p : Parser}, p.Ready limit (n + 1) → p.depth < p.limit → p.deeper.Ready limit n := by
    intro p hp hlt
    refine ⟨hp.limit_eq, ?_, fun _ => hlt⟩
    have hroom := hp.room
    show limit < p.depth + 1 + n
    omega
  constructor
  · intro p hp
    rcases exprStep_cases sub power p with ⟨-, h⟩ | ⟨ho, -, h⟩ | ⟨ho, -, h⟩ <;> rw [h]
    · exact hp.unwind rfl (.inr rfl)
    · exact hp.unwind (hchain.grows p.deeper).limit_eq (.inl ho)
    · exact hp.unwind rfl (.inl ho)
  · intro p
    rcases exprStep_cases sub power p with ⟨-, h⟩ | ⟨-, -, h⟩ | ⟨-, -, h⟩ <;> rw [h]
    · exact p.grows_unwind _
    · exact (p.grows_deeper.trans (hchain.grows p.deeper)).trans (Parser.grows_unwind _ _)
    · exact p.grows_gaveUp.trans (Parser.grows_unwind _ _)
  · intro hdir p ts hp ho hr hd
    rcases exprStep_cases sub power p with ⟨ho', h⟩ | ⟨-, hlt, h⟩ | ⟨-, -, h⟩ <;> rw [h] at hd ⊢
    · exact absurd (ho.symm.trans ho') (by decide)
    · rw [Parser.unwind_diagnostics] at hd
      obtain ⟨us, hsuffix, hus, hG⟩ := hchain.lands hdir p.deeper ts (hready hp hlt) ho hr.deeper hd
      have hcalm := (hchain.grows p.deeper).calm ho hd
      refine ⟨us, hsuffix, ?_, hG⟩
      rw [Parser.unwind_of_calm _ hcalm]
      exact ⟨hus.current_eq, hus.peek_eq, hus.source_eq⟩
    -- Giving up is always reported.
    · rw [Parser.unwind_diagnostics] at hd
      exact absurd hd p.diagnostics_gaveUp_ne
  · intro hdir p ts a us hp ho hr hG
    rcases exprStep_cases sub power p with ⟨ho', h⟩ | ⟨-, hlt, h⟩ | ⟨-, -, h⟩ <;> rw [h]
    · exact absurd (ho.symm.trans ho') (by decide)
    · rcases hchain.meets hdir p.deeper ts a us (hready hp hlt) ho hr.deeper hG with hdeep | ⟨ha, hsuffix, hus, hd⟩
      · exact .inl ((Parser.grows_unwind _ _).tooDeep hdeep)
      · have hcalm := (hchain.grows p.deeper).calm ho hd
        refine .inr ⟨ha, hsuffix, ?_, by rw [Parser.unwind_diagnostics]; exact hd⟩
        rw [Parser.unwind_of_calm _ hcalm]
        exact ⟨hus.current_eq, hus.peek_eq, hus.source_eq⟩
    · exact .inl ((Parser.grows_unwind _ _).tooDeep p.tooDeep_gaveUp)

omit hsub

/-- With no room left, every expression is being given up already, so it does not matter what stands beyond. -/
theorem exprWithin {power : BindingPower} (hpower : dir = .complete → power.rank ≤ 5) :
    Describes dir (Parser.Ready limit n) stop (Parse.exprWithin (fun _ => Parse.fail) n power)
      (Phrase (Spans (Level E (levels.drop power.rank)) (Follow dir power))) := by
  induction n generalizing power with
  | zero =>
    have hnone : ∀ {p : Parser}, p.Ready limit 0 → p.overflowed = false → False := by
      intro p hp ho
      have hlt := hp.room
      have hle := hp.within ho
      rw [hp.limit_eq] at hle
      omega
    exact ⟨fun p hp => hp, fun p => Parser.Grows.refl p, fun _ p ts hp ho => (hnone hp ho).elim,
      fun _ p ts a us hp ho => (hnone hp ho).elim⟩
  | succ n ih => exact exprStep (fun power hpower => ih fun _ => hpower) hlevel hpower

theorem expr {power : BindingPower} (hpower : dir = .complete → power.rank ≤ 5) :
    Describes dir (Parser.Ready limit (limit + 1)) stop (Parse.expr power)
      (Phrase (Spans (Level E (levels.drop power.rank)) (Follow dir power))) := by
  have hwithin := @exprWithin dir stop limit (limit + 1) E hlevel power hpower
  have heq : ∀ {p : Parser}, p.limit = limit →
      Parse.expr power p = Parse.exprWithin (fun _ => Parse.fail) (limit + 1) power p := by
    rintro p rfl
    rfl
  constructor
  · intro p hp
    rw [heq hp.limit_eq]
    exact hwithin.keeps p hp
  · intro p
    exact (@exprWithin dir stop p.limit (p.limit + 1) E hlevel power hpower).grows p
  · intro hdir p ts hp
    rw [heq hp.limit_eq]
    exact hwithin.lands hdir p ts hp
  · intro hdir p ts a us hp
    rw [heq hp.limit_eq]
    exact hwithin.meets hdir p ts a us hp

end Describes

theorem expression_iff (ts : List Token) (e : Expr) : Expression ts e ↔ Level Expression levels ts e := by
  constructor
  · intro h
    cases h with
    | mk h => exact h
  · exact .mk

theorem begins_expression : Begins Expression := by
  intro ts e h
  exact level_begins ts e ((expression_iff ts e).mp h)

theorem describes_expression (dir : Direction) (limit : Nat) (stop : Position) :
    Describes dir (Parser.Ready limit (limit + 1)) stop (expr .lowest)
      (Phrase (Spans Expression (Follow dir .lowest))) :=
  Describes.lowest (fun _ hpower => Describes.expr expression_iff fun _ => hpower) expression_iff

theorem describes_stmt (dir : Direction) (limit : Nat) (stop : Position) :
    Describes dir (Parser.Ready limit (limit + 1)) stop (stmt expr) (Phrase (Sentence dir (Clause Expression))) :=
  Describes.stmt (stable_ready limit (limit + 1)) begins_expression (describes_expression dir limit stop)

theorem describes_program (dir : Direction) (limit : Nat) (stop : Position) :
    Describes dir (Parser.Ready limit (limit + 1)) stop Parse.program (Phrase fun ts p us =>
      headKind us = .eof ∧ ∃ vs, ts = vs ++ us ∧ Derives vs p) := by
  have hstmts := Describes.stmtsUntil (stable_ready limit (limit + 1)) begins_expression
    (describes_expression dir limit stop) (fun k => k == .eof) rfl (fun k hk => .inr (by simpa using hk))
  refine Describes.congr (hstmts.bind fun found => Describes.pure _) fun ts p us => ?_
  cases p with
  | none => simp
  | some p =>
    constructor
    · intro h
      obtain ⟨found, us, ⟨heof, vs, ss, hts, hss, rfl⟩, rfl, rfl⟩ := h
      exact ⟨by simpa using heof, vs, hts, hss⟩
    · intro h
      obtain ⟨heof, vs, hts, hss⟩ := h
      exact ⟨p.statements.toArray, us, ⟨by simpa using heof, vs, p.statements, hts, hss, rfl⟩, rfl, rfl⟩

end Parse

theorem Grammar.Unary.expression {ts : List Token} {e : Expr} (h : Unary Expression ts e) : Expression ts e :=
  .mk (Parse.level_of_unary (n := 0) h)

theorem Grammar.Applied.expression {ts : List Token} {e : Expr} (h : Applied Expression ts e) : Expression ts e :=
  Unary.expression (.applied h)

/-- A token that stands in no text. -/
def Token.loose (kind : Kind) (value : String) : Token :=
  ⟨kind, value, ⟨Position.null, Position.null⟩⟩

/-- The tokens of `let f = fn(x) { x };`. -/
def identityBinding : List Token :=
  [.loose .letWord "let", .loose .identifier "f", .loose .assign "=", .loose .fnWord "fn", .loose .openParen "(",
    .loose .identifier "x", .loose .closeParen ")", .loose .openCurly "\x7b", .loose .identifier "x",
    .loose .closeCurly "\x7d", .loose .semicolon ";"]

variable {T : List Token}

theorem Parser.sees_withLimit (limit : Nat) (T : List Token) :
    (Parser.withLimit limit (.buffer (TokenBuffer.ofList T))).Sees (TokenBuffer.ofList T).stop T := by
  rcases T with _ | ⟨t, _ | ⟨u, ts⟩⟩ <;> exact ⟨rfl, rfl, rfl⟩

theorem Parser.reads_withLimit (limit : Nat) (hT : ∀ t ∈ T, t.kind ≠ .eof) :
    (Parser.withLimit limit (.buffer (TokenBuffer.ofList T))).Reads (TokenBuffer.ofList T).stop T where
  current_eq := (sees_withLimit limit T).current_eq
  peek_eq := (sees_withLimit limit T).peek_eq
  source_eq := (sees_withLimit limit T).source_eq
  free := hT

theorem Parser.ready_withLimit (limit : Nat) (source : TokenSource) :
    (Parser.withLimit limit source).Ready limit (limit + 1) :=
  ⟨rfl, Nat.lt_add_left 0 (Nat.lt_succ_self limit), fun _ => Nat.zero_le _⟩

theorem Parser.Reads.eq_nil {stop : Position} {p : Parser} (h : p.Reads stop T) (heof : headKind T = .eof) :
    T = [] := by
  cases T with
  | nil => rfl
  | cons t ts => exact absurd heof (h.free t List.mem_cons_self)

/-- Parsing with another nesting limit. -/
def parseWithin (limit : Nat) (tokens : List Token) : Program × List Diagnostic :=
  ((Parse.program (Parser.withLimit limit (.buffer (TokenBuffer.ofList tokens)))).1.getD ⟨[]⟩,
    (Parse.program (Parser.withLimit limit (.buffer (TokenBuffer.ofList tokens)))).2.diagnostics.toList)

theorem parseTokens_eq : parseTokens T = parseWithin maxNestingDepth T := rfl

variable {limit : Nat} {p : Program}

/-- A program of which nothing is reported is spelled by its tokens, wherever these come from. -/
theorem Parser.Reads.exists_derives {stop : Position} {source : TokenSource}
    (hr : (withLimit limit source).Reads stop T)
    (h : (Parse.program (withLimit limit source)).2.diagnostics = #[]) :
    ∃ p, (Parse.program (withLimit limit source)).1 = some p ∧ Derives T p := by
  have hready := ready_withLimit limit source
  obtain ⟨us, hus, hG⟩ := (Parse.describes_program .sound limit stop).sound rfl _ T hready rfl hr h
  cases hp : (Parse.program (withLimit limit source)).1 with
  | none =>
    rw [hp] at hG
    exact hG.elim
  | some p =>
    rw [hp] at hG
    obtain ⟨heof, vs, rfl, hderives⟩ := hG
    obtain rfl := hus.eq_nil heof
    rw [List.append_nil]
    exact ⟨p, rfl, hderives⟩

theorem Parser.Reads.program_of_derives {stop : Position} {source : TokenSource}
    (hr : (withLimit limit source).Reads stop T) (h : Derives T p) :
    (Parse.program (withLimit limit source)).2.TooDeep ∨
      ((Parse.program (withLimit limit source)).1 = some p ∧
        (Parse.program (withLimit limit source)).2.diagnostics = #[]) := by
  have hready := ready_withLimit limit source
  have hcomplete := (Parse.describes_program .complete limit stop).complete rfl _ T (some p) [] hready rfl hr
    ⟨rfl, T, (List.append_nil T).symm, h⟩
  rcases hcomplete with hdeep | ⟨hp, -, hd⟩
  · exact .inl hdeep
  · exact .inr ⟨hp, hd⟩

theorem derives_of_parseWithin (hT : ∀ t ∈ T, t.kind ≠ .eof) (h : (parseWithin limit T).2 = []) :
    Derives T (parseWithin limit T).1 := by
  obtain ⟨p, hp, hderives⟩ := (Parser.reads_withLimit limit hT).exists_derives (Array.toList_inj.mp h)
  unfold parseWithin
  rw [hp]
  exact hderives

theorem parseWithin_of_derives (hT : ∀ t ∈ T, t.kind ≠ .eof) (h : Derives T p) :
    (∃ d ∈ (parseWithin limit T).2, ∃ limit, d.fault = .nestingTooDeep limit) ∨ parseWithin limit T = (p, []) := by
  rcases (Parser.reads_withLimit limit hT).program_of_derives h with hdeep | ⟨hp, hd⟩
  · exact .inl hdeep
  · right
    unfold parseWithin
    rw [hp, hd]
    rfl

/-- A parse without diagnostics takes every token just once and returns a tree that they spell. -/
theorem derives_of_parseTokens (hT : ∀ t ∈ T, t.kind ≠ .eof) (h : (parseTokens T).2 = []) :
    Derives T (parseTokens T).1 :=
  derives_of_parseWithin hT h

theorem derives_of_parseTokens_identityBinding : (∀ t ∈ identityBinding, t.kind ≠ .eof) ∧
    (parseTokens identityBinding).2 = [] ∧ Derives identityBinding (parseTokens identityBinding).1 := by
  have hfree : ∀ t ∈ identityBinding, t.kind ≠ .eof := by decide
  have hclean : (parseTokens identityBinding).2 = [] := by decide
  exact ⟨hfree, hclean, derives_of_parseTokens hfree hclean⟩

end FrontEnd
