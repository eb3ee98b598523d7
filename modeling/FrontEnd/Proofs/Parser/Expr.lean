import FrontEnd.Parser.Expr
import FrontEnd.Proofs.Parser.Operand

/-!
What the steps for expressions read: an operand, and the operators folded onto it, against the levels of the grammar.
-/

namespace FrontEnd.Parse

open Grammar

variable {dir : Direction} {E : List Token → Expr → Prop} {power : BindingPower}

/-- An operand, with the form its first token decides. -/
def OperandSpan (dir : Direction) (E : List Token → Expr → Prop) (ts : List Token) (e : Expr) (us : List Token) :
    Prop :=
  ∃ form, (headKind ts).operand? = some form ∧ FormSpan dir E form ts e us

theorem braced_of_blockSpan {ts us : List Token} {b : Block} (h : BlockSpan E ts b us) :
    ∃ vs t rest, ts = vs ++ t :: rest ∧ us = t :: rest ∧ Braced E (vs ++ [t]) b := by
  obtain ⟨left, ss, ⟨vs, right, rest, rfl, rfl, hss, hright⟩, hleft, rfl⟩ := h
  exact ⟨left :: vs, right, rest, rfl, rfl, .mk hleft hss hright⟩

theorem blockSpan_of_braced {ws : List Token} {b : Block} (h : Braced E ws b) :
    ∃ vs t, ws = vs ++ [t] ∧ ∀ rest, BlockSpan E (ws ++ rest) b (t :: rest) := by
  cases h with
  | @mk left ts ss right hleft hss hright =>
    refine ⟨left :: ts, right, rfl, fun rest => ?_⟩
    refine ⟨left, ss, ⟨ts, right, rest, ?_, rfl, hss, hright⟩, hleft, rfl⟩
    simp

theorem otherwise_of_span {t₀ : Token} {rest₀ us : List Token} {o : Option Block}
    (h : OtherwiseSpan E (t₀ :: rest₀) o us) :
    ∃ vs t rest, t₀ :: rest₀ = vs ++ t :: rest ∧ us = t :: rest ∧ ∃ ws, vs ++ [t] = t₀ :: ws ∧ Otherwise E ws o := by
  rcases h with ⟨hk, b, hb, rfl⟩ | ⟨-, rfl, rfl⟩
  · obtain ⟨word, rest, hrest, hword⟩ := exists_cons_of_headKind hk (by decide)
    obtain rfl : rest₀ = word :: rest := hrest
    obtain ⟨vs, t, rest, hts, rfl, hbraced⟩ := braced_of_blockSpan hb
    refine ⟨t₀ :: word :: vs, t, rest, ?_, rfl, word :: (vs ++ [t]), rfl, .some hword hbraced⟩
    exact congrArg (t₀ :: word :: ·) hts
  · exact ⟨[], t₀, rest₀, rfl, rfl, [], rfl, .none⟩

theorem span_of_otherwise {ws : List Token} {o : Option Block} (h : Otherwise E ws o) (t₀ : Token) :
    ∃ vs t, t₀ :: ws = vs ++ [t] ∧ ∀ rest, headKind rest ≠ .elseWord →
      OtherwiseSpan E (t₀ :: (ws ++ rest)) o (t :: rest) := by
  cases h with
  | none => exact ⟨[], t₀, rfl, fun rest hrest => .inr ⟨hrest, rfl, rfl⟩⟩
  | @some word ts b hword hb =>
    obtain ⟨vs, t, rfl, hspan⟩ := blockSpan_of_braced hb
    exact ⟨t₀ :: word :: vs, t, rfl, fun rest _ => .inl ⟨hword, b, hspan rest, rfl⟩⟩

/-- What a list begins with does not depend on what follows its first token. -/
theorem headKind_concat (vs : List Token) (t : Token) (rest : List Token) :
    headKind (vs ++ [t]) = headKind (vs ++ t :: rest) := by
  cases vs <;> rfl

theorem conditional_of_formSpan {ts us : List Token} {e : Expr} (h : FormSpan dir E .cond ts e us) :
    Spans (Conditional E) (fun _ => True) ts e us := by
  obtain ⟨word, ws, left, c, _, b, xs, o, rfl, ⟨cs, right, rest, rfl, rfl, hc, hright⟩, hleft, hb, ho, rfl⟩ := h
  obtain ⟨bs, t₀, rest₀, hbs, rfl, hbraced⟩ := braced_of_blockSpan hb
  obtain rfl : rest = bs ++ t₀ :: rest₀ := hbs
  obtain ⟨vs, t, rest, hvs, rfl, zs, hzs, hotherwise⟩ := otherwise_of_span ho
  refine ⟨word :: left :: (cs ++ right :: (bs ++ vs)), t, rest, by simp [hvs], rfl, ?_, trivial⟩
  have htokens : word :: left :: (cs ++ right :: (bs ++ vs)) ++ [t] =
      word :: left :: (cs ++ right :: ((bs ++ [t₀]) ++ zs)) := by
    simp [hzs]
  rw [htokens]
  exact .mk hleft hc hright hbraced hotherwise

theorem function_of_formSpan {ts us : List Token} {e : Expr} (h : FormSpan dir E .fn ts e us) :
    Spans (Function E) (fun _ => True) ts e us := by
  obtain ⟨word, ws, left, ids, _, b, rfl, ⟨is, right, rest, rfl, rfl, hids, hright⟩, hleft, hb, rfl⟩ := h
  obtain ⟨bs, t, rest, hbs, rfl, hbraced⟩ := braced_of_blockSpan hb
  obtain rfl : _ = bs ++ t :: rest := hbs
  refine ⟨word :: left :: (is ++ right :: bs), t, rest, by simp, rfl, ?_, trivial⟩
  have hfn : Function E (word :: left :: (is ++ right :: (bs ++ [t]))) (.fn word ids b none) :=
    .mk hleft hids hright hbraced
  simpa using hfn

/-- An operand is a primary, or takes its operator from the level of the unary ones. -/
theorem primary_of_operandSpan {ts us : List Token} {e : Expr} (h : OperandSpan dir E ts e us) :
    ∃ vs t rest, ts = vs ++ t :: rest ∧ us = t :: rest ∧
      (Primary E (vs ++ [t]) e ∨ (Unary E (vs ++ [t]) e ∧ Stops .unary rest)) := by
  obtain ⟨form, hk, h⟩ := h
  cases form with
  | atom =>
    obtain ⟨rfl, t, rest, rfl, hatom⟩ := h
    exact ⟨[], t, rest, rfl, rfl, .inl (.atom hatom)⟩
  | unary =>
    obtain ⟨op, ws, r, rfl, ⟨vs, t, rest, rfl, rfl, hr, hrest⟩, rfl⟩ := h
    have hop := Kind.operand?_eq_some_iff.mp hk
    exact ⟨op :: vs, t, rest, rfl, rfl, .inr ⟨.op (by simpa [OperandForm.openers] using hop) hr, hrest.1⟩⟩
  | group =>
    obtain ⟨left, vs, right, rest, rfl, rfl, he, hright⟩ := h
    have hleft := List.mem_singleton.mp (Kind.operand?_eq_some_iff.mp hk)
    exact ⟨left :: vs, right, rest, rfl, rfl, .inl (.group hleft he hright)⟩
  | cond =>
    obtain ⟨vs, t, rest, hts, hus, hcond, -⟩ := conditional_of_formSpan h
    rw [hts, ← headKind_concat] at hk
    have hword := List.mem_singleton.mp (Kind.operand?_eq_some_iff.mp hk)
    exact ⟨vs, t, rest, hts, hus, .inl (hcond.primary hword)⟩
  | fn =>
    obtain ⟨vs, t, rest, hts, hus, hfn, -⟩ := function_of_formSpan h
    rw [hts, ← headKind_concat] at hk
    have hword := List.mem_singleton.mp (Kind.operand?_eq_some_iff.mp hk)
    exact ⟨vs, t, rest, hts, hus, .inl (hfn.primary hword)⟩
  | array =>
    obtain ⟨left, es, ⟨vs, right, rest, rfl, rfl, hes, hright⟩, rfl⟩ := h
    have hleft := List.mem_singleton.mp (Kind.operand?_eq_some_iff.mp hk)
    exact ⟨left :: vs, right, rest, rfl, rfl, .inl (.array hleft hes hright)⟩
  | hash =>
    obtain ⟨left, es, ⟨vs, right, rest, rfl, rfl, hes, hright⟩, rfl⟩ := h
    have hleft := List.mem_singleton.mp (Kind.operand?_eq_some_iff.mp hk)
    exact ⟨left :: vs, right, rest, rfl, rfl, .inl (.hash hleft hes hright)⟩

/-- Only a conditional might have gone on with what comes behind it. -/
theorem operandSpan_of_primary {ws : List Token} {e : Expr} (h : Primary E ws e) :
    ∃ vs t, ws = vs ++ [t] ∧ ∀ rest, (headKind ws = .ifWord → headKind rest ≠ .elseWord) →
      OperandSpan dir E (ws ++ rest) e (t :: rest) := by
  cases h with
  | @atom t e hatom =>
    exact ⟨[], t, rfl, fun rest _ => ⟨.atom, hatom.operand?, rfl, t, rest, rfl, hatom⟩⟩
  | @group left ts e right hleft he hright =>
    have hk : left.kind.operand? = some .group := Kind.operand?_eq_some_iff.mpr (List.mem_singleton.mpr hleft)
    refine ⟨left :: ts, right, rfl, fun rest _ => ⟨.group, hk, ?_⟩⟩
    exact ⟨left, ts, right, rest, by simp, rfl, he, hright⟩
  | @cond word left ts c right us b vs o hword hleft hc hright hb ho =>
    obtain ⟨bs, t₀, rfl, hblock⟩ := blockSpan_of_braced hb
    obtain ⟨zs, t, hzs, hotherwise⟩ := span_of_otherwise ho t₀
    refine ⟨word :: left :: (ts ++ right :: (bs ++ zs)), t, by simp [← hzs], fun rest hrest => ?_⟩
    have hspan := hblock (vs ++ rest)
    refine ⟨.cond, Kind.operand?_eq_some_iff.mpr (List.mem_singleton.mpr hword), word, _, left, c, _, b, _, o, rfl,
      ⟨ts, right, (bs ++ [t₀]) ++ (vs ++ rest), by simp, rfl, hc, hright⟩, hleft, hspan, hotherwise rest (hrest hword), rfl⟩
  | @fn word left ts ids right us b hword hleft hids hright hb =>
    obtain ⟨bs, t, rfl, hblock⟩ := blockSpan_of_braced hb
    refine ⟨word :: left :: (ts ++ right :: bs), t, by simp, fun rest _ => ?_⟩
    refine ⟨.fn, Kind.operand?_eq_some_iff.mpr (List.mem_singleton.mpr hword), word, _, left, ids, _, b, rfl,
      ⟨ts, right, (bs ++ [t]) ++ rest, by simp, rfl, hids, hright⟩, hleft, hblock rest, rfl⟩
  | @array left ts es right hleft hes hright =>
    have hk : left.kind.operand? = some .array := Kind.operand?_eq_some_iff.mpr (List.mem_singleton.mpr hleft)
    refine ⟨left :: ts, right, rfl, fun rest _ => ⟨.array, hk, ?_⟩⟩
    exact ⟨left, es, ⟨ts, right, rest, by simp, rfl, hes, hright⟩, rfl⟩
  | @hash left ts es right hleft hes hright =>
    have hk : left.kind.operand? = some .hash := Kind.operand?_eq_some_iff.mpr (List.mem_singleton.mpr hleft)
    refine ⟨left :: ts, right, rfl, fun rest _ => ⟨.hash, hk, ?_⟩⟩
    exact ⟨left, es, ⟨ts, right, rest, by simp, rfl, hes, hright⟩, rfl⟩

theorem operand?_of_primary {ts : List Token} {e : Expr} (h : Primary E ts e) : (headKind ts).operand? ≠ none := by
  cases h with
  | atom h => simp [h.operand?]
  | group hk _ _ | cond hk _ _ _ _ _ | fn hk _ _ _ _ | array hk _ _ | hash hk _ _ =>
    rw [headKind_cons, hk]
    decide

theorem operand?_of_applied {ts : List Token} {e : Expr} (h : Applied E ts e) : (headKind ts).operand? ≠ none := by
  have happend : ∀ {ts us : List Token}, (headKind ts).operand? ≠ none → (headKind (ts ++ us)).operand? ≠ none := by
    intro ts us hts
    cases ts with
    | nil => exact absurd rfl hts
    | cons t ts => exact hts
  induction h with
  | primary h => exact operand?_of_primary h
  | call _ _ _ _ ih | index _ _ _ _ ih => exact happend ih

theorem level_begins {ls : List (List Kind)} : Begins (Level E ls) := by
  intro ts e h
  induction h with
  | unary h =>
    cases h with
    | applied h => exact operand?_of_applied h
    | op hk _ => rcases hk with hk | hk <;> rw [headKind_cons, hk] <;> decide
  | tighter _ ih => exact ih
  | @op ops ls ts l t us r _ _ _ ih _ =>
    cases ts with
    | nil => exact absurd rfl ih
    | cons t ts => exact ih

/-- Whether the operator behind the operand binds tighter. -/
def Tighter (power : BindingPower) (ts : List Token) : Prop :=
  ∃ op, (headKind ts.tail).operator? = some op ∧ power < op.1

/-- What an operator takes behind the expression to its left, from its own token on. -/
def FoldForm (dir : Direction) (E : List Token → Expr → Prop) (left : Expr) :
    BindingPower × OperatorForm → List Token → Expr → List Token → Prop
  | (q, .binary), ts, e, us => ∃ t vs r, ts = t :: vs ∧ Spans (Level E (levels.drop q.rank)) (Follow dir q) vs r us ∧
      e = .binary t left t.value r
  | (_, .call), ts, e, us => ∃ t es, Encloses .closeParen (Listing E) t ts es us ∧ e = .call t left es
  | (_, .index), ts, e, us => ∃ t i, Encloses .closeBracket E t ts i us ∧ e = .index t left i

/-- The operator on the current token folded onto what is to its left, which stays as it is where there is none. -/
def FoldFrom (dir : Direction) (E : List Token → Expr → Prop) (left : Expr) (ts : List Token) (e : Expr)
    (us : List Token) : Prop :=
  match (headKind ts).operator? with
  | some op => FoldForm dir E left op ts e us
  | none => e = left ∧ us = ts

/-- One operator more. The step begins on the last token of what is to its left. -/
def FoldSpan (dir : Direction) (E : List Token → Expr → Prop) (left : Expr) (ts : List Token) (e : Expr)
    (us : List Token) : Prop :=
  FoldFrom dir E left ts.tail e us

theorem foldSpan_iff {left e : Expr} {ts us : List Token} {op : BindingPower × OperatorForm}
    (hop : (headKind ts.tail).operator? = some op) :
    FoldSpan dir E left ts e us ↔ FoldForm dir E left op ts.tail e us := by
  unfold FoldSpan FoldFrom
  rw [hop]

theorem foldSpan_cons {left e : Expr} {last t : Token} {vs us : List Token} {op : BindingPower × OperatorForm}
    (hop : t.kind.operator? = some op) (h : FoldForm dir E left op (t :: vs) e us) :
    FoldSpan dir E left (last :: t :: vs) e us :=
  (@foldSpan_iff _ _ _ _ (last :: t :: vs) _ _ hop).mpr h

theorem foldSpan_length_lt {left e : Expr} {ts us : List Token} (hnext : Tighter power ts)
    (hfold : FoldSpan dir E left ts e us) : us.tail.length < ts.tail.length := by
  obtain ⟨⟨q, form⟩, hop, -⟩ := hnext
  have hform := (foldSpan_iff hop).mp hfold
  cases form with
  | binary =>
    obtain ⟨t, vs, r, hts, hr, -⟩ := hform
    have hlt := hr.length_lt
    rw [hts, List.length_cons]
    exact Nat.lt_succ_of_lt hlt
  | call =>
    obtain ⟨t, es, ⟨vs, right, rest, hts, rfl, -, -⟩, -⟩ := hform
    rw [hts]
    simp only [List.tail_cons, List.length_append, List.length_cons]
    omega
  | index =>
    obtain ⟨t, i, ⟨vs, right, rest, hts, rfl, -, -⟩, -⟩ := hform
    rw [hts]
    simp only [List.tail_cons, List.length_append, List.length_cons]
    omega

theorem not_tighter_iff {t : Token} {rest : List Token} : ¬Tighter power (t :: rest) ↔ Stops power rest := by
  unfold Tighter Stops
  simp only [List.tail_cons, not_exists, not_and]

/-! Levels -/

theorem level_of_suffix {ls ls' : List (List Kind)} {ts : List Token} {e : Expr} (hls : ls <:+ ls')
    (h : Level E ls ts e) : Level E ls' ts e := by
  obtain ⟨ops, rfl⟩ := hls
  induction ops with
  | nil => exact h
  | cons o ops ih => exact .tighter ih

theorem level_drop_le {m n : Nat} (hmn : m ≤ n) {ts : List Token} {e : Expr} (h : Level E (levels.drop n) ts e) :
    Level E (levels.drop m) ts e :=
  level_of_suffix (List.drop_suffix_drop_left levels hmn) h

theorem level_of_unary {n : Nat} {ts : List Token} {e : Expr} (h : Unary E ts e) : Level E (levels.drop n) ts e :=
  level_of_suffix List.nil_suffix (.unary h)

theorem level_op {q : BindingPower} {t : Token} (hq : t.kind.operator? = some (q, .binary)) {ts us : List Token}
    {l r : Expr} (hl : Level E (levels.drop (q.rank - 1)) ts l) (hr : Level E (levels.drop q.rank) us r) :
    Level E (levels.drop (q.rank - 1)) (ts ++ t :: us) (.binary t l t.value r) := by
  have hrank : ∃ n ops, q.rank = n + 1 ∧ levels[n]? = some ops := by
    cases hk : t.kind <;> simp [hk, Kind.operator?] at hq <;> subst hq <;> exact ⟨_, _, rfl, rfl⟩
  obtain ⟨n, ops, hn, hops⟩ := hrank
  have hdrop : levels.drop n = ops :: levels.drop (n + 1) := by
    obtain ⟨hlt, rfl⟩ := List.getElem?_eq_some_iff.mp hops
    exact List.drop_eq_getElem_cons hlt
  rw [hn, Nat.add_sub_cancel, hdrop] at hl ⊢
  rw [hn] at hr
  exact .op hl ((Kind.mem_level_iff hops).mpr ⟨q, hq, hn⟩) hr

/-- What has been folded so far, before `rest`: it can take a call or an index only as a phrase that these may follow,
and an operator that binds tighter only on that operator's own level. -/
def Folded (E : List Token → Expr → Prop) (power : BindingPower) (ws : List Token) (e : Expr) (rest : List Token) :
    Prop :=
  Applied E ws e ∨ (Level E (levels.drop power.rank) ws e ∧ ∀ op, (headKind rest).operator? = some op → power < op.1 →
    op.1.rank ≤ 4 ∧ Level E (levels.drop (op.1.rank - 1)) ws e)

theorem Folded.level {ws rest : List Token} {e : Expr} (h : Folded E power ws e rest) :
    Level E (levels.drop power.rank) ws e := by
  rcases h with h | ⟨h, -⟩
  · exact level_of_unary (.applied h)
  · exact h

theorem rank_le_of_stops_unary {rest : List Token} (h : Stops .unary rest) {op : BindingPower × OperatorForm}
    (hop : (headKind rest).operator? = some op) : op.1.rank ≤ 4 := by
  have hle := h op hop
  revert hle
  cases hk : headKind rest <;> simp [hk, Kind.operator?] at hop <;> subst hop <;> decide

theorem folded_of_operandSpan (power : BindingPower) {ts us : List Token} {e : Expr} (h : OperandSpan dir E ts e us) :
    ∃ vs t rest, ts = vs ++ t :: rest ∧ us = t :: rest ∧ Folded E power (vs ++ [t]) e rest := by
  obtain ⟨vs, t, rest, hts, hus, hprimary | ⟨hunary, hrest⟩⟩ := primary_of_operandSpan h
  · exact ⟨vs, t, rest, hts, hus, .inl (.primary hprimary)⟩
  · refine ⟨vs, t, rest, hts, hus, .inr ⟨level_of_unary hunary, fun op hop _ => ?_⟩⟩
    exact ⟨rank_le_of_stops_unary hrest hop, level_of_unary hunary⟩

theorem Folded.applied {ws rest : List Token} {e : Expr} (h : Folded E power ws e rest)
    {op : BindingPower × OperatorForm} (hop : (headKind rest).operator? = some op) (hlt : power < op.1)
    (hrank : 4 < op.1.rank) : Applied E ws e := by
  rcases h with h | ⟨-, h⟩
  · exact h
  · have hle := (h op hop hlt).1
    omega

theorem Folded.step {ws rest us : List Token} {last : Token} {left e : Expr} (h : Folded E power ws left rest)
    (hnext : Tighter power (last :: rest)) (hfold : FoldSpan dir E left (last :: rest) e us) :
    ∃ vs t rest', rest = vs ++ t :: rest' ∧ us = t :: rest' ∧ Folded E power (ws ++ (vs ++ [t])) e rest' := by
  obtain ⟨op, hop, hlt⟩ := hnext
  have hform := (foldSpan_iff hop).mp hfold
  obtain ⟨q, form⟩ := op
  cases form with
  | binary =>
    obtain ⟨t, vs, r, hts, ⟨xs, t', rest', rfl, rfl, hr, hrest'⟩, rfl⟩ := hform
    obtain rfl : rest = t :: (xs ++ t' :: rest') := hts
    refine ⟨t :: xs, t', rest', rfl, rfl, .inr ?_⟩
    have hleft : Level E (levels.drop (q.rank - 1)) ws left := by
      rcases h with h | ⟨-, h⟩
      · exact level_of_unary (.applied h)
      · exact (h _ hop hlt).2
    have hlevel := level_op hop hleft hr
    have hpower : power.rank ≤ q.rank - 1 := Nat.le_sub_one_of_lt hlt
    refine ⟨level_drop_le hpower hlevel, fun op' hop' hlt' => ?_⟩
    -- The right operand took all that binds tighter than this operator, so what comes next does not.
    have hle : op'.1.rank ≤ q.rank := Nat.le_of_not_lt (hrest'.1 op' hop')
    exact ⟨Nat.le_trans hle (Kind.rank_le_of_binary hop), level_drop_le (Nat.sub_le_sub_right hle 1) hlevel⟩
  | call =>
    obtain ⟨t, es, ⟨xs, right, rest', hts, rfl, hes, hright⟩, rfl⟩ := hform
    obtain rfl : rest = t :: (xs ++ right :: rest') := hts
    obtain ⟨ht, rfl⟩ := Kind.eq_openParen_of_call hop
    have hcallee := h.applied hop hlt (by decide)
    exact ⟨t :: xs, right, rest', rfl, rfl, .inl (.call hcallee ht hes hright)⟩
  | index =>
    obtain ⟨t, i, ⟨xs, right, rest', hts, rfl, hi, hright⟩, rfl⟩ := hform
    obtain rfl : rest = t :: (xs ++ right :: rest') := hts
    obtain ⟨ht, rfl⟩ := Kind.eq_openBracket_of_index hop
    have hcollection := h.applied hop hlt (by decide)
    exact ⟨t :: xs, right, rest', rfl, rfl, .inl (.index hcollection ht hi hright)⟩

/-- Folding operators for as long as they bind tighter stays within the level of the power. -/
theorem level_of_folds {left e : Expr} {ts us : List Token}
    (h : Repeats (Tighter power) (FoldSpan dir E) left ts e us) {ws rest : List Token} {last : Token}
    (hts : ts = last :: rest) (hleft : Folded E power (ws ++ [last]) left rest) :
    ∃ vs t rest', ws ++ ts = vs ++ t :: rest' ∧ us = t :: rest' ∧ Stops power rest' ∧
      Level E (levels.drop power.rank) (vs ++ [t]) e := by
  induction h generalizing ws rest last with
  | done hdone =>
    subst hts
    exact ⟨ws, last, rest, rfl, rfl, not_tighter_iff.mp hdone, hleft.level⟩
  | step hnext hfold _ ih =>
    subst hts
    obtain ⟨xs, t, rest', rfl, rfl, hfolded⟩ := hleft.step hnext hfold
    rw [← List.append_assoc] at hfolded
    obtain ⟨vs, t', rest'', hvs, rfl, hstops, hlevel⟩ := ih rfl hfolded
    refine ⟨vs, t', rest'', ?_, rfl, hstops, hlevel⟩
    rw [← hvs]
    simp

/-- From the operand on, folding operators comes to `e` at the tokens `us`, and only then goes on. -/
def Reaches (power : BindingPower) (E : List Token → Expr → Prop) (ts : List Token) (e : Expr) (us : List Token) :
    Prop :=
  ∃ left vs, OperandSpan .complete E ts left vs ∧ Rounds (Tighter power) (FoldSpan .complete E) left vs e us

theorem Reaches.step {ts us vs : List Token} {l e : Expr} (h : Reaches power E ts l us) (hnext : Tighter power us)
    (hfold : FoldSpan .complete E l us e vs) : Reaches power E ts e vs := by
  obtain ⟨left, ws, hoperand, hrounds⟩ := h
  exact ⟨left, ws, hoperand, .more hrounds hnext hfold⟩

theorem reaches_of_operandSpan {ts us : List Token} {e : Expr} (h : OperandSpan .complete E ts e us) :
    Reaches power E ts e us :=
  ⟨e, us, h, .none⟩

theorem reaches_of_applied (hpower : power.rank ≤ 5) {ws : List Token} {e : Expr} (h : Applied E ws e) :
    ∃ vs t, ws = vs ++ [t] ∧ ∀ rest, (headKind ws = .ifWord → headKind rest ≠ .elseWord) →
      Reaches power E (ws ++ rest) e (t :: rest) := by
  have htighter : ∀ {last left : Token} {rest : List Token} {q : BindingPower} {form},
      left.kind.operator? = some (q, form) → 5 < q.rank → Tighter power (last :: left :: rest) := by
    intro last left rest q form hop hq
    exact ⟨(q, form), hop, Nat.lt_of_le_of_lt hpower hq⟩
  induction h with
  | primary hprimary =>
    obtain ⟨vs, t, rfl, hoperand⟩ := operandSpan_of_primary hprimary
    exact ⟨vs, t, rfl, fun rest hrest => reaches_of_operandSpan (hoperand rest hrest)⟩
  | @call ts c left us es right _ hleft hes hright ih =>
    obtain ⟨vs, t, rfl, hreaches⟩ := ih
    refine ⟨vs ++ [t] ++ left :: us, right, by simp, fun rest _ => ?_⟩
    have hcallee := hreaches (left :: (us ++ right :: rest)) fun _ => by rw [headKind_cons, hleft]; decide
    have hop : left.kind.operator? = some (.call, .call) := by rw [hleft]; rfl
    have hfold : FoldSpan .complete E c (t :: left :: (us ++ right :: rest)) (.call left c es) (right :: rest) := by
      apply foldSpan_cons hop
      exact ⟨left, es, ⟨us, right, rest, rfl, rfl, hes, hright⟩, rfl⟩
    have hnext := hcallee.step (htighter hop (by decide)) hfold
    simpa using hnext
  | @index ts c left us i right _ hleft hi hright ih =>
    obtain ⟨vs, t, rfl, hreaches⟩ := ih
    refine ⟨vs ++ [t] ++ left :: us, right, by simp, fun rest _ => ?_⟩
    have hcollection := hreaches (left :: (us ++ right :: rest)) fun _ => by rw [headKind_cons, hleft]; decide
    have hop : left.kind.operator? = some (.index, .index) := by rw [hleft]; rfl
    have hfold : FoldSpan .complete E c (t :: left :: (us ++ right :: rest)) (.index left c i) (right :: rest) := by
      apply foldSpan_cons hop
      exact ⟨left, i, ⟨us, right, rest, rfl, rfl, hi, hright⟩, rfl⟩
    have hnext := hcollection.step (htighter hop (by decide)) hfold
    simpa using hnext

/-- The operator behind the tokens is of rank `n` at most. -/
def Within (n : Nat) (rest : List Token) : Prop :=
  ∀ op, (headKind rest).operator? = some op → op.1.rank ≤ n

theorem reaches_of_unary (hpower : power.rank ≤ 5) {ws : List Token} {e : Expr} (h : Unary E ws e) :
    ∃ vs t, ws = vs ++ [t] ∧ ∀ rest, headKind rest ≠ .elseWord → Within 5 rest →
      Reaches power E (ws ++ rest) e (t :: rest) := by
  cases h with
  | applied happlied =>
    obtain ⟨vs, t, rfl, hreaches⟩ := reaches_of_applied hpower happlied
    exact ⟨vs, t, rfl, fun rest hrest _ => hreaches rest fun _ => hrest⟩
  | @op op ts r hop hunary =>
    have hconcat : ∃ vs t, ts = vs ++ [t] := by
      have hlevel : Level E [] ts r := .unary hunary
      exact level_begins.exists_concat hlevel
    obtain ⟨vs, t, rfl⟩ := hconcat
    refine ⟨op :: vs, t, rfl, fun rest helse hrest => reaches_of_operandSpan ?_⟩
    have hspan : Spans (Unary E) (Follow .complete .unary) (vs ++ [t] ++ rest) r (t :: rest) :=
      .of_append hunary ⟨fun q hq => Nat.not_lt.mpr (hrest q hq), fun _ => helse⟩
    refine ⟨.unary, Kind.operand?_eq_some_iff.mpr ?_, op, vs ++ [t] ++ rest, r, rfl, hspan, rfl⟩
    simpa [OperandForm.openers] using hop

theorem drop_levels_eq_cons {n : Nat} {ops : List Kind} {ls : List (List Kind)} (h : ops :: ls = levels.drop n) :
    n < 4 ∧ ls = levels.drop (n + 1) ∧ levels[n]? = some ops := by
  have hlt : n < levels.length := by
    apply Nat.lt_of_not_le
    intro hge
    rw [List.drop_eq_nil_of_le hge] at h
    exact List.cons_ne_nil _ _ h
  rw [List.drop_eq_getElem_cons hlt] at h
  obtain ⟨rfl, rfl⟩ := List.cons.inj h
  exact ⟨hlt, rfl, List.getElem?_eq_getElem hlt⟩

/-- A phrase of a level is folded up before any operator that is no tighter than the level. -/
theorem reaches_of_level (hpower : power.rank ≤ 5) {ls : List (List Kind)} {ws : List Token} {e : Expr}
    (h : Level E ls ws e) {n : Nat} (hls : ls = levels.drop n) (hn : n ≤ 4) (hle : power.rank ≤ n ∨ n = 4) :
    ∃ vs t, ws = vs ++ [t] ∧ ∀ rest, headKind rest ≠ .elseWord → Within (n + 1) rest →
      Reaches power E (ws ++ rest) e (t :: rest) := by
  induction h generalizing n with
  | unary hunary =>
    have hlength : levels.length ≤ n := List.drop_eq_nil_iff.mp hls.symm
    obtain rfl : n = 4 := Nat.le_antisymm hn hlength
    exact reaches_of_unary hpower hunary
  | tighter _ ih =>
    obtain ⟨hlt, hdrop, -⟩ := drop_levels_eq_cons hls
    have hpower' : power.rank ≤ n := by
      rcases hle with hle | rfl
      · exact hle
      · exact absurd hlt (Nat.lt_irrefl 4)
    obtain ⟨vs, t, rfl, hreaches⟩ := ih hdrop hlt (.inl (Nat.le_succ_of_le hpower'))
    refine ⟨vs, t, rfl, fun rest helse hrest => hreaches rest helse fun op hop => ?_⟩
    exact Nat.le_succ_of_le (hrest op hop)
  -- Only the left phrase is unfolded into folds; the one to the right is taken whole by this fold.
  | @op ops ls ts l t us r hl ht hr ihl _ =>
    obtain ⟨hlt, rfl, hops⟩ := drop_levels_eq_cons hls
    have hpower' : power.rank ≤ n := by
      rcases hle with hle | rfl
      · exact hle
      · exact absurd hlt (Nat.lt_irrefl 4)
    obtain ⟨q, hq, hrank⟩ := (Kind.mem_level_iff hops).mp ht
    obtain ⟨vs, last, rfl, hreaches⟩ := ihl hls hn hle
    obtain ⟨xs, t', rfl⟩ := level_begins.exists_concat hr
    refine ⟨vs ++ [last] ++ t :: xs, t', by simp, fun rest helse hrest => ?_⟩
    have hoperator : headKind (t :: (xs ++ [t'] ++ rest)) ≠ .elseWord ∧ Within (n + 1) (t :: (xs ++ [t'] ++ rest)) := by
      constructor
      · intro hk
        rw [headKind_cons] at hk
        simp [hk, Kind.operator?] at hq
      · intro op hop
        obtain rfl := Option.some.inj (hq.symm.trans hop)
        exact Nat.le_of_eq hrank
    have hleft := hreaches _ hoperator.1 hoperator.2
    have hright : Spans (Level E (levels.drop q.rank)) (Follow .complete q) (xs ++ [t'] ++ rest) r (t' :: rest) := by
      refine .of_append (hrank.symm ▸ hr) ⟨fun op hop => ?_, fun _ => helse⟩
      have hop' := hrest op hop
      exact Nat.not_lt.mpr (hrank.symm ▸ hop')
    have hfold : FoldSpan .complete E l (last :: t :: (xs ++ [t'] ++ rest)) (.binary t l t.value r) (t' :: rest) := by
      apply foldSpan_cons hq
      exact ⟨t, _, r, rfl, hright, rfl⟩
    have htighter : Tighter power (last :: t :: (xs ++ [t'] ++ rest)) :=
      ⟨(q, .binary), hq, Nat.lt_of_le_of_lt hpower' (hrank ▸ Nat.lt_succ_self n)⟩
    have hnext := hleft.step htighter hfold
    simpa using hnext

/-- The operand and the folds make up a phrase of the level that the power asks for. -/
theorem folds_lead_to_level (hpower : dir = .complete → power.rank ≤ 5) (ts : List Token) (e : Expr) (us : List Token) :
    Leads dir (∃ left vs, OperandSpan dir E ts left vs ∧ Repeats (Tighter power) (FoldSpan dir E) left vs e us)
      (Spans (Level E (levels.drop power.rank)) (Follow dir power) ts e us) := by
  constructor
  · rintro rfl h
    obtain ⟨left, vs, hoperand, hfolds⟩ := h
    obtain ⟨ws, t, rest, rfl, rfl, hfolded⟩ := folded_of_operandSpan power hoperand
    obtain ⟨vs, t', rest', hts, rfl, hstops, hlevel⟩ := level_of_folds hfolds rfl hfolded
    exact ⟨vs, t', rest', hts, rfl, hlevel, hstops, fun hdir => nomatch hdir⟩
  · rintro rfl h
    obtain ⟨ws, t, rest, rfl, rfl, hlevel, hstops, helse⟩ := h
    have hpower := hpower rfl
    -- The unary power asks for the last level too, where there are no operators left.
    have hmin : levels.drop power.rank = levels.drop (min power.rank 4) ∧
        (power.rank ≤ min power.rank 4 ∨ min power.rank 4 = 4) ∧ Within (min power.rank 4 + 1) rest := by
      refine ⟨?_, by omega, fun op hop => ?_⟩
      · cases power <;> rfl
      · have hle : op.1.rank ≤ power.rank := Nat.le_of_not_lt (hstops op hop)
        omega
    obtain ⟨hdrop, hle, hwithin⟩ := hmin
    obtain ⟨vs, t', hvs, hreaches⟩ := reaches_of_level hpower (hdrop ▸ hlevel) rfl (Nat.min_le_right _ _) hle
    obtain ⟨rfl, ht⟩ := List.append_inj' hvs rfl
    obtain rfl := List.singleton_inj.mp ht
    obtain ⟨left, xs, hoperand, hrounds⟩ := hreaches rest (helse rfl) hwithin
    have hdone := hrounds.repeats (.done (not_tighter_iff.mpr hstops))
    rw [List.append_assoc, List.singleton_append] at hoperand
    exact ⟨left, xs, hoperand, hdone⟩

end FrontEnd.Parse
