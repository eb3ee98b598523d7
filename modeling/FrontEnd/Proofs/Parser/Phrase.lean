import FrontEnd.Proofs.Grammar
import FrontEnd.Proofs.Parser.Reading

/-!
Stretches of tokens as parsing steps cross them, from the token a step begins on to the last one it takes: phrases of a
category, and phrases between an opening and a closing token.
-/

namespace FrontEnd

open Parse (Direction)

/-- Behind `rest` comes no operator that binds tighter. -/
def Stops (power : BindingPower) (rest : List Token) : Prop :=
  ∀ op, (headKind rest).operator? = some op → ¬power < op.1

theorem stops_of_operator?_eq_none {power : BindingPower} {rest : List Token} (h : (headKind rest).operator? = none) :
    Stops power rest := by
  intro op hop
  simp [h] at hop

theorem BindingPower.lowest_lt_of_operator? {k : Kind} {op : BindingPower × OperatorForm} (h : k.operator? = some op) :
    BindingPower.lowest < op.1 := by
  cases k <;> simp [Kind.operator?] at h <;> subst h <;> decide

theorem stops_lowest_iff {rest : List Token} : Stops .lowest rest ↔ (headKind rest).operator? = none := by
  refine ⟨fun h => ?_, stops_of_operator?_eq_none⟩
  cases hop : (headKind rest).operator? with
  | none => rfl
  | some op => exact absurd (BindingPower.lowest_lt_of_operator? hop) (h op hop)

theorem Kind.eq_letWord {k : Kind} (h : k.statement? = some .bind) : k = .letWord := by
  cases k <;> simp [statement?] at h ⊢

theorem Kind.eq_returnWord {k : Kind} (h : k.statement? = some .ret) : k = .returnWord := by
  cases k <;> simp [statement?] at h ⊢

/-- What begins something is no end. -/
theorem Kind.ne_eof_of_form {β : Type} {form : Kind → Option β} {k : Kind} {b : β} (h : form k = some b)
    (heof : form .eof = none) : k ≠ .eof := by
  rintro rfl
  exact Option.some_ne_none b (h.symm.trans heof)

/-- No operand begins like a statement of another kind. -/
theorem Kind.statement?_eq_none {k : Kind} (h : k.operand? ≠ none) : k.statement? = none := by
  cases k <;> first | rfl | exact absurd rfl h

/-- The kinds that operands of each form begin with. -/
def OperandForm.openers : OperandForm → List Kind
  | atom => [.identifier, .number, .string, .trueWord, .falseWord]
  | unary => [.bang, .dash]
  | group => [.openParen]
  | cond => [.ifWord]
  | fn => [.fnWord]
  | array => [.openBracket]
  | hash => [.openCurly]

theorem Kind.operand?_eq_some_iff {k : Kind} {form : OperandForm} : k.operand? = some form ↔ k ∈ form.openers := by
  cases k <;> cases form <;> decide

theorem Kind.rank_le_of_binary {k : Kind} {power : BindingPower} (h : k.operator? = some (power, .binary)) :
    power.rank ≤ 4 := by
  cases k <;> simp [operator?] at h <;> subst h <;> decide

theorem Kind.eq_openParen_of_call {k : Kind} {power : BindingPower} (h : k.operator? = some (power, .call)) :
    k = .openParen ∧ power = .call := by
  cases k <;> simp [operator?] at h ⊢
  exact h.symm

theorem Kind.eq_openBracket_of_index {k : Kind} {power : BindingPower} (h : k.operator? = some (power, .index)) :
    k = .openBracket ∧ power = .index := by
  cases k <;> simp [operator?] at h ⊢
  exact h.symm

/-- The operators that are no call and no indexing have the rank of their level. -/
theorem Kind.mem_level_iff {k : Kind} {n : Nat} {ops : List Kind} (h : Grammar.levels[n]? = some ops) :
    k ∈ ops ↔ ∃ power, k.operator? = some (power, .binary) ∧ power.rank = n + 1 := by
  rcases n with _ | _ | _ | _ | n
  · obtain rfl := Option.some.inj h
    cases k <;> simp [operator?, BindingPower.rank]
  · obtain rfl := Option.some.inj h
    cases k <;> simp [operator?, BindingPower.rank]
  · obtain rfl := Option.some.inj h
    cases k <;> simp [operator?, BindingPower.rank]
  · obtain rfl := Option.some.inj h
    cases k <;> simp [operator?, BindingPower.rank]
  · simp [Grammar.levels] at h

theorem Grammar.notMem_continuing_iff {k : Kind} : k ∉ continuing ↔ k ≠ .semicolon ∧ k.operator? = none := by
  cases k <;> decide

theorem Grammar.Atom.operand? {t : Token} {e : Expr} (h : Atom t e) : t.kind.operand? = some .atom := by
  cases h with
  | ident hk | int hk _ | str hk | trueWord hk | falseWord hk => rw [hk]; rfl

/-- What a grammar rule needs of the tokens behind an expression: an `if` without `else` has none to come. -/
def Follow (dir : Direction) (power : BindingPower) (rest : List Token) : Prop :=
  Stops power rest ∧ (dir = .complete → headKind rest ≠ .elseWord)

theorem follow_of_operator?_eq_none {dir : Direction} {power : BindingPower} {rest : List Token}
    (h : (headKind rest).operator? = none) (helse : headKind rest ≠ .elseWord) : Follow dir power rest :=
  ⟨stops_of_operator?_eq_none h, fun _ => helse⟩

namespace Parse

variable {α β : Type} {dir : Direction}

/-- The tokens begin with a phrase of `D`, and `F` holds of those behind it. The step ends on its last token. -/
def Spans (D : List Token → α → Prop) (F : List Token → Prop) (ts : List Token) (a : α) (us : List Token) : Prop :=
  ∃ vs t rest, ts = vs ++ t :: rest ∧ us = t :: rest ∧ D (vs ++ [t]) a ∧ F rest

/-- Behind the token `left` comes a phrase of `D` and then a token of kind `close`, on which the step ends. -/
def Encloses (close : Kind) (D : List Token → α → Prop) (left : Token) (ts : List Token) (a : α) (us : List Token) :
    Prop :=
  ∃ vs right rest, ts = left :: (vs ++ right :: rest) ∧ us = right :: rest ∧ D vs a ∧ right.kind = close

theorem Encloses.headD_eq {close : Kind} {D : List Token → α → Prop} {left : Token} {ts us : List Token} {a : α}
    (h : Encloses close D left ts a us) (t : Token) : ts.headD t = left := by
  obtain ⟨ws, right, rest, rfl, -⟩ := h
  rfl

theorem Spans.length_lt {D : List Token → α → Prop} {F : List Token → Prop} {ts us : List Token} {a : α}
    (h : Spans D F ts a us) : us.tail.length < ts.length := by
  obtain ⟨vs, t, rest, rfl, rfl, -, -⟩ := h
  simp only [List.tail_cons, List.length_append, List.length_cons]
  omega

theorem Spans.of_append {D : List Token → α → Prop} {F : List Token → Prop} {vs rest : List Token} {t : Token} {a : α}
    (h : D (vs ++ [t]) a) (hrest : F rest) : Spans D F ((vs ++ [t]) ++ rest) a (t :: rest) :=
  ⟨vs, t, rest, by rw [List.append_assoc, List.singleton_append], rfl, h, hrest⟩

/-- Every phrase of `E` begins like an operand. -/
def Begins (E : List Token → Expr → Prop) : Prop :=
  ∀ ts e, E ts e → (headKind ts).operand? ≠ none

variable {E : List Token → Expr → Prop}

theorem Begins.exists_concat (hE : Begins E) {ts : List Token} {e : Expr} (h : E ts e) : ∃ vs t, ts = vs ++ [t] := by
  cases ts with
  | nil => exact absurd rfl (hE [] e h)
  | cons t ts => exact ⟨_, _, (List.dropLast_concat_getLast (List.cons_ne_nil t ts)).symm⟩

theorem Begins.exists_cons (hE : Begins E) {ts : List Token} {e : Expr} (h : E ts e) :
    ∃ t vs, ts = t :: vs ∧ t.kind.operand? ≠ none := by
  cases ts with
  | nil => exact absurd rfl (hE [] e h)
  | cons t ts => exact ⟨t, ts, rfl, hE _ e h⟩

theorem Begins.head?_append (hE : Begins E) {ts : List Token} {e : Expr} (h : E ts e) (us : List Token) :
    (ts ++ us).head? = ts.head? := by
  obtain ⟨t, vs, rfl, -⟩ := hE.exists_cons h
  rfl

theorem Begins.headKind_append (hE : Begins E) {ts : List Token} {e : Expr} (h : E ts e) (us : List Token) :
    (headKind (ts ++ us)).operand? ≠ none := by
  obtain ⟨t, vs, rfl, ht⟩ := hE.exists_cons h
  exact ht

/-- An expression and then a token of a kind that is no operator. -/
theorem exists_spans_iff_encloses (hE : Begins E) {close : Kind} (hc : close.operator? = none) (he : close ≠ .eof)
    (helse : close ≠ .elseWord) {ts us : List Token} {e : Expr} :
    (∃ vs, Spans E (Follow dir .lowest) ts.tail e vs ∧ headKind vs.tail = close ∧ us = vs.tail) ↔
      ∃ left, Encloses close E left ts e us := by
  constructor
  · intro h
    obtain ⟨-, ⟨vs, t, rest, hts, rfl, h, -⟩, hk, rfl⟩ := h
    obtain ⟨right, rest, rfl, hr⟩ := exists_cons_of_headKind hk he
    cases ts with
    | nil => simp at hts
    | cons left ts =>
      obtain rfl : ts = vs ++ t :: right :: rest := hts
      exact ⟨left, vs ++ [t], right, rest, by simp, rfl, h, hr⟩
  · intro h
    obtain ⟨left, ws, right, rest, rfl, rfl, h, hr⟩ := h
    obtain ⟨vs, t, rfl⟩ := hE.exists_concat h
    refine ⟨t :: right :: rest, ⟨vs, t, right :: rest, by simp, rfl, h, ?_⟩, hr, rfl⟩
    exact follow_of_operator?_eq_none (by rw [headKind_cons, hr, hc]) (by rwa [headKind_cons, hr])

end Parse

end FrontEnd
