import FrontEnd.Proofs.Parser.Listing

/-!
What the steps for operands and for what follows an operand read, given what the step for expressions reads.
-/

namespace FrontEnd.Parse

open Grammar

variable {β : Type} {dir : Direction}

def BlockSpan (E : List Token → Expr → Prop) (ts : List Token) (b : Block) (us : List Token) : Prop :=
  ∃ left ss, Encloses .closeCurly (Stmts E) left ts ss us ∧ left.kind = .openCurly ∧ b = .mk left ss

def OtherwiseSpan (E : List Token → Expr → Prop) (ts : List Token) (o : Option Block) (us : List Token) : Prop :=
  (headKind ts.tail = .elseWord ∧ ∃ b, BlockSpan E ts.tail.tail b us ∧ o = some b) ∨
    (headKind ts.tail ≠ .elseWord ∧ o = none ∧ us = ts)

/-- The tokens that operands of each form take. -/
def FormSpan (dir : Direction) (E : List Token → Expr → Prop) :
    OperandForm → List Token → Expr → List Token → Prop
  | .atom, ts, e, us => us = ts ∧ ∃ t rest, ts = t :: rest ∧ Atom t e
  | .unary, ts, e, us =>
    ∃ op vs r, ts = op :: vs ∧ Spans (Unary E) (Follow dir .unary) vs r us ∧ e = .unary op op.value r
  | .group, ts, e, us => ∃ left, Encloses .closeParen E left ts e us
  | .cond, ts, e, us => ∃ word vs left c ws b xs o, ts = word :: vs ∧ Encloses .closeParen E left vs c ws ∧
      left.kind = .openParen ∧ BlockSpan E ws.tail b xs ∧ OtherwiseSpan E xs o us ∧ e = .cond word c b o
  | .fn, ts, e, us => ∃ word vs left ids ws b, ts = word :: vs ∧ Encloses .closeParen (Listing Name) left vs ids ws ∧
      left.kind = .openParen ∧ BlockSpan E ws.tail b us ∧ e = .fn word ids b none
  | .array, ts, e, us => ∃ left es, Encloses .closeBracket (Listing E) left ts es us ∧ e = .array left es
  | .hash, ts, e, us => ∃ left entries, Encloses .closeCurly (PairListing E) left ts entries us ∧ e = .hash left entries

/-- A conditional, whatever its first token is. -/
inductive Conditional (E : List Token → Expr → Prop) : List Token → Expr → Prop
  | mk {word left ts c right us b vs o} : left.kind = .openParen → E ts c → right.kind = .closeParen →
    Braced E us b → Otherwise E vs o → Conditional E (word :: left :: (ts ++ right :: (us ++ vs))) (.cond word c b o)

/-- A function, whatever its first token is. -/
inductive Function (E : List Token → Expr → Prop) : List Token → Expr → Prop
  | mk {word left ts ids right us b} : left.kind = .openParen → Listing Name ts ids → right.kind = .closeParen →
    Braced E us b → Function E (word :: left :: (ts ++ right :: us)) (.fn word ids b none)

theorem Conditional.primary {E : List Token → Expr → Prop} {ts : List Token} {e : Expr} (h : Conditional E ts e)
    (hk : headKind ts = .ifWord) : Primary E ts e := by
  cases h with
  | mk hleft hc hright hb ho => exact .cond hk hleft hc hright hb ho

theorem Function.primary {E : List Token → Expr → Prop} {ts : List Token} {e : Expr} (h : Function E ts e)
    (hk : headKind ts = .fnWord) : Primary E ts e := by
  cases h with
  | mk hleft hids hright hb => exact .fn hk hleft hids hright hb

namespace Describes

variable {I : Parser → Prop} {stop : Position} (hI : Stable I)

include hI

theorem noOperand (token : Token) : Describes dir I stop (Parse.noOperand token) (fun _ _ _ => False) :=
  congr ((report hI _).bind fun _ => fail) (by simp)

theorem int (token : Token) : Describes dir I stop (Parse.int token)
    (Phrase fun ts e us => ∃ v, Numeral.value? token.value = some v ∧ e = .int token v ∧ us = ts) := by
  unfold Parse.int
  cases h : Numeral.value? token.value with
  | none =>
    refine congr ((report hI _).bind fun _ => fail) fun ts a us => ?_
    cases a <;> simp
  | some v =>
    refine congr (pure _) fun ts a us => ?_
    cases a <;> simp

theorem atom : Describes dir I stop Parse.atom (Phrase fun ts e us =>
    us = ts ∧ ∃ t rest, ts = t :: rest ∧ Atom t e) := by
  refine current_dispatch fun token => ?_
  have hcons : ∀ ts : List Token, ts.headD (Token.eof stop) = token → token.kind ≠ .eof →
      ∃ rest, ts = token :: rest := by
    intro ts hts hk
    cases ts with
    | nil => exact absurd (hts ▸ rfl) hk
    | cons t rest => exact ⟨rest, congrArg (· :: rest) hts⟩
  have hone : ∀ e, token.kind ≠ .eof → (∀ e', Atom token e' ↔ e' = e) → ∀ ts (o : Option Expr) us,
      ts.headD (Token.eof stop) = token →
        (Phrase (fun ts e' us => e' = e ∧ us = ts) ts o us ↔
          Phrase (fun ts e us => us = ts ∧ ∃ t rest, ts = t :: rest ∧ Atom t e) ts o us) := by
    intro e hk hatom ts o us hts
    obtain ⟨rest, rfl⟩ := hcons ts hts hk
    cases o with
    | none => rfl
    | some e' => simp [← hatom, and_comm]
  cases hk : token.kind with
  | number =>
    refine ⟨_, int hI token, fun ts o us hts => ?_⟩
    obtain ⟨rest, rfl⟩ := hcons ts hts (by simp [hk])
    cases o with
    | none => rfl
    | some e =>
      constructor
      · intro h
        obtain ⟨v, hv, rfl, rfl⟩ := h
        exact ⟨rfl, token, rest, rfl, .int hk hv⟩
      · intro h
        obtain ⟨rfl, t, rest', hts, h⟩ := h
        obtain ⟨rfl, rfl⟩ := List.cons.inj hts
        cases h <;> simp_all
  | identifier =>
    refine ⟨_, pure _, hone _ (by simp [hk]) fun e => ⟨fun h => ?_, fun h => h ▸ .ident hk⟩⟩
    cases h <;> simp_all
  | string =>
    refine ⟨_, pure _, hone _ (by simp [hk]) fun e => ⟨fun h => ?_, fun h => h ▸ .str hk⟩⟩
    cases h <;> simp_all
  | trueWord =>
    refine ⟨_, pure _, hone _ (by simp [hk]) fun e => ⟨fun h => ?_, fun h => h ▸ .trueWord hk⟩⟩
    cases h <;> simp_all
  | falseWord =>
    refine ⟨_, pure _, hone _ (by simp [hk]) fun e => ⟨fun h => ?_, fun h => h ▸ .falseWord hk⟩⟩
    cases h <;> simp_all
  -- No other kind is an atom, and the step reports each of them.
  | _ =>
    refine ⟨_, noOperand hI token, fun ts o us hts => ?_⟩
    cases o with
    | none => rfl
    | some e =>
      refine ⟨False.elim, ?_⟩
      intro h
      obtain ⟨-, t, rest, rfl, h⟩ := h
      obtain rfl : t = token := hts
      exact absurd h.operand? (by rw [hk]; decide)

variable {E : List Token → Expr → Prop} {sub : SubExpr}

theorem unary (hsub : Describes dir I stop (sub .unary) (Phrase (Spans (Unary E) (Follow dir .unary)))) :
    Describes dir I stop (Parse.unary sub) (Phrase fun ts e us =>
      ∃ r, Spans (Unary E) (Follow dir .unary) ts.tail r us ∧
        e = .unary (ts.headD (Token.eof stop)) (ts.headD (Token.eof stop)).value r) := by
  refine congr (current_bind fun token => advance_bind hI <| hsub.bind fun r => pure _) fun ts a us => ?_
  cases a with
  | none => simp
  | some e =>
    constructor
    · intro h
      obtain ⟨r, us, hr, rfl, rfl⟩ := h
      exact ⟨r, hr, rfl⟩
    · intro h
      obtain ⟨r, hr, rfl⟩ := h
      exact ⟨r, us, hr, rfl, rfl⟩

variable (hE : Begins E) (hsub : Describes dir I stop (sub .lowest) (Phrase (Spans E (Follow dir .lowest))))

include hE hsub

theorem group : Describes dir I stop (Parse.group sub) (Phrase fun ts e us =>
    ∃ left, Encloses .closeParen E left ts e us) := by
  refine congr (enclosed_bind hI hE hsub .closeParen rfl (by decide) (by decide) fun o => ofOption o)
    fun ts a us => ?_
  constructor
  · intro h
    obtain ⟨left, e, us, h, rfl, rfl⟩ := h
    exact ⟨left, h⟩
  · intro h
    cases a with
    | none => exact h.elim
    | some e =>
      obtain ⟨left, h⟩ := h
      exact ⟨left, e, us, h, rfl, rfl⟩

theorem index (collection : Expr) : Describes dir I stop (Parse.index sub collection) (Phrase fun ts e us =>
    ∃ left i, Encloses .closeBracket E left ts i us ∧ e = .index left collection i) := by
  refine congr (current_bind fun token => enclosed_bind hI hE hsub .closeBracket rfl (by decide) (by decide)
    fun o => ofOption_bind o fun i => pure (Expr.index token collection i)) fun ts a us => ?_
  constructor
  · intro h
    obtain ⟨left, i, us, h, ha⟩ := h
    cases a with
    | none => exact ha.elim
    | some e =>
      obtain ⟨rfl, rfl⟩ := ha
      exact ⟨left, i, h, by rw [h.headD_eq]⟩
  · intro h
    cases a with
    | none => exact h.elim
    | some e =>
      obtain ⟨left, i, h, rfl⟩ := h
      exact ⟨left, i, us, h, by rw [h.headD_eq], rfl⟩

theorem array : Describes dir I stop (Parse.array sub) (Phrase fun ts e us =>
    ∃ left es, Encloses .closeBracket (Listing E) left ts es us ∧ e = .array left es) := by
  refine congr (current_bind fun token => (items hI hE hsub .closeBracket (by decide)).bind fun es =>
    pure (Expr.array token es)) fun ts a us => ?_
  cases a with
  | none => simp
  | some e =>
    constructor
    · intro h
      obtain ⟨es, us, ⟨left, h⟩, rfl, rfl⟩ := h
      exact ⟨left, es, h, by rw [h.headD_eq]⟩
    · intro h
      obtain ⟨left, es, h, rfl⟩ := h
      exact ⟨es, us, ⟨left, h⟩, by rw [h.headD_eq], rfl⟩

theorem call (callee : Expr) : Describes dir I stop (Parse.call sub callee) (Phrase fun ts e us =>
    ∃ left es, Encloses .closeParen (Listing E) left ts es us ∧ e = .call left callee es) := by
  refine congr (current_bind fun token => (items hI hE hsub .closeParen (by decide)).bind fun es =>
    pure (Expr.call token callee es)) fun ts a us => ?_
  cases a with
  | none => simp
  | some e =>
    constructor
    · intro h
      obtain ⟨es, us, ⟨left, h⟩, rfl, rfl⟩ := h
      exact ⟨left, es, h, by rw [h.headD_eq]⟩
    · intro h
      obtain ⟨left, es, h, rfl⟩ := h
      exact ⟨es, us, ⟨left, h⟩, by rw [h.headD_eq], rfl⟩

/-- A block and the brace before it. -/
theorem braced_bind {f : Block → Parse β} {H : Block → List Token → Option β → List Token → Prop}
    (hf : ∀ b, Describes dir I stop (f b) (H b)) :
    Describes dir I stop (Parse.expect .openCurly >>= fun _ => Parse.block sub >>= f)
      (fun ts o vs => ∃ b us, BlockSpan E ts.tail b us ∧ H b us o vs) := by
  refine congr (expect_bind hI .openCurly <| (block hI hE hsub).bind hf) fun ts o vs => ?_
  constructor
  · intro h
    obtain ⟨hk, b, us, ⟨left, ss, h, rfl⟩, hH⟩ := h
    refine ⟨_, us, ⟨left, ss, h, ?_, rfl⟩, hH⟩
    obtain ⟨ws, right, rest, hts, -⟩ := h
    rwa [hts, headKind_cons] at hk
  · intro h
    obtain ⟨b, us, ⟨left, ss, h, hleft, rfl⟩, hH⟩ := h
    refine ⟨?_, _, us, ⟨left, ss, h, rfl⟩, hH⟩
    obtain ⟨ws, right, rest, hts, -⟩ := h
    rw [hts, headKind_cons, hleft]

theorem alternative : Describes dir I stop (Parse.alternative sub) (Phrase (OtherwiseSpan E)) := by
  refine congr (peekIs_bind .elseWord (advance_bind hI <| braced_bind hI hE hsub fun b => pure (some b)) (pure none))
    fun ts a us => ?_
  cases a with
  | none => simp
  | some o =>
    constructor
    · intro h
      rcases h with ⟨hk, b, us, hb, rfl, rfl⟩ | ⟨hk, rfl, rfl⟩
      · exact .inl ⟨hk, b, hb, rfl⟩
      · exact .inr ⟨hk, rfl, rfl⟩
    · intro h
      rcases h with ⟨hk, b, hb, rfl⟩ | ⟨hk, rfl, rfl⟩
      · exact .inl ⟨hk, b, us, hb, rfl, rfl⟩
      · exact .inr ⟨hk, rfl, rfl⟩

theorem cond : Describes dir I stop (Parse.cond sub) (Phrase fun ts e us => FormSpan dir E .cond ts e us) := by
  refine congr (current_bind fun word => expect_bind hI .openParen <|
    enclosed_bind hI hE hsub .closeParen rfl (by decide) (by decide) fun condition =>
      braced_bind hI hE hsub fun b => (alternative hI hE hsub).bind fun o => ofOption_bind condition fun c =>
        pure (Expr.cond word c b o)) fun ts a us => ?_
  constructor
  · intro h
    obtain ⟨hk, left, c, ws, hc, b, xs, hb, o, us, ho, h⟩ := h
    cases a with
    | none => exact h.elim
    | some e =>
      obtain ⟨rfl, rfl⟩ := h
      obtain ⟨vs, right, rest, hts, -⟩ := id hc
      obtain ⟨word, rfl⟩ := exists_cons_of_tail_eq_cons hts
      rw [hts, headKind_cons] at hk
      exact ⟨word, _, left, c, ws, b, xs, o, rfl, hc, hk, hb, ho, rfl⟩
  · intro h
    cases a with
    | none => exact h.elim
    | some e =>
      obtain ⟨word, vs, left, c, ws, b, xs, o, rfl, hc, hk, hb, ho, rfl⟩ := h
      refine ⟨?_, left, c, ws, hc, b, xs, hb, o, us, ho, rfl, rfl⟩
      obtain ⟨_, right, rest, rfl, -⟩ := hc
      exact hk

theorem fn : Describes dir I stop (Parse.fn sub) (Phrase fun ts e us => FormSpan dir E .fn ts e us) := by
  refine congr (current_bind fun word => expect_bind hI .openParen <| (parameters hI).bind fun ids =>
    braced_bind hI hE hsub fun b => pure (Expr.fn word ids b none)) fun ts a us => ?_
  cases a with
  | none => simp
  | some e =>
    constructor
    · intro h
      obtain ⟨hk, ids, ws, ⟨left, hids⟩, b, us, hb, rfl, rfl⟩ := h
      obtain ⟨vs, right, rest, hts, -⟩ := id hids
      obtain ⟨word, rfl⟩ := exists_cons_of_tail_eq_cons hts
      rw [hts, headKind_cons] at hk
      exact ⟨word, _, left, ids, ws, b, rfl, hids, hk, hb, rfl⟩
    · intro h
      obtain ⟨word, vs, left, ids, ws, b, rfl, hids, hk, hb, rfl⟩ := h
      refine ⟨?_, ids, ws, ⟨left, hids⟩, b, us, hb, rfl, rfl⟩
      obtain ⟨_, right, rest, rfl, -⟩ := hids
      exact hk

theorem operand (hunary : Describes dir I stop (sub .unary) (Phrase (Spans (Unary E) (Follow dir .unary)))) :
    Describes dir I stop (Parse.operand sub) (Phrase fun ts e us =>
      ∃ form, (headKind ts).operand? = some form ∧ FormSpan dir E form ts e us) := by
  refine current_dispatch fun token => ?_
  have hform : ∀ {x : Parse Expr} {form}, token.kind.operand? = some form →
      Describes dir I stop x (Phrase (FormSpan dir E form)) → ∃ H, Describes dir I stop x H ∧ ∀ ts b us,
        ts.headD (Token.eof stop) = token → (H ts b us ↔ Phrase (fun ts e us =>
          ∃ form, (headKind ts).operand? = some form ∧ FormSpan dir E form ts e us) ts b us) := by
    intro x form hf hx
    refine ⟨_, hx, fun ts b us hts => ?_⟩
    rw [← hts, headD_eof_kind] at hf
    cases b with
    | none => rfl
    | some e => simp [hf]
  cases hf : token.kind.operand? with
  | none =>
    refine ⟨_, noOperand hI token, fun ts b us hts => ?_⟩
    rw [← hts, headD_eof_kind] at hf
    cases b with
    | none => rfl
    | some e => simp [hf]
  | some form =>
    cases form with
    | atom => exact hform hf (atom hI)
    | unary =>
      refine hform hf (congr (unary hI hunary) fun ts b us => ?_)
      cases b with
      | none => rfl
      | some e =>
        constructor
        · intro h
          obtain ⟨r, hr, rfl⟩ := h
          have htokens := hr
          obtain ⟨vs, t, rest, hts, -⟩ := htokens
          cases ts with
          | nil => simp at hts
          | cons op ts => exact ⟨op, ts, r, rfl, hr, rfl⟩
        · intro h
          obtain ⟨op, ws, r, rfl, hr, rfl⟩ := h
          exact ⟨r, hr, rfl⟩
    | group => exact hform hf (group hI hE hsub)
    | cond => exact hform hf (cond hI hE hsub)
    | fn => exact hform hf (fn hI hE hsub)
    | array => exact hform hf (array hI hE hsub)
    | hash => exact hform hf (hash hI hE hsub)

end Describes

end FrontEnd.Parse
