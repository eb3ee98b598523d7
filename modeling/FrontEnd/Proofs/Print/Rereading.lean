import FrontEnd.Proofs.Parser.Program
import FrontEnd.Proofs.Print.Legible
import FrontEnd.Proofs.Print.Unplaced

/-!
Reading what is printed of a tree: its lexemes spell the tree again, up to the places of its tokens.
-/

namespace FrontEnd

open Grammar

variable {T : List Token} {e : Expr}

theorem Token.unplaced_eq {t t' : Token} (h : t'.lexeme = t.lexeme) : t'.unplaced = t.unplaced := by
  unfold Token.lexeme at h
  obtain ⟨hkind, hvalue⟩ := Prod.mk.inj h
  unfold Token.unplaced
  rw [hkind, hvalue]

theorem Token.kind_eq {t : Token} {k : Kind} {value : String} (h : t.lexeme = (k, value)) : t.kind = k :=
  congrArg Prod.fst h

theorem Token.value_eq {t t' : Token} (h : t'.lexeme = t.lexeme) : t'.value = t.value :=
  congrArg Prod.snd h

theorem exists_of_map_lexeme_cons {lexeme : Lexeme} {ls : List Lexeme} (h : T.map Token.lexeme = lexeme :: ls) :
    ∃ t ts, T = t :: ts ∧ t.lexeme = lexeme ∧ ts.map Token.lexeme = ls := by
  obtain ⟨t, ts, rfl, ht, hts⟩ := List.map_eq_cons_iff.mp h
  exact ⟨t, ts, rfl, ht, hts⟩

/-- A token of a kind with one text, behind others. -/
theorem exists_of_map_lexeme_concat {k : Kind} {ls : List Lexeme} (h : T.map Token.lexeme = ls ++ [k.lexeme]) :
    ∃ ts t, T = ts ++ [t] ∧ ts.map Token.lexeme = ls ∧ t.kind = k := by
  obtain ⟨ts, us, rfl, hts, hus⟩ := List.map_eq_append_iff.mp h
  obtain ⟨t, vs, rfl, ht, hvs⟩ := exists_of_map_lexeme_cons hus
  obtain rfl := List.map_eq_nil_iff.mp hvs
  exact ⟨ts, t, rfl, hts, Token.kind_eq ht⟩

/-! The parts that the lexemes of a printed tree fall into -/

section Parts

variable {t : Token} {operator : String} {l r : Expr} {es : List Expr}

theorem parts_of_unary (h : T.map Token.lexeme = (Expr.unary t operator r).lexemes) :
    ∃ left op us right, T = left :: (op :: us ++ [right]) ∧ left.kind = .openParen ∧ op.lexeme = t.lexeme ∧
      us.map Token.lexeme = r.lexemes ∧ right.kind = .closeParen := by
  rw [Expr.lexemes] at h
  obtain ⟨left, ts, rfl, hleft, hts⟩ := exists_of_map_lexeme_cons h
  obtain ⟨op, vs, rfl, hop, hvs⟩ := exists_of_map_lexeme_cons hts
  obtain ⟨us, right, rfl, hus, hright⟩ := exists_of_map_lexeme_concat hvs
  exact ⟨left, op, us, right, rfl, Token.kind_eq hleft, hop, hus, hright⟩

theorem parts_of_binary (h : T.map Token.lexeme = (Expr.binary t l operator r).lexemes) :
    ∃ left us op vs right, T = left :: (us ++ op :: vs ++ [right]) ∧ left.kind = .openParen ∧
      us.map Token.lexeme = l.lexemes ∧ op.lexeme = t.lexeme ∧ vs.map Token.lexeme = r.lexemes ∧
      right.kind = .closeParen := by
  rw [Expr.lexemes] at h
  obtain ⟨left, ts, rfl, hleft, hts⟩ := exists_of_map_lexeme_cons h
  obtain ⟨us, ws, rfl, hus, hws⟩ := List.map_eq_append_iff.mp hts
  obtain ⟨op, xs, rfl, hop, hxs⟩ := exists_of_map_lexeme_cons hws
  obtain ⟨vs, right, rfl, hvs, hright⟩ := exists_of_map_lexeme_concat hxs
  exact ⟨left, us, op, vs, right, by rw [List.append_assoc, List.cons_append], Token.kind_eq hleft, hus, hop, hvs,
    hright⟩

theorem parts_of_index (h : T.map Token.lexeme = (Expr.index t l r).lexemes) :
    ∃ left us op vs close right, T = left :: (us ++ op :: (vs ++ [close]) ++ [right]) ∧ left.kind = .openParen ∧
      us.map Token.lexeme = l.lexemes ∧ op.lexeme = t.lexeme ∧ vs.map Token.lexeme = r.lexemes ∧
      close.kind = .closeBracket ∧ right.kind = .closeParen := by
  have hlexemes : (Expr.index t l r).lexemes = Kind.openParen.lexeme :: (l.lexemes ++ t.lexeme ::
      (r.lexemes ++ [Kind.closeBracket.lexeme] ++ [Kind.closeParen.lexeme])) := by
    simp [Expr.lexemes]
  obtain ⟨left, ts, rfl, hleft, hts⟩ := exists_of_map_lexeme_cons (h.trans hlexemes)
  obtain ⟨us, ws, rfl, hus, hws⟩ := List.map_eq_append_iff.mp hts
  obtain ⟨op, xs, rfl, hop, hxs⟩ := exists_of_map_lexeme_cons hws
  obtain ⟨ys, right, rfl, hys, hright⟩ := exists_of_map_lexeme_concat hxs
  obtain ⟨vs, close, rfl, hvs, hclose⟩ := exists_of_map_lexeme_concat hys
  exact ⟨left, us, op, vs, close, right, by simp, Token.kind_eq hleft, hus, hop, hvs, hclose, hright⟩

theorem parts_of_call (h : T.map Token.lexeme = (Expr.call t l es).lexemes) :
    ∃ us left vs right, T = us ++ left :: (vs ++ [right]) ∧ us.map Token.lexeme = l.lexemes ∧ left.lexeme = t.lexeme ∧
      vs.map Token.lexeme = commaSeparated (es.map Expr.lexemes) ∧ right.kind = .closeParen := by
  rw [Expr.lexemes, lexemesOfExprs_eq_map] at h
  obtain ⟨us, ws, rfl, hus, hws⟩ := List.map_eq_append_iff.mp h
  obtain ⟨left, xs, rfl, hleft, hxs⟩ := exists_of_map_lexeme_cons hws
  obtain ⟨vs, right, rfl, hvs, hright⟩ := exists_of_map_lexeme_concat hxs
  exact ⟨us, left, vs, right, rfl, hus, hleft, hvs, hright⟩

theorem parts_of_array (h : T.map Token.lexeme = (Expr.array t es).lexemes) :
    ∃ left vs right, T = left :: (vs ++ [right]) ∧ left.lexeme = t.lexeme ∧
      vs.map Token.lexeme = commaSeparated (es.map Expr.lexemes) ∧ right.kind = .closeBracket := by
  rw [Expr.lexemes, lexemesOfExprs_eq_map] at h
  obtain ⟨left, xs, rfl, hleft, hxs⟩ := exists_of_map_lexeme_cons h
  obtain ⟨vs, right, rfl, hvs, hright⟩ := exists_of_map_lexeme_concat hxs
  exact ⟨left, vs, right, rfl, hleft, hvs, hright⟩

theorem parts_of_hash {es : List Entry} (h : T.map Token.lexeme = (Expr.hash t es).lexemes) :
    ∃ left vs right, T = left :: (vs ++ [right]) ∧ left.lexeme = t.lexeme ∧
      vs.map Token.lexeme = commaSeparated (es.map Entry.lexemes) ∧ right.kind = .closeCurly := by
  rw [Expr.lexemes, lexemesOfEntries_eq_map] at h
  obtain ⟨left, xs, rfl, hleft, hxs⟩ := exists_of_map_lexeme_cons h
  obtain ⟨vs, right, rfl, hvs, hright⟩ := exists_of_map_lexeme_concat hxs
  exact ⟨left, vs, right, rfl, hleft, hvs, hright⟩

theorem parts_of_entry {entry : Entry} (h : T.map Token.lexeme = entry.lexemes) :
    ∃ us colon vs, T = us ++ colon :: vs ∧ us.map Token.lexeme = entry.key.lexemes ∧ colon.kind = .colon ∧
      vs.map Token.lexeme = entry.value.lexemes := by
  obtain ⟨k, v⟩ := entry
  rw [Entry.lexemes] at h
  obtain ⟨us, ws, rfl, hus, hws⟩ := List.map_eq_append_iff.mp h
  obtain ⟨colon, vs, rfl, hcolon, hvs⟩ := exists_of_map_lexeme_cons hws
  exact ⟨us, colon, vs, rfl, hus, Token.kind_eq hcolon, hvs⟩

end Parts

theorem Grammar.Atom.reads {t t' : Token} (h : Atom t e) (ht : t'.lexeme = t.lexeme) :
    ∃ e', Atom t' e' ∧ e'.unplaced = e.unplaced := by
  have hkind : t'.kind = t.kind := Token.kind_eq ht
  have hvalue := Token.value_eq ht
  have hunplaced := Token.unplaced_eq ht
  cases h with
  | ident hk =>
    refine ⟨_, .ident (hkind.trans hk), ?_⟩
    simp only [Expr.unplaced, Ident.unplaced, hunplaced, hvalue]
  | int hk hv =>
    refine ⟨_, .int (hkind.trans hk) (hvalue ▸ hv), ?_⟩
    simp only [Expr.unplaced, hunplaced]
  | str hk =>
    refine ⟨_, .str (hkind.trans hk), ?_⟩
    simp only [Expr.unplaced, hunplaced, hvalue]
  | trueWord hk =>
    refine ⟨_, .trueWord (hkind.trans hk), ?_⟩
    simp only [Expr.unplaced, hunplaced]
  | falseWord hk =>
    refine ⟨_, .falseWord (hkind.trans hk), ?_⟩
    simp only [Expr.unplaced, hunplaced]

/-- Operands of a binary operator are as tight as on any level. -/
theorem Grammar.Applied.binary {ts us : List Token} {t : Token} {l r : Expr} {power : BindingPower}
    (hl : Applied Expression ts l) (ht : t.kind.operator? = some (power, .binary)) (hr : Applied Expression us r) :
    Expression (ts ++ t :: us) (.binary t l t.value r) := by
  have hlevel := Parse.level_op ht (Parse.level_of_unary (.applied hl)) (Parse.level_of_unary (.applied hr))
  exact .mk (Parse.level_drop_le (Nat.zero_le _) hlevel)

/-- Lists with commas between what is read of their members. -/
theorem listing_of_commaSeparated {α β γ : Type} {D : List Token → γ → Prop} {lexemes : α → List Lexeme} {u : γ → β}
    {v : α → β} {as : List α} (h : ∀ a ∈ as, ∀ T, T.map Token.lexeme = lexemes a → ∃ c, D T c ∧ u c = v a)
    (hT : T.map Token.lexeme = commaSeparated (as.map lexemes)) : ∃ cs, Listing D T cs ∧ cs.map u = as.map v := by
  cases as with
  | nil =>
    obtain rfl := List.map_eq_nil_iff.mp hT
    exact ⟨[], .none, rfl⟩
  | cons a as =>
    suffices hsome : ∃ cs, Separated D T cs ∧ cs.map u = (a :: as).map v by
      obtain ⟨cs, hcs, heq⟩ := hsome
      exact ⟨cs, .some hcs, heq⟩
    induction as generalizing a T with
    | nil =>
      obtain ⟨c, hc, heq⟩ := h a List.mem_cons_self T (by simpa [commaSeparated] using hT)
      exact ⟨[c], .one hc, by rw [List.map_singleton, List.map_singleton, heq]⟩
    | cons b bs ih =>
      obtain ⟨ha, hbs⟩ := List.forall_mem_cons.mp h
      have hlist : commaSeparated ((a :: b :: bs).map lexemes) =
          lexemes a ++ Kind.comma.lexeme :: commaSeparated ((b :: bs).map lexemes) := by
        simp [commaSeparated]
      obtain ⟨ts, vs, rfl, hts, hvs⟩ := List.map_eq_append_iff.mp (hT.trans hlist)
      obtain ⟨comma, us, rfl, hcomma, hus⟩ := exists_of_map_lexeme_cons hvs
      obtain ⟨c, hc, heq⟩ := ha ts hts
      obtain ⟨cs, hcs, heqs⟩ := ih b hbs hus
      exact ⟨c :: cs, .more hc (Token.kind_eq hcomma) hcs, by rw [List.map_cons, heq, heqs]; rfl⟩

theorem Grammar.PairListing.of_listing {E : List Token → Expr → Prop} {es : List Entry} (h : Listing (Pair E) T es) :
    PairListing E T es := by
  cases h with
  | none => exact .none
  | some h =>
    refine .some ?_
    induction h with
    | one h => exact .one h
    | more h hcomma _ ih => exact .more h hcomma ih

/-- The lexemes of what is printed of an expression spell it again, so closely that calls and indexing still fit on. -/
theorem Expr.Legible.reads (h : e.Legible) (hT : T.map Token.lexeme = e.lexemes) :
    ∃ e', Applied Expression T e' ∧ e'.unplaced = e.unplaced := by
  induction h generalizing T with
  | @atom t e _ h =>
    have hlexemes : e.lexemes = [t.lexeme] := by cases h <;> rfl
    obtain ⟨t', ts, rfl, ht, hts⟩ := exists_of_map_lexeme_cons (hT.trans hlexemes)
    obtain rfl := List.map_eq_nil_iff.mp hts
    obtain ⟨e', he', heq⟩ := h.reads ht
    exact ⟨e', .primary (.atom he'), heq⟩
  | @unary t r _ hkind _ ih =>
    obtain ⟨left, op, us, right, rfl, hleft, hop, hus, hright⟩ := parts_of_unary hT
    obtain ⟨r', hr, heq⟩ := ih hus
    have hunary : Unary Expression (op :: us) (.unary op op.value r') := .op (Token.kind_eq hop ▸ hkind) (.applied hr)
    refine ⟨_, .primary (.group hleft hunary.expression hright), ?_⟩
    simp only [Expr.unplaced, Token.unplaced_eq hop, Token.value_eq hop, heq]
  | @binary t l r power _ hkind _ _ ihl ihr =>
    obtain ⟨left, us, op, vs, right, rfl, hleft, hus, hop, hvs, hright⟩ := parts_of_binary hT
    obtain ⟨l', hl, heql⟩ := ihl hus
    obtain ⟨r', hr, heqr⟩ := ihr hvs
    have hbinary := hl.binary ((Token.kind_eq hop).symm ▸ hkind) hr
    refine ⟨_, .primary (.group hleft hbinary hright), ?_⟩
    simp only [Expr.unplaced, Token.unplaced_eq hop, Token.value_eq hop, heql, heqr]
  | @call t c es _ hkind _ _ ihc ihes =>
    obtain ⟨us, left, vs, right, rfl, hus, hleft, hvs, hright⟩ := parts_of_call hT
    obtain ⟨c', hc, heq⟩ := ihc hus
    have helement : ∀ e ∈ es, ∀ T, T.map Token.lexeme = e.lexemes →
        ∃ e', Expression T e' ∧ e'.unplaced = e.unplaced := by
      intro e he T hT
      obtain ⟨e', he', heq⟩ := ihes e he hT
      exact ⟨e', he'.expression, heq⟩
    obtain ⟨es', hes, heqs⟩ := listing_of_commaSeparated helement hvs
    refine ⟨_, .call hc ((Token.kind_eq hleft).trans hkind) hes hright, ?_⟩
    simp only [Expr.unplaced, unplacedExprs_eq_map, Token.unplaced_eq hleft, heq, heqs]
  | @array t es _ hkind _ ih =>
    obtain ⟨left, vs, right, rfl, hleft, hvs, hright⟩ := parts_of_array hT
    have helement : ∀ e ∈ es, ∀ T, T.map Token.lexeme = e.lexemes →
        ∃ e', Expression T e' ∧ e'.unplaced = e.unplaced := by
      intro e he T hT
      obtain ⟨e', he', heq⟩ := ih e he hT
      exact ⟨e', he'.expression, heq⟩
    obtain ⟨es', hes, heqs⟩ := listing_of_commaSeparated helement hvs
    refine ⟨_, .primary (.array ((Token.kind_eq hleft).trans hkind) hes hright), ?_⟩
    simp only [Expr.unplaced, unplacedExprs_eq_map, Token.unplaced_eq hleft, heqs]
  | @index t c i _ hkind _ _ ihc ihi =>
    obtain ⟨left, us, op, vs, close, right, rfl, hleft, hus, hop, hvs, hclose, hright⟩ := parts_of_index hT
    obtain ⟨c', hc, heqc⟩ := ihc hus
    obtain ⟨i', hi, heqi⟩ := ihi hvs
    have hindex := hc.index ((Token.kind_eq hop).trans hkind) hi.expression hclose
    refine ⟨_, .primary (.group hleft hindex.expression hright), ?_⟩
    simp only [Expr.unplaced, Token.unplaced_eq hop, heqc, heqi]
  | @hash t es _ hkind _ _ ihks ihvs =>
    obtain ⟨left, vs, right, rfl, hleft, hvs, hright⟩ := parts_of_hash hT
    have hentry : ∀ entry ∈ es, ∀ T, T.map Token.lexeme = entry.lexemes →
        ∃ entry', Pair Expression T entry' ∧ entry'.unplaced = entry.unplaced := by
      intro entry hentry T hT
      obtain ⟨us, colon, ws, rfl, hus, hcolon, hws⟩ := parts_of_entry hT
      obtain ⟨k', hk', heqk⟩ := ihks entry hentry hus
      obtain ⟨v', hv', heqv⟩ := ihvs entry hentry hws
      refine ⟨_, .mk hk'.expression hcolon hv'.expression, ?_⟩
      obtain ⟨k, v⟩ := entry
      simp only [Entry.unplaced, heqk, heqv, Entry.key, Entry.value]
    obtain ⟨es', hes, heqs⟩ := listing_of_commaSeparated hentry hvs
    refine ⟨_, .primary (.hash ((Token.kind_eq hleft).trans hkind) (.of_listing hes) hright), ?_⟩
    simp only [Expr.unplaced, unplacedEntries_eq_map, Token.unplaced_eq hleft, heqs]

end FrontEnd
