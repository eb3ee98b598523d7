import FrontEnd.Proofs.Parser.Landing

/-!
How deep tokens nest: a parse of them goes so many levels deeper, whatever they are part of.
-/

namespace FrontEnd

namespace Parse

open Grammar (Listing Separated)

variable {limit : Nat} {stop : Position} {T us : List Token} {n d D h h' k k' : Nat} {power : BindingPower}
  {sub : SubExpr} {left right op t : Token}

def deepestOf (hs : List Nat) : Nat :=
  hs.foldr max 0

@[simp] theorem deepestOf_nil : deepestOf [] = 0 := rfl

@[simp] theorem deepestOf_cons (h : Nat) (hs : List Nat) : deepestOf (h :: hs) = max h (deepestOf hs) := rfl

/-- What goes `h` levels deeper from the next level on goes one more from this one. -/
theorem max_level_succ (D d h : Nat) : max (max D (d + 1)) (d + 1 + h) = max D (d + (h + 1)) := by
  omega

theorem max_deepestOf_cons (D d h : Nat) (hs : List Nat) :
    max (max D (d + h)) (d + deepestOf hs) = max D (d + deepestOf (h :: hs)) := by
  rw [deepestOf_cons, Nat.max_assoc, Nat.add_max_add_left]

theorem le_deepestOf {hs : List Nat} (hmem : h ∈ hs) : h ≤ deepestOf hs := by
  induction hmem with
  | head hs => exact Nat.le_max_left _ _
  | tail _ _ ih => exact Nat.le_trans ih (Nat.le_max_right _ _)

/-- Wherever an expression begins with the tokens, they are an operand of it and the `k` calls behind that, which leave
it a level deeper each. At the deepest it is `h` levels deeper. -/
structure Nests (limit : Nat) (stop : Position) (T : List Token) (h k : Nat) : Prop where
  begins : (headKind T).operand? ≠ none
  pos : 0 < h
  chains : ∀ n d D rest power, power.rank ≤ 5 → limit ≤ d + 1 + n → d + h ≤ limit →
    ∃ e t, Chains limit stop (exprWithin (fun _ => fail) n) power ⟨T ++ rest, d + 1, max D (d + 1)⟩ e
      ⟨t :: rest, d + 1 + k, max D (d + h)⟩

/-- From the level `d` on, the tokens are an expression that goes `h` levels deeper. -/
structure Deepens (limit : Nat) (stop : Position) (sub : SubExpr) (d : Nat) (T : List Token) (h : Nat) : Prop where
  begins : (headKind T).operand? ≠ none
  lands : ∀ D rest power, power.rank ≤ 5 → (headKind rest).operator? = none →
    ∃ e t, Lands limit stop (sub power) ⟨T ++ rest, d, D⟩ e ⟨t :: rest, d, max D (d + h)⟩

theorem headKind_append_of_operand? (h : (headKind T).operand? ≠ none) (us : List Token) :
    headKind (T ++ us) = headKind T := by
  cases T with
  | nil => exact absurd rfl h
  | cons t ts => rfl

theorem not_tighter {rest : List Token} (h : (headKind rest).operator? = none) : ¬Tighter power (t :: rest) := by
  rintro ⟨op, hop, -⟩
  rw [List.tail_cons, h] at hop
  exact nomatch hop

/-- An expression ends where no operator goes on with it. -/
theorem Nests.deepens (hT : Nests limit stop T h k) (hfuel : limit ≤ d + n) (hroom : d + h ≤ limit) :
    Deepens limit stop (exprWithin (fun _ => fail) n) d T h := by
  have hpos := hT.pos
  refine ⟨hT.begins, fun D rest power hpower hrest => ?_⟩
  obtain ⟨n, rfl⟩ : ∃ m, n = m + 1 := ⟨n - 1, by omega⟩
  obtain ⟨e, t, hchains⟩ := hT.chains n d D rest power hpower (by omega) hroom
  exact ⟨e, t, hchains.exprStep (by omega) (not_tighter hrest) (Nat.le_max_left _ _)⟩

theorem Deepens.unary (hop : op.kind = .bang ∨ op.kind = .dash)
    (hT : Deepens limit stop (exprWithin (fun _ => fail) n) (d + 1) T h) (hroom : d < limit) :
    Deepens limit stop (exprWithin (fun _ => fail) (n + 1)) d (op :: T) (h + 1) := by
  refine ⟨by rw [headKind_cons]; rcases hop with hk | hk <;> rw [hk] <;> decide, fun D rest power _ hrest => ?_⟩
  obtain ⟨e, t, he⟩ := hT.lands (max D (d + 1)) rest .unary (by decide) hrest
  rw [max_level_succ] at he
  exact ⟨_, t, (he.unary hop).chains.exprStep hroom (not_tighter hrest) (Nat.le_max_left _ _)⟩

theorem Deepens.program (hT : Deepens limit stop (exprWithin (fun _ => fail) (limit + 1)) 0 T h) :
    ∃ p, Lands limit stop Parse.program ⟨T, 0, 0⟩ p ⟨[], 0, h⟩ := by
  obtain ⟨e, u, he⟩ := hT.lands 0 [] .lowest (by decide) rfl
  cases T with
  | nil => exact absurd rfl hT.begins
  | cons t ts =>
    rw [List.append_nil, Nat.zero_max, Nat.zero_add] at he
    exact ⟨_, Lands.program hT.begins (Lands.expr he)⟩

/-! Lists -/

section Lists

variable {comma : Token} {rest : List Token} {hs : List Nat}

/-- What closes a list of expressions goes on with none of them. -/
theorem headKind_of_closes (rest : List Token) (hright : right.kind = .closeParen ∨ right.kind = .closeBracket) :
    (headKind (right :: rest)).operator? = none ∧ (headKind (right :: rest) == .comma) = false := by
  rcases hright with hk | hk <;> rw [headKind_cons, hk] <;> exact ⟨rfl, rfl⟩

theorem exists_lands_commas (h : Separated (Deepens limit stop sub d) T hs) (found : List Expr)
    (hcomma : comma.kind = .comma) (hright : right.kind = .closeParen ∨ right.kind = .closeBracket) :
    ∃ es u, ∀ n, T.length < n → Lands limit stop (repeatWithin (fun p => p.peek.kind == .comma)
      (fun found => do
        advance
        advance
        return found.push (← attempt (sub .lowest))) n (found.map some).toArray)
      ⟨t :: comma :: (T ++ right :: rest), d, D⟩ ((found ++ es).map some).toArray
      ⟨u :: right :: rest, d, max D (d + deepestOf hs)⟩ := by
  obtain ⟨hclose, hend⟩ := headKind_of_closes rest hright
  induction h generalizing found t comma D with
  | @one ts h hts =>
    obtain ⟨e, u, he⟩ := hts.lands D (right :: rest) .lowest (Nat.zero_le _) hclose
    refine ⟨[e], u, fun n hn => ?_⟩
    obtain ⟨n, rfl⟩ : ∃ m, n = m + 1 := ⟨n - 1, by omega⟩
    rw [deepestOf_cons, deepestOf_nil, Nat.max_zero]
    exact Lands.again_before (· == .comma) (beq_iff_eq.mpr hcomma) (Lands.item found he)
      (Lands.done_before (· == .comma) hend)
  | @more ts h comma' us hs hts hcomma' _ ih =>
    obtain ⟨e, u, he⟩ := hts.lands D (comma' :: (us ++ right :: rest)) .lowest (Nat.zero_le _)
      (by rw [headKind_cons, hcomma']; rfl)
    obtain ⟨es, u', hes⟩ := ih (t := u) (D := max D (d + h)) (found ++ [e]) hcomma'
    refine ⟨e :: es, u', fun n hn => ?_⟩
    obtain ⟨n, rfl⟩ : ∃ m, n = m + 1 := ⟨n - 1, by omega⟩
    have hes := hes n (by simp only [List.length_append, List.length_cons] at hn; omega)
    rw [max_deepestOf_cons, List.append_assoc] at hes
    rw [List.append_assoc, List.cons_append]
    exact Lands.again_before (· == .comma) (beq_iff_eq.mpr hcomma) (Lands.item found he) hes

theorem exists_lands_items {close : Kind} (left : Token) (rest : List Token)
    (h : Listing (Deepens limit stop sub d) T hs)
    (hclose : close = .closeParen ∨ close = .closeBracket) (hright : right.kind = close) :
    ∃ es, Lands limit stop (items sub close) ⟨left :: (T ++ right :: rest), d, D⟩ es
      ⟨right :: rest, d, max D (d + deepestOf hs)⟩ := by
  have hkind : right.kind = .closeParen ∨ right.kind = .closeBracket := by rwa [hright]
  have hhead : ∀ {ts us : List Token}, (headKind ts).operand? ≠ none → headKind (ts ++ us) ≠ close := by
    intro ts us hts heq
    rw [headKind_append_of_operand? hts] at heq
    rw [heq] at hts
    rcases hclose with rfl | rfl <;> exact hts rfl
  cases h with
  | none =>
    refine ⟨[], Lands.of_level_le fun hle => ?_⟩
    have hdeepest : max D (d + deepestOf []) = D := Nat.max_eq_left hle
    rw [hdeepest]
    exact Lands.items_nil hright
  | some h =>
    cases h with
    | @one _ h hts =>
      obtain ⟨hclose, hend⟩ := headKind_of_closes rest hkind
      obtain ⟨e, u, he⟩ := hts.lands D (right :: rest) .lowest (Nat.zero_le _) hclose
      refine ⟨[e], ?_⟩
      rw [deepestOf_cons, deepestOf_nil, Nat.max_zero]
      exact Lands.items_cons (hhead hts.begins) hright he
        (Lands.repeatWhile fun n _ => Lands.done_before (· == .comma) hend)
    | @more ts h comma us hs hts hcomma hus =>
      obtain ⟨e, u, he⟩ := hts.lands D (comma :: (us ++ right :: rest)) .lowest (Nat.zero_le _)
        (by rw [headKind_cons, hcomma]; rfl)
      obtain ⟨es, u', hloop⟩ := exists_lands_commas (t := u) (D := max D (d + h)) hus [e] hcomma hkind
      rw [max_deepestOf_cons] at hloop
      refine ⟨e :: es, ?_⟩
      rw [List.append_assoc, List.cons_append]
      refine Lands.items_cons (hhead hts.begins) hright he (Lands.repeatWhile fun n hn => hloop n ?_)
      simp only [List.length_cons, List.length_append] at hn
      omega

/-- A key and a value, of which the deeper one counts. -/
inductive PairDeepens (limit : Nat) (stop : Position) (sub : SubExpr) (d : Nat) : List Token → Nat → Prop
  | mk {ks h colon vs h'} : Deepens limit stop sub d ks h → colon.kind = .colon → Deepens limit stop sub d vs h' →
    PairDeepens limit stop sub d (ks ++ colon :: vs) (max h h')

/-- An entry takes the comma behind it; behind the last one it leaves the brace. -/
theorem exists_lands_entry (us : List Token) (vs : Token → List Token) (hT : PairDeepens limit stop sub d T h)
    (hend : headKind us = .closeCurly ∧ (∀ u, vs u = u :: us) ∨ headKind us = .comma ∧ ∀ u, vs u = us) :
    ∃ member u, Lands limit stop (entry sub) ⟨t :: (T ++ us), d, D⟩ (some member) ⟨vs u, d, max D (d + h)⟩ := by
  have hus : (headKind us).operator? = none := by
    rcases hend with ⟨hk, -⟩ | ⟨hk, -⟩ <;> rw [hk] <;> rfl
  cases hT with
  | @mk ks h colon ws h' hks hcolon hws =>
    obtain ⟨k, u, hk⟩ := hks.lands D (colon :: (ws ++ us)) .lowest (Nat.zero_le _) (by rw [headKind_cons, hcolon]; rfl)
    obtain ⟨v, u', hv⟩ := hws.lands (max D (d + h)) us .lowest (Nat.zero_le _) hus
    have hdeepest : max (max D (d + h)) (d + h') = max D (d + max h h') := by omega
    rw [hdeepest] at hv
    refine ⟨.mk k v, u', ?_⟩
    rw [List.append_assoc, List.cons_append]
    refine Lands.advance.bind (hk.attempt.bind ((Lands.expect hcolon).bind (Lands.advance.bind
      (hv.attempt.bind ((Lands.peekIs .closeCurly).bind ?_)))))
    rw [List.tail_cons]
    rcases hend with ⟨hright, hvs⟩ | ⟨hcomma, hvs⟩
    · rw [hright, hvs]
      exact Lands.pure _
    · rw [hcomma, hvs]
      obtain ⟨comma, us, rfl, hkind⟩ := exists_cons_of_headKind hcomma (by decide)
      exact (Lands.expect hkind).bind (Lands.pure _)

theorem exists_lands_entries (h : Separated (PairDeepens limit stop sub d) T hs) (found : List Entry)
    (hright : right.kind = .closeCurly) : ∃ (es : List Entry) (u : Token), ∀ n, T.length < n → Lands limit stop
      (repeatWithin (fun p => p.peek.kind != .closeCurly) (fun found => do return found.push (← entry sub)) n
        (found.map some).toArray) ⟨t :: (T ++ right :: rest), d, D⟩ ((found ++ es).map some).toArray
          ⟨u :: right :: rest, d, max D (d + deepestOf hs)⟩ := by
  have hend : (headKind (right :: rest) != .closeCurly) = false := by
    rw [headKind_cons, hright]
    rfl
  have hmore : ∀ {ts us : List Token} {h : Nat}, PairDeepens limit stop sub d ts h →
      (headKind (ts ++ us) != .closeCurly) = true := by
    intro ts us h hts
    cases hts with
    | mk hks _ _ =>
      rw [List.append_assoc, headKind_append_of_operand? hks.begins, bne_iff_ne]
      intro heq
      exact hks.begins (by rw [heq]; rfl)
  induction h generalizing found t D with
  | @one ts h hts =>
    obtain ⟨member, u, hmember⟩ := exists_lands_entry (t := t) (D := D) (right :: rest) (· :: right :: rest) hts
      (.inl ⟨hright, fun _ => rfl⟩)
    refine ⟨[member], u, fun n hn => ?_⟩
    obtain ⟨n, rfl⟩ : ∃ m, n = m + 1 := ⟨n - 1, by omega⟩
    rw [deepestOf_cons, deepestOf_nil, Nat.max_zero]
    exact Lands.again_before (· != .closeCurly) (hmore hts) (Lands.member found hmember)
      (Lands.done_before (· != .closeCurly) hend)
  | @more ts h comma us hs hts hcomma _ ih =>
    obtain ⟨member, u, hmember⟩ := exists_lands_entry (t := t) (D := D) (comma :: (us ++ right :: rest))
      (fun _ => comma :: (us ++ right :: rest)) hts (.inr ⟨hcomma, fun _ => rfl⟩)
    obtain ⟨es, u', hes⟩ := ih (t := comma) (D := max D (d + h)) (found ++ [member])
    refine ⟨member :: es, u', fun n hn => ?_⟩
    obtain ⟨n, rfl⟩ : ∃ m, n = m + 1 := ⟨n - 1, by omega⟩
    have hes := hes n (by simp only [List.length_append, List.length_cons] at hn; omega)
    rw [max_deepestOf_cons, List.append_assoc] at hes
    rw [List.append_assoc, List.cons_append]
    exact Lands.again_before (· != .closeCurly) (hmore hts) (Lands.member found hmember) hes

theorem exists_lands_hash (rest : List Token) (h : Listing (PairDeepens limit stop sub d) T hs)
    (hleft : left.kind = .openCurly) (hright : right.kind = .closeCurly) :
    ∃ es, Lands limit stop (operand sub) ⟨left :: (T ++ right :: rest), d, D⟩ (.hash left es)
      ⟨right :: rest, d, max D (d + deepestOf hs)⟩ := by
  have hend : (headKind (right :: rest) != .closeCurly) = false := by
    rw [headKind_cons, hright]
    rfl
  cases h with
  | none =>
    refine ⟨[], Lands.of_level_le fun hle => ?_⟩
    have hdeepest : max D (d + deepestOf []) = D := Nat.max_eq_left hle
    rw [hdeepest]
    exact Lands.hash hleft hright (Lands.repeatWhile fun n _ => Lands.done_before (· != .closeCurly) hend)
  | some h =>
    obtain ⟨es, u, hloop⟩ := exists_lands_entries (t := left) h [] hright
    refine ⟨es, Lands.hash hleft hright (Lands.repeatWhile fun n hn => hloop n ?_)⟩
    simp only [List.length_cons, List.length_append] at hn
    omega

end Lists

/-! Operands -/

namespace Nests

variable {e : Expr} {next : BindingPower} {form : OperatorForm} {hs : List Nat}

theorem atom (h : Grammar.Atom t e) : Nests limit stop [t] 1 0 := by
  have hbegins : (headKind [t]).operand? ≠ none := by
    rw [headKind_cons, h.operand?]
    exact Option.some_ne_none _
  refine ⟨hbegins, Nat.one_pos, fun n d D rest power _ _ _ => ?_⟩
  have hatom : Lands limit stop (operand (exprWithin (fun _ => fail) n)) ⟨t :: rest, d + 1, max D (d + 1)⟩ e _ := .atom h
  exact ⟨e, t, hatom.chains⟩

/-- A group goes one level deeper than what is in it. -/
theorem group (hleft : left.kind = .openParen) (hright : right.kind = .closeParen) (hpos : 0 < h)
    (hT : ∀ n d D rest, limit ≤ d + 1 + n → d + h ≤ limit → ∃ e t d', Chains limit stop (exprWithin (fun _ => fail) n)
      .lowest ⟨T ++ right :: rest, d + 1, max D (d + 1)⟩ e ⟨t :: right :: rest, d', max D (d + h)⟩) :
    Nests limit stop (left :: (T ++ [right])) (h + 1) 0 := by
  refine ⟨by rw [headKind_cons, hleft]; decide, Nat.succ_pos h, fun n d D rest power _ hfuel hroom => ?_⟩
  obtain ⟨n, rfl⟩ : ∃ m, n = m + 1 := ⟨n - 1, by omega⟩
  obtain ⟨e, t, d', hchains⟩ := hT n (d + 1) (max D (d + 1)) rest (by omega) (by omega)
  have hend : (headKind (right :: rest)).operator? = none := by rw [headKind_cons, hright]; rfl
  have hinside := hchains.exprStep (by omega) (not_tighter hend) (Nat.le_max_left _ _)
  have hgroup : Lands limit stop (operand (exprWithin (fun _ => fail) (n + 1))) _ e _ :=
    Lands.group hleft hright hinside
  rw [max_level_succ] at hgroup
  refine ⟨e, right, ?_⟩
  simpa only [List.cons_append, List.append_assoc, List.nil_append] using hgroup.chains

theorem unary (hleft : left.kind = .openParen) (hop : op.kind = .bang ∨ op.kind = .dash)
    (hright : right.kind = .closeParen) (hT : Nests limit stop T h k) :
    Nests limit stop (left :: (op :: T ++ [right])) (h + 2) 0 := by
  refine group hleft hright (Nat.succ_pos h) fun n d D rest hfuel hroom => ?_
  have hinside : Deepens limit stop (exprWithin (fun _ => fail) n) (d + 1) T h := hT.deepens hfuel (by omega)
  obtain ⟨e, t, he⟩ := hinside.lands (max D (d + 1)) (right :: rest) .unary (by decide)
    (by rw [headKind_cons, hright]; rfl)
  rw [max_level_succ] at he
  exact ⟨_, t, d + 1, (he.unary hop).chains⟩

/-- An operator goes one level deeper than where what is to its left ends, and what is behind it deeper from there. -/
theorem operator {rest : List Token} (hT : Nests limit stop T h k) (hpower : power.rank ≤ 5)
    (hop : op.kind.operator? = some (next, form)) (hlt : power < next) (hfuel : limit ≤ d + 1 + n)
    (hroom : d + max h (k + 2 + h') ≤ limit) (hrest : rest.length ≤ us.length)
    (hfold : ∀ l D, ∃ e u, Lands limit stop (foldAt (exprWithin (fun _ => fail) n) l op)
      ⟨op :: us, d + (k + 2), D⟩ e ⟨u :: rest, d + (k + 2), max D (d + (k + 2) + h')⟩) :
    ∃ e u, Chains limit stop (exprWithin (fun _ => fail) n) power ⟨T ++ op :: us, d + 1, max D (d + 1)⟩ e
      ⟨u :: rest, d + (k + 2), max D (d + max h (k + 2 + h'))⟩ := by
  obtain ⟨l, t, hl⟩ := hT.chains n d D (op :: us) power hpower hfuel (by omega)
  have hlevel : d + 1 + k + 1 = d + (k + 2) := by omega
  obtain ⟨e, u, he⟩ := hfold l (max (max D (d + h)) (d + (k + 2)))
  have hdeepest : max (max (max D (d + h)) (d + (k + 2))) (d + (k + 2) + h') = max D (d + max h (k + 2 + h')) := by
    omega
  rw [hdeepest, ← hlevel] at he
  have hstep := Lands.fold (u := t) (by omega) he
  rw [hlevel] at hstep
  exact ⟨e, u, hl.fold hop hlt hstep (Nat.succ_le_succ hrest)⟩

theorem binary (hleft : left.kind = .openParen) (hop : op.kind.operator? = some (next, .binary))
    (hright : right.kind = .closeParen) (hT : Nests limit stop T h k) (hus : Nests limit stop us h' k') :
    Nests limit stop (left :: (T ++ op :: us ++ [right])) (max h (k + 2 + h') + 1) 0 := by
  refine group hleft hright (by omega) fun n d D rest hfuel hroom => ?_
  have hinside : Deepens limit stop (exprWithin (fun _ => fail) n) (d + (k + 2)) us h' :=
    hus.deepens (by omega) (by omega)
  rw [List.append_assoc, List.cons_append]
  refine (hT.operator (by decide) hop (BindingPower.lowest_lt_of_operator? hop) hfuel hroom ?_ fun l D => ?_).imp
    fun e he => he.imp fun u hu => ⟨_, hu⟩
  · simp only [List.length_cons, List.length_append]
    omega
  · obtain ⟨r, u, hr⟩ := hinside.lands D (right :: rest) next (Nat.le_succ_of_le (Kind.rank_le_of_binary hop))
      (by rw [headKind_cons, hright]; rfl)
    exact ⟨_, u, Lands.foldAt_binary hop hr⟩

theorem index {close : Token} (hleft : left.kind = .openParen) (hop : op.kind = .openBracket)
    (hclose : close.kind = .closeBracket) (hright : right.kind = .closeParen) (hT : Nests limit stop T h k)
    (hus : Nests limit stop us h' k') :
    Nests limit stop (left :: (T ++ op :: (us ++ [close]) ++ [right])) (max h (k + 2 + h') + 1) 0 := by
  refine group hleft hright (by omega) fun n d D rest hfuel hroom => ?_
  have hinside : Deepens limit stop (exprWithin (fun _ => fail) n) (d + (k + 2)) us h' :=
    hus.deepens (by omega) (by omega)
  have hoperator : op.kind.operator? = some (.index, .index) := by rw [hop]; rfl
  simp only [List.append_assoc, List.cons_append, List.nil_append]
  refine (hT.operator (by decide) hoperator (by decide) hfuel hroom ?_ fun l D => ?_).imp
    fun e he => he.imp fun u hu => ⟨_, hu⟩
  · simp only [List.length_cons, List.length_append]
    omega
  · obtain ⟨i, u, hi⟩ := hinside.lands D (close :: right :: rest) .lowest (by decide)
      (by rw [headKind_cons, hclose]; rfl)
    exact ⟨_, close, Lands.foldAt_index hop hclose hi⟩

theorem call (hleft : left.kind = .openParen) (hright : right.kind = .closeParen) (hT : Nests limit stop T h k)
    (hus : ∀ n d, limit ≤ d + n → d + deepestOf hs ≤ limit →
      Listing (Deepens limit stop (exprWithin (fun _ => fail) n) d) us hs) :
    Nests limit stop (T ++ left :: (us ++ [right])) (max h (k + 2 + deepestOf hs)) (k + 1) := by
  refine ⟨?_, by omega, fun n d D rest power hpower hfuel hroom => ?_⟩
  · rw [headKind_append_of_operand? hT.begins]
    exact hT.begins
  have hlevel : d + 1 + (k + 1) = d + (k + 2) := by omega
  have hoperator : left.kind.operator? = some (.call, .call) := by rw [hleft]; rfl
  simp only [List.append_assoc, List.cons_append, List.nil_append]
  rw [hlevel]
  refine hT.operator hpower hoperator (Nat.lt_succ_of_le hpower) hfuel hroom ?_ fun l D => ?_
  · simp only [List.length_cons, List.length_append]
    omega
  · obtain ⟨es, hes⟩ := exists_lands_items (D := D) left rest
      (hus n (d + (k + 2)) (by omega) (by omega)) (.inl rfl) hright
    exact ⟨_, right, Lands.foldAt_call hleft hes⟩

theorem array (hleft : left.kind = .openBracket) (hright : right.kind = .closeBracket)
    (hus : ∀ n d, limit ≤ d + n → d + deepestOf hs ≤ limit →
      Listing (Deepens limit stop (exprWithin (fun _ => fail) n) d) us hs) :
    Nests limit stop (left :: (us ++ [right])) (deepestOf hs + 1) 0 := by
  refine ⟨by rw [headKind_cons, hleft]; decide, Nat.succ_pos _, fun n d D rest power _ hfuel hroom => ?_⟩
  obtain ⟨es, hes⟩ := exists_lands_items (D := max D (d + 1)) left rest
    (hus n (d + 1) hfuel (by omega)) (.inr rfl) hright
  rw [max_level_succ] at hes
  simp only [List.append_assoc, List.cons_append, List.nil_append]
  exact ⟨_, right, (Lands.array hleft hes).chains⟩

theorem hash (hleft : left.kind = .openCurly) (hright : right.kind = .closeCurly)
    (hus : ∀ n d, limit ≤ d + n → d + deepestOf hs ≤ limit →
      Listing (PairDeepens limit stop (exprWithin (fun _ => fail) n) d) us hs) :
    Nests limit stop (left :: (us ++ [right])) (deepestOf hs + 1) 0 := by
  refine ⟨by rw [headKind_cons, hleft]; decide, Nat.succ_pos _, fun n d D rest power _ hfuel hroom => ?_⟩
  obtain ⟨es, hes⟩ := exists_lands_hash (D := max D (d + 1)) rest (hus n (d + 1) hfuel (by omega)) hleft hright
  rw [max_level_succ] at hes
  simp only [List.append_assoc, List.cons_append, List.nil_append]
  exact ⟨_, right, hes.chains⟩

end Nests

end Parse

end FrontEnd
