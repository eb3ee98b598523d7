import FrontEnd.Proofs.Parser.Nesting
import FrontEnd.Proofs.Parser.Transparency
import FrontEnd.Proofs.Print.Statement

/-!
Printed trees against the nesting limit: each operator comes out in a group, which nests deeper than the operator did in
the text that the tree is from.
-/

namespace FrontEnd

open Grammar Parse

/-- How many calls the expression ends on. -/
def Expr.calls : Expr → Nat
  | .call _ callee _ => callee.calls + 1
  | _ => 0

mutual

/-- How many levels what is printed of an expression takes. An operator is in a group, where its left operand takes no
level of its own; behind that there is a level for each call that it ends on and one for the operator. -/
def Expr.printedDepth : Expr → Nat
  | .ident _ | .int _ _ | .str _ _ | .bool _ _ => 1
  | .unary _ _ right => right.printedDepth + 2
  | .binary _ left _ right => max left.printedDepth (left.calls + 2 + right.printedDepth) + 1
  | .call _ callee arguments => max callee.printedDepth (callee.calls + 2 + printedDepthOfExprs arguments)
  | .array _ elements => printedDepthOfExprs elements + 1
  | .index _ collection index => max collection.printedDepth (collection.calls + 2 + index.printedDepth) + 1
  | .hash _ entries => printedDepthOfEntries entries + 1
  | .cond _ _ _ _ | .fn _ _ _ _ => 0

def Entry.printedDepth : Entry → Nat
  | .mk key value => max key.printedDepth value.printedDepth

def printedDepthOfExprs : List Expr → Nat
  | [] => 0
  | e :: es => max e.printedDepth (printedDepthOfExprs es)

def printedDepthOfEntries : List Entry → Nat
  | [] => 0
  | e :: es => max e.printedDepth (printedDepthOfEntries es)

end

theorem printedDepthOfExprs_eq (es : List Expr) : printedDepthOfExprs es = deepestOf (es.map Expr.printedDepth) := by
  induction es with
  | nil => rfl
  | cons e es ih => rw [printedDepthOfExprs, ih, List.map_cons, deepestOf_cons]

theorem printedDepthOfEntries_eq (es : List Entry) :
    printedDepthOfEntries es = deepestOf (es.map Entry.printedDepth) := by
  induction es with
  | nil => rfl
  | cons e es ih => rw [printedDepthOfEntries, ih, List.map_cons, deepestOf_cons]

theorem Entry.printedDepth_eq (entry : Entry) :
    entry.printedDepth = max entry.key.printedDepth entry.value.printedDepth := by
  cases entry
  rfl

variable {source : String} {file file' : Option String} {T : List Token} {stop : Position} {limit n m d : Nat}
  {t : Token} {e : Expr} {p : Program}

theorem listing_deepens {es : List Expr}
    (hes : ∀ e ∈ es, ∀ T, T.map Token.lexeme = e.lexemes → Nests limit stop T e.printedDepth e.calls)
    (hT : T.map Token.lexeme = commaSeparated (es.map Expr.lexemes)) (n d : Nat) (hfuel : limit ≤ d + n)
    (hroom : d + deepestOf (es.map Expr.printedDepth) ≤ limit) :
    Listing (Deepens limit stop (exprWithin (fun _ => fail) n) d) T (es.map Expr.printedDepth) := by
  have hmember : ∀ e ∈ es, ∀ T, T.map Token.lexeme = e.lexemes →
      ∃ h, Deepens limit stop (exprWithin (fun _ => fail) n) d T h ∧ id h = e.printedDepth := by
    intro e he T hT
    have hle := le_deepestOf (List.mem_map_of_mem (f := Expr.printedDepth) he)
    exact ⟨_, (hes e he T hT).deepens hfuel (by omega), rfl⟩
  obtain ⟨hs, hlisting, heq⟩ := listing_of_commaSeparated hmember hT
  rw [List.map_id] at heq
  exact heq ▸ hlisting

/-- What is printed of an expression nests as deep as its printed depth says, and ends on its calls. -/
theorem Expr.Legible.nests (h : e.Legible) (hT : T.map Token.lexeme = e.lexemes) :
    Nests limit stop T e.printedDepth e.calls := by
  induction h generalizing T with
  | @atom t e _ h =>
    have hlexemes : e.lexemes = [t.lexeme] := by cases h <;> rfl
    have hdepth : e.printedDepth = 1 ∧ e.calls = 0 := by cases h <;> exact ⟨rfl, rfl⟩
    obtain ⟨t', ts, rfl, ht, hts⟩ := exists_of_map_lexeme_cons (hT.trans hlexemes)
    obtain rfl := List.map_eq_nil_iff.mp hts
    obtain ⟨e', he', -⟩ := h.reads ht
    rw [hdepth.1, hdepth.2]
    exact .atom he'
  | @unary t r _ hkind _ ih =>
    obtain ⟨left, op, us, right, rfl, hleft, hop, hus, hright⟩ := parts_of_unary hT
    exact .unary hleft (Token.kind_eq hop ▸ hkind) hright (ih hus)
  | @binary t l r power _ hkind _ _ ihl ihr =>
    obtain ⟨left, us, op, vs, right, rfl, hleft, hus, hop, hvs, hright⟩ := parts_of_binary hT
    exact .binary hleft ((Token.kind_eq hop).symm ▸ hkind) hright (ihl hus) (ihr hvs)
  | @call t c es _ hkind _ _ ihc ihes =>
    obtain ⟨us, left, vs, right, rfl, hus, hleft, hvs, hright⟩ := parts_of_call hT
    rw [Expr.printedDepth, printedDepthOfExprs_eq]
    exact .call ((Token.kind_eq hleft).trans hkind) hright (ihc hus) (listing_deepens (fun e he _ => ihes e he) hvs)
  | @array t es _ hkind _ ih =>
    obtain ⟨left, vs, right, rfl, hleft, hvs, hright⟩ := parts_of_array hT
    rw [Expr.printedDepth, printedDepthOfExprs_eq]
    exact .array ((Token.kind_eq hleft).trans hkind) hright (listing_deepens (fun e he _ => ih e he) hvs)
  | @index t c i _ hkind _ _ ihc ihi =>
    obtain ⟨left, us, op, vs, close, right, rfl, hleft, hus, hop, hvs, hclose, hright⟩ := parts_of_index hT
    exact .index hleft ((Token.kind_eq hop).trans hkind) hclose hright (ihc hus) (ihi hvs)
  | @hash t es _ hkind _ _ ihks ihvs =>
    obtain ⟨left, ws, right, rfl, hleft, hws, hright⟩ := parts_of_hash hT
    rw [Expr.printedDepth, printedDepthOfEntries_eq]
    refine .hash ((Token.kind_eq hleft).trans hkind) hright fun n d hfuel hroom => ?_
    have hmember : ∀ entry ∈ es, ∀ T, T.map Token.lexeme = entry.lexemes →
        ∃ h, PairDeepens limit stop (exprWithin (fun _ => fail) n) d T h ∧ id h = entry.printedDepth := by
      intro entry hentry T hT
      obtain ⟨us, colon, vs, rfl, hus, hcolon, hvs⟩ := parts_of_entry hT
      have hle := le_deepestOf (List.mem_map_of_mem (f := Entry.printedDepth) hentry)
      rw [entry.printedDepth_eq] at hle ⊢
      exact ⟨_, .mk ((ihks entry hentry hus).deepens hfuel (by omega)) hcolon
        ((ihvs entry hentry hvs).deepens hfuel (by omega)), rfl⟩
    obtain ⟨hs, hlisting, heq⟩ := listing_of_commaSeparated hmember hws
    rw [List.map_id] at heq
    exact heq ▸ hlisting

theorem deepestLevel_eq_of_lands {q : Program} {s : Place} (h : Lands limit stop program ⟨T, 0, 0⟩ q s)
    (hreads : (Parser.withLimit limit (.buffer ⟨T, stop⟩)).Reads stop T) :
    deepestLevel limit (.buffer ⟨T, stop⟩) = s.deepest := by
  obtain ⟨r, hr, hat⟩ := h _ (Parser.at_withLimit hreads)
  unfold deepestLevel
  rw [hr]
  exact hat.deepest_eq

/-- Some expression of a text nests too deep just if a parse without a limit that matters goes deeper than the limit. -/
theorem Tokenizes.tooDeep_iff (h : Tokenizes source file T stop) (hlimit : maxNestingDepth ≤ limit) :
    (∃ d ∈ (parse source file).2, ∃ limit, d.fault = .nestingTooDeep limit) ↔
      maxNestingDepth < deepestLevel limit (.buffer ⟨T, stop⟩) := by
  rw [h.parse_eq]
  exact tooDeep_iff_lt_deepestLevel (by decide) hlimit _

theorem tooDeep_print_iff (hp : p.statements = [.expr t e]) (he : e.Legible) :
    (∃ d ∈ (parse p.print file).2, ∃ limit, d.fault = .nestingTooDeep limit) ↔ maxNestingDepth < e.printedDepth := by
  obtain ⟨T, stop, htokenizes⟩ := exists_tokenizes p.print file
  have hlegible : ∀ s ∈ p.statements, s.Legible := by
    rw [hp]
    exact List.forall_mem_singleton.mpr (.expr he)
  have hT : T.map Token.lexeme = e.lexemes := by
    have hlexemes := htokenizes.map_lexeme_eq hlegible (by rw [hp]; exact .singleton _)
    rwa [hp, List.flatMap_singleton] at hlexemes
  have hnests : Nests (max maxNestingDepth e.printedDepth) stop T e.printedDepth e.calls := he.nests hT
  obtain ⟨q, hlands⟩ := (hnests.deepens (by omega) (by omega)).program
  rw [htokenizes.tooDeep_iff (Nat.le_max_left maxNestingDepth e.printedDepth),
    deepestLevel_eq_of_lands hlands (htokenizes.reads _)]

theorem legible_of_parse_expr (hclean : (parse source file).2 = [])
    (hsingle : (parse source file).1.statements = [.expr t e]) (hplain : e.Plain) : e.Legible := by
  have hlegible := legible_of_parse hclean (by rw [hsingle]; exact List.forall_mem_singleton.mpr hplain)
  rw [hsingle] at hlegible
  cases hlegible _ List.mem_cons_self with
  | expr he => exact he

/-! Operators one behind the other -/

/-- So many minus signs in front of a one. -/
def negations (n : Nat) : String :=
  String.ofList (List.replicate n '-' ++ ['1'])

def negationLexemes (n : Nat) : List Lexeme :=
  List.replicate n Kind.dash.lexeme ++ [(.number, "1")]

theorem lexes_negations (n : Nat) : Lexes (negations n).toList (negationLexemes n) := by
  unfold negations negationLexemes
  rw [String.toList_ofList]
  induction n with
  | zero => exact Lexes.nil.number (List.cons_ne_nil '1' []) (List.all_eq_true.mp (by decide)) fun _ h => nomatch h
  | succ n ih => exact ih.single (k := .dash) (by decide) (by decide)

theorem exists_one (hT : T.map Token.lexeme = negationLexemes 0) : ∃ t, T = [t] ∧ Atom t (.int t 1) := by
  obtain ⟨t, ts, rfl, ht, hts⟩ := exists_of_map_lexeme_cons hT
  obtain rfl := List.map_eq_nil_iff.mp hts
  have hvalue : t.value = "1" := congrArg Prod.snd ht
  exact ⟨t, rfl, .int (Token.kind_eq ht) (by rw [hvalue]; decide)⟩

/-- Printed, they take two levels each. -/
theorem exists_unary_negations (hT : T.map Token.lexeme = negationLexemes n) :
    ∃ e, Unary Expression T e ∧ e.Plain ∧ e.printedDepth = 2 * n + 1 := by
  induction n generalizing T with
  | zero =>
    obtain ⟨t, rfl, h⟩ := exists_one hT
    exact ⟨_, .applied (.primary (.atom h)), .int, rfl⟩
  | succ n ih =>
    obtain ⟨t, ts, rfl, ht, hts⟩ := exists_of_map_lexeme_cons hT
    obtain ⟨e, he, hplain, hdepth⟩ := ih hts
    refine ⟨_, .op (.inr (Token.kind_eq ht)) he, .unary hplain, ?_⟩
    rw [Expr.printedDepth, hdepth]
    omega

/-- As they are, they take one. -/
theorem deepens_negations (hT : T.map Token.lexeme = negationLexemes n) (hfuel : limit ≤ d + m)
    (hroom : d + (n + 1) ≤ limit) : Deepens limit stop (exprWithin (fun _ => fail) m) d T (n + 1) := by
  induction n generalizing T d m with
  | zero =>
    obtain ⟨t, rfl, h⟩ := exists_one hT
    exact (Nests.atom h).deepens hfuel hroom
  | succ n ih =>
    obtain ⟨t, ts, rfl, ht, hts⟩ := exists_of_map_lexeme_cons hT
    obtain ⟨m, rfl⟩ : ∃ m', m = m' + 1 := ⟨m - 1, by omega⟩
    exact Deepens.unary (.inr (Token.kind_eq ht)) (ih hts (by omega) (by omega)) (by omega)

theorem parse_negations (file : Option String) (hn : n < maxNestingDepth) : (parse (negations n) file).2 = [] ∧
    ∃ t e, (parse (negations n) file).1.statements = [.expr t e] ∧ e.Plain ∧ e.printedDepth = 2 * n + 1 := by
  obtain ⟨T, stop, htokenizes⟩ := exists_tokenizes (negations n) file
  have hT := htokenizes.lexes.unique (lexes_negations n)
  obtain ⟨e, he, hplain, hdepth⟩ := exists_unary_negations hT
  have hdeepens : Deepens maxNestingDepth stop (exprWithin (fun _ => fail) (maxNestingDepth + 1)) 0 T (n + 1) :=
    deepens_negations hT (by omega) (by omega)
  obtain ⟨q, hlands⟩ := hdeepens.program
  have hfits : ¬∃ d ∈ (parse (negations n) file).2, ∃ limit, d.fault = .nestingTooDeep limit := by
    rw [htokenizes.tooDeep_iff (Nat.le_refl _), deepestLevel_eq_of_lands hlands (htokenizes.reads _)]
    exact Nat.not_lt.mpr hn
  obtain ⟨t, ts, rfl, -⟩ := begins_expression.exists_cons he.expression
  rw [(htokenizes.parse_of_derives (derives_of_expression he.expression)).resolve_left hfits]
  exact ⟨rfl, t, e, rfl, hplain, hdepth⟩

/-! Printed expressions -/

/-- Printing pushes an expression over the nesting limit just if its operators, each in a group of its own, nest deeper
than that. -/
theorem print_tooDeep_iff (hclean : (parse source file).2 = []) (hsingle : (parse source file).1.statements = [.expr t e])
    (hplain : e.Plain) :
    (∃ d ∈ (parse (parse source file).1.print file').2, ∃ limit, d.fault = .nestingTooDeep limit) ↔
      maxNestingDepth < e.printedDepth :=
  tooDeep_print_iff hsingle (legible_of_parse_expr hclean hsingle hplain)

/-- What is printed of 127 minus signs just fits. -/
theorem print_tooDeep_iff_negations : (parse (negations 127) none).2 = [] ∧
    ∃ t e, (parse (negations 127) none).1.statements = [.expr t e] ∧ e.Plain ∧ e.printedDepth = 255 ∧
      ((∃ d ∈ (parse (parse (negations 127) none).1.print none).2, ∃ limit, d.fault = .nestingTooDeep limit) ↔
        maxNestingDepth < e.printedDepth) := by
  have hfits : 127 < maxNestingDepth := by decide
  obtain ⟨hclean, t, e, hsingle, hplain, hdepth⟩ := parse_negations none hfits
  exact ⟨hclean, t, e, hsingle, hplain, hdepth, print_tooDeep_iff hclean hsingle hplain⟩

/-- 128 minus signs are parsed, and what is printed of that is not. -/
theorem print_tooDeep_negations : (parse (negations 128) none).2 = [] ∧
    (∃ t e, (parse (negations 128) none).1.statements = [.expr t e] ∧ e.Plain) ∧
    ∃ d ∈ (parse (parse (negations 128) none).1.print none).2, ∃ limit, d.fault = .nestingTooDeep limit := by
  have hfits : 128 < maxNestingDepth := by decide
  obtain ⟨hclean, t, e, hsingle, hplain, hdepth⟩ := parse_negations none hfits
  refine ⟨hclean, ⟨t, e, hsingle, hplain⟩, ?_⟩
  rw [tooDeep_print_iff hsingle (legible_of_parse_expr hclean hsingle hplain), hdepth]
  decide

end FrontEnd
