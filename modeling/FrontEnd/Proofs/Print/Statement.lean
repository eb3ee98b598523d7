import FrontEnd.Proofs.Parser.Text
import FrontEnd.Proofs.Print.Rereading
import Mathlib.Data.List.Chain

/-!
Printed statements, one right behind the other: where none runs into the next, they are read back.
-/

namespace FrontEnd

open Grammar

/-- The character goes on with what is printed of the statement: it is lexed into its end, or begins a call or an index
there. -/
def Stmt.continues : Stmt → Char → Bool
  | .expr _ e, c => c == '(' || c == '[' || e.absorbs c
  | _, _ => false

/-- What is printed of the one statement goes on with what is printed of the other. -/
def Stmt.RunsInto (s s' : Stmt) : Prop :=
  ∃ c ∈ s'.print.toList.head?, s.continues c = true

instance : DecidableRel Stmt.RunsInto :=
  fun s s' => decidable_of_iff (s'.print.toList.head?.any s.continues = true) (Option.any_eq_true s.continues _)

/-- The lexemes of what is printed of a statement. -/
def Stmt.lexemes : Stmt → List Lexeme
  | .bind word name (some e) =>
    word.lexeme :: name.token.lexeme :: Kind.assign.lexeme :: (e.lexemes ++ [Kind.semicolon.lexeme])
  | .ret word (some e) => word.lexeme :: (e.lexemes ++ [Kind.semicolon.lexeme])
  | .expr _ e => e.lexemes
  | .bind _ _ none | .ret _ none | .block _ => []

section Text

variable {word : Token} {e : Expr}

theorem toList_print_bind {name : Ident} : (Stmt.bind word name (some e)).print.toList = word.value.toList ++
    ' ' :: (name.name.toList ++ ' ' :: '=' :: ' ' :: (e.print.toList ++ [';'])) := by
  simp [Stmt.print, printValue]

theorem toList_print_ret : (Stmt.ret word (some e)).print.toList =
    word.value.toList ++ ' ' :: (e.print.toList ++ [';']) := by
  simp [Stmt.print, printValue]

theorem Program.toList_print (p : Program) : p.print.toList = p.statements.flatMap fun s => s.print.toList := by
  rw [Program.print, printStmts_eq_map, String.toList_join, List.flatMap_map]

end Text

/-- What is read of a legible tree is no function, so it takes no name. -/
theorem Expr.Legible.labelled_eq {e e' : Expr} {label : String} (h : e.Legible) (heq : e'.unplaced = e.unplaced) :
    e'.labelled label = e' := by
  cases e' with
  | fn _ _ _ _ =>
    cases h with
    | atom _ h => cases h <;> exact nomatch heq
    | unary _ _ _ | binary _ _ _ _ | call _ _ _ _ | array _ _ _ | index _ _ _ _ | hash _ _ _ _ => exact nomatch heq
  | _ => rfl

namespace Stmt

variable {s : Stmt} {cs : List Char} {ls : List Lexeme} {T : List Token}

/-- What is printed of a statement begins with a word of its own or as an expression does. -/
theorem Legible.exists_opens (h : s.Legible) : ∃ c cs k value ls, s.print.toList = c :: cs ∧
    s.lexemes = (k, value) :: ls ∧ (Opens c k ∨ isWordStart c = true ∧ (k = .letWord ∨ k = .returnWord)) := by
  cases h with
  | @bind word name e hword hk _ _ _ =>
    have hvalue := word.toList_value hword hk (.inr (by decide))
    have htext : (Stmt.bind word ⟨name, name.value⟩ (some e)).print.toList = _ := toList_print_bind
    rw [hvalue] at htext
    exact ⟨'l', _, word.kind, word.value, _, htext, rfl, .inr ⟨rfl, .inl hk⟩⟩
  | @ret word e hword hk _ =>
    have hvalue := word.toList_value hword hk (.inr (by decide))
    have htext : (Stmt.ret word (some e)).print.toList = _ := toList_print_ret
    rw [hvalue] at htext
    exact ⟨'r', _, word.kind, word.value, _, htext, rfl, .inr ⟨rfl, .inr hk⟩⟩
  | expr he =>
    obtain ⟨c, cs, k, value, ls, hprint, hlexemes, hopens⟩ := he.exists_opens
    exact ⟨c, cs, k, value, ls, hprint, hlexemes, .inl hopens⟩

theorem Legible.exists_head (h : s.Legible) : ∃ c cs k, s.print.toList = c :: cs ∧ Opens c k := by
  obtain ⟨c, cs, k, -, -, hprint, -, hopens | ⟨hword, -⟩⟩ := h.exists_opens
  · exact ⟨c, cs, k, hprint, hopens⟩
  · exact ⟨c, cs, .identifier, hprint, .inr (.inr (.inr (.inr (.inr ⟨hword, .inl rfl⟩))))⟩

theorem Legible.lexes (h : s.Legible) (hrest : Lexes cs ls) (hnext : ∀ c ∈ cs.head?, s.continues c = false) :
    Lexes (s.print.toList ++ cs) (s.lexemes ++ ls) := by
  cases h with
  | @bind word name e hword hk hname hk' he =>
    have hid := Expr.Legible.atom hname (.ident hk')
    have hsemicolon := hrest.single (k := .semicolon) (by decide) (by decide)
    have hvalue := he.lexes hsemicolon (forall_head?_cons (e.absorbs_eq_false rfl))
    have hassign := (hvalue.blank he.isBlank_eq_false).symbol (k := .assign) (by decide)
      (forall_head?_cons (by rintro (⟨-, h⟩ | ⟨-, h⟩) <;> exact nomatch h))
    have hbound := hid.lexes (hassign.blank (forall_head?_cons rfl)) (forall_head?_cons rfl)
    have hall := (hbound.blank hid.isBlank_eq_false).keyword hword (by rw [hk]; decide) (forall_head?_cons rfl)
    simpa [toList_print_bind, Stmt.lexemes, Kind.spelling, Expr.print, Expr.lexemes] using hall
  | @ret word e hword hk he =>
    have hsemicolon := hrest.single (k := .semicolon) (by decide) (by decide)
    have hvalue := he.lexes hsemicolon (forall_head?_cons (e.absorbs_eq_false rfl))
    have hall := (hvalue.blank he.isBlank_eq_false).keyword hword (by rw [hk]; decide) (forall_head?_cons rfl)
    simpa [toList_print_ret, Stmt.lexemes, Kind.spelling] using hall
  | expr he => exact he.lexes hrest fun c hc => (Bool.or_eq_false_iff.mp (hnext c hc)).2

/-- Each statement is lexed for itself, if none runs into the next. -/
theorem Legible.lexes_flatMap {ss : List Stmt} (h : ∀ s ∈ ss, s.Legible)
    (hchain : ss.IsChain fun s s' => ¬s.RunsInto s') :
    Lexes (ss.flatMap fun s => s.print.toList) (ss.flatMap Stmt.lexemes) := by
  induction ss with
  | nil => exact .nil
  | cons s ss ih =>
    obtain ⟨hs, hss⟩ := List.forall_mem_cons.mp h
    rw [List.flatMap_cons, List.flatMap_cons]
    cases ss with
    | nil => exact hs.lexes .nil fun _ hc => nomatch hc
    | cons s' ss =>
      obtain ⟨hapart, hchain⟩ := List.isChain_cons_cons.mp hchain
      refine hs.lexes (ih hss hchain) fun c hc => ?_
      obtain ⟨c', cs, -, hprint, -⟩ := (hss s' List.mem_cons_self).exists_head
      have hhead : c ∈ s'.print.toList.head? := by
        rw [List.flatMap_cons, hprint] at hc
        rw [hprint]
        exact hc
      exact Bool.eq_false_iff.mpr fun hcontinues => hapart ⟨c, hhead, hcontinues⟩

/-- The lexemes of what is printed of a statement spell it again. Only an expression comes without a semicolon. -/
theorem Legible.reads (h : s.Legible) (hT : T.map Token.lexeme = s.lexemes) :
    ∃ ts us s', T = ts ++ us ∧ Clause Expression ts s' ∧ s'.unplaced = s.unplaced ∧
      ((∃ semicolon, us = [semicolon] ∧ semicolon.kind = .semicolon) ∨ (us = [] ∧ ∃ t e, s = .expr t e)) := by
  cases h with
  | @bind word name e _ hk _ hk' he =>
    rw [Stmt.lexemes] at hT
    obtain ⟨word', ts, rfl, hword, hts⟩ := exists_of_map_lexeme_cons hT
    obtain ⟨name', us, rfl, hname, hus⟩ := exists_of_map_lexeme_cons hts
    obtain ⟨assign, vs, rfl, hassign, hvs⟩ := exists_of_map_lexeme_cons hus
    obtain ⟨ws, semicolon, rfl, hws, hsemicolon⟩ := exists_of_map_lexeme_concat hvs
    obtain ⟨e', he', heq⟩ := he.reads hws
    have hclause := Clause.bind ((Token.kind_eq hword).trans hk) ((Token.kind_eq hname).trans hk')
      (Token.kind_eq hassign) he'.expression
    rw [he.labelled_eq heq] at hclause
    refine ⟨word' :: name' :: assign :: ws, [semicolon], _, rfl, hclause, ?_, .inl ⟨semicolon, rfl, hsemicolon⟩⟩
    simp only [Stmt.unplaced, Ident.unplaced, unplacedValue, Token.unplaced_eq hword, Token.unplaced_eq hname,
      Token.value_eq hname, heq]
  | @ret word e _ hk he =>
    rw [Stmt.lexemes] at hT
    obtain ⟨word', ts, rfl, hword, hts⟩ := exists_of_map_lexeme_cons hT
    obtain ⟨us, semicolon, rfl, hus, hsemicolon⟩ := exists_of_map_lexeme_concat hts
    obtain ⟨e', he', heq⟩ := he.reads hus
    refine ⟨word' :: us, [semicolon], _, rfl, .ret ((Token.kind_eq hword).trans hk) he'.expression, ?_,
      .inl ⟨semicolon, rfl, hsemicolon⟩⟩
    simp only [Stmt.unplaced, unplacedValue, Token.unplaced_eq hword, heq]
  | @expr t e he =>
    obtain ⟨e', he', heq⟩ := he.reads hT
    obtain ⟨t', ts, rfl, -⟩ := Parse.begins_expression.exists_cons he'.expression
    refine ⟨t' :: ts, [], _, (List.append_nil _).symm, .expr he'.expression, ?_, .inr ⟨rfl, t, e, rfl⟩⟩
    simp only [Stmt.unplaced, heq]

/-- What comes behind an expression that does not run into it does not go on with the expression. -/
theorem Legible.notMem_continuing {s' : Stmt} {t : Token} {e : Expr} (h : s'.Legible)
    (hapart : ¬(Stmt.expr t e).RunsInto s') (hT : T.map Token.lexeme = s'.lexemes ++ ls) :
    ∀ t ∈ T.head?, t.kind ∉ continuing := by
  obtain ⟨c, cs, k, value, ms, hprint, hlexemes, hk⟩ := h.exists_opens
  rw [hlexemes] at hT
  obtain ⟨t, ts, rfl, ht, -⟩ := exists_of_map_lexeme_cons hT
  intro t' ht'
  obtain rfl := Option.some.inj ht'
  rw [Token.kind_eq ht]
  rcases hk with hopens | ⟨-, rfl | rfl⟩
  · have hc : (c == '(' || c == '[' || e.absorbs c) = false := by
      refine Bool.eq_false_iff.mpr fun hcontinues => hapart ⟨c, ?_, hcontinues⟩
      rw [hprint]
      rfl
    simp only [Bool.or_eq_false_iff, beq_eq_false_iff_ne] at hc
    rcases hopens with ⟨hparen, -⟩ | ⟨hbracket, -⟩ | ⟨-, rfl⟩ | ⟨-, rfl⟩ | ⟨-, rfl⟩ | ⟨-, rfl | rfl | rfl⟩
    · exact absurd hparen hc.1.1
    · exact absurd hbracket hc.1.2
    all_goals decide
  · decide
  · decide

/-- The lexemes of printed statements spell these again, if none runs into the next. -/
theorem Legible.reads_flatMap {ss : List Stmt} (h : ∀ s ∈ ss, s.Legible)
    (hchain : ss.IsChain fun s s' => ¬s.RunsInto s') (hT : T.map Token.lexeme = ss.flatMap Stmt.lexemes) :
    ∃ ss', Stmts Expression T ss' ∧ ss'.map Stmt.unplaced = ss.map Stmt.unplaced := by
  induction ss generalizing T with
  | nil =>
    obtain rfl := List.map_eq_nil_iff.mp hT
    exact ⟨[], .nil, rfl⟩
  | cons s ss ih =>
    obtain ⟨hs, hss⟩ := List.forall_mem_cons.mp h
    rw [List.flatMap_cons] at hT
    obtain ⟨T₁, T₂, rfl, hT₁, hT₂⟩ := List.map_eq_append_iff.mp hT
    obtain ⟨ss', hstmts, heqs⟩ := ih hss hchain.tail hT₂
    obtain ⟨ts, us, s', rfl, hclause, heq, ⟨semicolon, rfl, hsemicolon⟩ | ⟨rfl, t, e, rfl⟩⟩ := hs.reads hT₁
    · refine ⟨s' :: ss', ?_, by rw [List.map_cons, List.map_cons, heq, heqs]⟩
      rw [List.append_assoc]
      exact .ended hclause hsemicolon hstmts
    · refine ⟨s' :: ss', ?_, by rw [List.map_cons, List.map_cons, heq, heqs]⟩
      rw [List.append_nil]
      refine .bare hclause ?_ hstmts
      cases ss with
      | nil =>
        obtain rfl := List.map_eq_nil_iff.mp hT₂
        exact fun _ ht => nomatch ht
      | cons s₂ ss =>
        rw [List.flatMap_cons] at hT₂
        exact (hss s₂ List.mem_cons_self).notMem_continuing (List.isChain_cons_cons.mp hchain).1 hT₂

end Stmt

/-! Whole programs -/

variable {source : String} {file file' : Option String} {T : List Token} {stop : Position} {p : Program}

theorem legible_of_parse (hclean : (parse source file).2 = [])
    (hplain : ∀ s ∈ (parse source file).1.statements, s.Parts Expr.Plain) :
    ∀ s ∈ (parse source file).1.statements, s.Legible := by
  obtain ⟨T, stop, htokenizes⟩ := exists_tokenizes source file
  exact (htokenizes.derives hclean).legible htokenizes.genuine hplain

theorem Tokenizes.map_lexeme_eq (h : Tokenizes p.print file T stop) (hp : ∀ s ∈ p.statements, s.Legible)
    (hchain : p.statements.IsChain fun s s' => ¬s.RunsInto s') :
    T.map Token.lexeme = p.statements.flatMap Stmt.lexemes := by
  have hlexes := h.lexes
  rw [p.toList_print] at hlexes
  exact hlexes.unique (Stmt.Legible.lexes_flatMap hp hchain)

/-- What is printed of a program in which no statement runs into the next is parsed to that program. -/
theorem parse_print (hp : ∀ s ∈ p.statements, s.Legible) (hchain : p.statements.IsChain fun s s' => ¬s.RunsInto s')
    (hfits : ∀ d ∈ (parse p.print file).2, ∀ limit, d.fault ≠ .nestingTooDeep limit) :
    (parse p.print file).2 = [] ∧ (parse p.print file).1.unplaced = p.unplaced := by
  obtain ⟨T, stop, htokenizes⟩ := exists_tokenizes p.print file
  obtain ⟨ss', hstmts, heq⟩ := Stmt.Legible.reads_flatMap hp hchain (htokenizes.map_lexeme_eq hp hchain)
  have hderives : Derives T ⟨ss'⟩ := hstmts
  rcases htokenizes.parse_of_derives hderives with ⟨d, hd, limit, hfault⟩ | hparse
  · exact absurd hfault (hfits d hd limit)
  · rw [hparse]
    refine ⟨rfl, ?_⟩
    unfold Program.unplaced
    rw [unplacedStmts_eq_map, unplacedStmts_eq_map, heq]

instance (s : Stmt) : Decidable (∀ t e, s ≠ .expr t e) :=
  match s with
  | .expr t e => isFalse fun h => h t e rfl
  | .bind _ _ _ | .ret _ _ | .block _ => isTrue nofun

/-- Where only the last statement may be an expression, none runs into the next. -/
theorem isChain_of_dropLast {ss : List Stmt} (h : ∀ s ∈ ss.dropLast, ∀ t e, s ≠ .expr t e) :
    ss.IsChain fun s s' => ¬s.RunsInto s' := by
  induction ss with
  | nil => exact .nil
  | cons s ss ih =>
    cases ss with
    | nil => exact .singleton s
    | cons s' ss =>
      obtain ⟨hs, hss⟩ := List.forall_mem_cons.mp h
      refine .cons_cons ?_ (ih hss)
      rintro ⟨c, -, hc⟩
      cases s with
      | expr t e => exact hs t e rfl
      | bind _ _ _ | ret _ _ | block _ => exact nomatch hc

/-- Bindings and returns, and perhaps an expression behind them, come out of printing and parsing again as they went in,
and are printed alike the second time. -/
theorem print_round_trip (hclean : (parse source file).2 = [])
    (hplain : ∀ s ∈ (parse source file).1.statements, s.Parts Expr.Plain)
    (hlast : ∀ s ∈ (parse source file).1.statements.dropLast, ∀ t e, s ≠ .expr t e)
    (hfits : ∀ d ∈ (parse (parse source file).1.print file').2, ∀ limit, d.fault ≠ .nestingTooDeep limit) :
    (parse (parse source file).1.print file').2 = [] ∧
      (parse (parse source file).1.print file').1.unplaced = (parse source file).1.unplaced ∧
      (parse (parse source file).1.print file').1.print = (parse source file).1.print := by
  have hlegible := legible_of_parse hclean hplain
  obtain ⟨hquiet, heq⟩ := parse_print hlegible (isChain_of_dropLast hlast) hfits
  exact ⟨hquiet, heq, Program.print_eq_of_unplaced_eq heq⟩

theorem print_round_trip_call : (parse "let a = -1; a(2)" none).2 = [] ∧
    (∀ s ∈ (parse "let a = -1; a(2)" none).1.statements, s.Parts Expr.Plain) ∧
    (∀ s ∈ (parse "let a = -1; a(2)" none).1.statements.dropLast, ∀ t e, s ≠ .expr t e) ∧
    (parse (parse "let a = -1; a(2)" none).1.print none).2 = [] ∧
    (parse (parse "let a = -1; a(2)" none).1.print none).1.unplaced = (parse "let a = -1; a(2)" none).1.unplaced ∧
    (parse (parse "let a = -1; a(2)" none).1.print none).1.print = (parse "let a = -1; a(2)" none).1.print := by
  have hclean : (parse "let a = -1; a(2)" none).2 = [] := by decide +kernel
  have hplain : ∀ s ∈ (parse "let a = -1; a(2)" none).1.statements, s.Parts Expr.Plain := by decide +kernel
  have hlast : ∀ s ∈ (parse "let a = -1; a(2)" none).1.statements.dropLast, ∀ t e, s ≠ .expr t e := by decide +kernel
  have hquiet : (parse (parse "let a = -1; a(2)" none).1.print none).2 = [] := by decide +kernel
  refine ⟨hclean, hplain, hlast, print_round_trip hclean hplain hlast ?_⟩
  rw [hquiet]
  exact List.forall_mem_nil _

end FrontEnd
