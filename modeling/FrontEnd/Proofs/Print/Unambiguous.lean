import FrontEnd.Proofs.Print.Nesting

/-!
Printed expressions are unambiguous: what is printed of an expression tells which expression it is, however deep it
nests.
-/

namespace FrontEnd

open Grammar Parse

mutual

/-- The values of the statements inside. -/
def Expr.values : Expr → List Expr
  | .ident _ | .int _ _ | .str _ _ | .bool _ _ => []
  | .unary _ _ right => right.values
  | .binary _ left _ right => left.values ++ right.values
  | .cond _ condition consequence alternative =>
    condition.values ++ (consequence.values ++ valuesOfElse alternative)
  | .fn _ _ body _ => body.values
  | .call _ callee arguments => callee.values ++ valuesOfExprs arguments
  | .array _ elements => valuesOfExprs elements
  | .index _ collection index => collection.values ++ index.values
  | .hash _ entries => valuesOfEntries entries

def Entry.values : Entry → List Expr
  | .mk key value => key.values ++ value.values

/-- The value of the statement, and those of the statements inside it. -/
def Stmt.values : Stmt → List Expr
  | .bind _ _ (some value) | .ret _ (some value) | .expr _ value => value :: value.values
  | .bind _ _ none | .ret _ none => []
  | .block body => body.values

def Block.values : Block → List Expr
  | .mk _ body => valuesOfStmts body

def valuesOfElse : Option Block → List Expr
  | none => []
  | some alternative => alternative.values

def valuesOfExprs : List Expr → List Expr
  | [] => []
  | e :: es => e.values ++ valuesOfExprs es

def valuesOfEntries : List Entry → List Expr
  | [] => []
  | e :: es => e.values ++ valuesOfEntries es

def valuesOfStmts : List Stmt → List Expr
  | [] => []
  | s :: ss => s.values ++ valuesOfStmts ss

end

/-- The values of all statements of the program, those in blocks included. -/
def Program.values (p : Program) : List Expr :=
  valuesOfStmts p.statements

theorem valuesOfExprs_eq_flatMap (es : List Expr) : valuesOfExprs es = es.flatMap Expr.values := by
  induction es with
  | nil => rfl
  | cons e es ih => rw [valuesOfExprs, ih, List.flatMap_cons]

theorem valuesOfEntries_eq_flatMap (es : List Entry) : valuesOfEntries es = es.flatMap Entry.values := by
  induction es with
  | nil => rfl
  | cons e es ih => rw [valuesOfEntries, ih, List.flatMap_cons]

theorem valuesOfStmts_eq_flatMap (ss : List Stmt) : valuesOfStmts ss = ss.flatMap Stmt.values := by
  induction ss with
  | nil => rfl
  | cons s ss ih => rw [valuesOfStmts, ih, List.flatMap_cons]

theorem Expr.values_labelled (label : String) (e : Expr) : (e.labelled label).values = e.values := by
  cases e <;> rfl

/-- Those that are plain are legible. -/
def AllLegible (es : List Expr) : Prop :=
  ∀ e ∈ es, e.Plain → e.Legible

theorem allLegible_nil : AllLegible [] :=
  List.forall_mem_nil _

theorem allLegible_cons {e : Expr} {es : List Expr} : AllLegible (e :: es) ↔ (e.Plain → e.Legible) ∧ AllLegible es :=
  List.forall_mem_cons

theorem AllLegible.append {es es' : List Expr} (h : AllLegible es) (h' : AllLegible es') : AllLegible (es ++ es') :=
  List.forall_mem_append.mpr ⟨h, h'⟩

theorem AllLegible.flatMap {α : Type} {f : α → List Expr} {as : List α} (h : ∀ a ∈ as, AllLegible (f a)) :
    AllLegible (as.flatMap f) := by
  intro e he
  obtain ⟨a, ha, he⟩ := List.mem_flatMap.mp he
  exact h a ha e he

/-! Values in a text -/

namespace Grammar

section Categories

variable {E : List Token → Expr → Prop} (hE : ∀ ts e, E ts e → AllGenuine ts → AllLegible (e :: e.values))
  {ts : List Token} {e : Expr}

include hE

theorem Listing.values {es : List Expr} (h : Listing E ts es) (hts : AllGenuine ts) :
    AllLegible (valuesOfExprs es) := by
  rw [valuesOfExprs_eq_flatMap]
  exact AllLegible.flatMap (h.forall_mem hts fun ts e h hts => (allLegible_cons.mp (hE ts e h hts)).2)

theorem PairListing.values {es : List Entry} (h : PairListing E ts es) (hts : AllGenuine ts) :
    AllLegible (valuesOfEntries es) := by
  rw [valuesOfEntries_eq_flatMap]
  refine AllLegible.flatMap (h.forall_mem hts fun ts entry h hts => ?_)
  cases h with
  | mk hkey _ hvalue =>
    obtain ⟨hks, hvs⟩ := allGenuine_append.mp hts
    have hkey := allLegible_cons.mp (hE _ _ hkey hks)
    have hvalue := allLegible_cons.mp (hE _ _ hvalue (allGenuine_cons.mp hvs).2)
    exact hkey.2.append hvalue.2

theorem Clause.values {s : Stmt} (h : Clause E ts s) (hts : AllGenuine ts) : AllLegible s.values := by
  cases h with
  | @bind _ name _ us e _ _ _ h =>
    have hus := (allGenuine_cons.mp (allGenuine_cons.mp (allGenuine_cons.mp hts).2).2).2
    obtain ⟨he, hvalues⟩ := allLegible_cons.mp (hE us e h hus)
    rw [Stmt.values, Expr.values_labelled]
    refine allLegible_cons.mpr ⟨fun hplain => ?_, hvalues⟩
    have heq := hplain.labelled_eq
    rw [heq] at hplain ⊢
    exact he hplain
  | ret _ h => exact hE _ _ h (allGenuine_cons.mp hts).2
  | expr h => exact hE _ _ h hts

theorem Stmts.values {ss : List Stmt} (h : Stmts E ts ss) (hts : AllGenuine ts) : AllLegible (valuesOfStmts ss) := by
  rw [valuesOfStmts_eq_flatMap]
  exact AllLegible.flatMap (h.forall_mem hts fun _ _ h => h.values hE)

theorem Braced.values {b : Block} (h : Braced E ts b) (hts : AllGenuine ts) : AllLegible b.values := by
  cases h with
  | mk _ h _ => exact h.values hE (allGenuine_append.mp (allGenuine_cons.mp hts).2).1

theorem Otherwise.values {o : Option Block} (h : Otherwise E ts o) (hts : AllGenuine ts) :
    AllLegible (valuesOfElse o) := by
  cases h with
  | none => exact allLegible_nil
  | some _ h => exact h.values hE (allGenuine_cons.mp hts).2

theorem Primary.values (h : Primary E ts e) (hts : AllGenuine ts) : AllLegible e.values := by
  cases h with
  | atom h => cases h <;> exact allLegible_nil
  | group _ h _ =>
    exact (allLegible_cons.mp (hE _ _ h (allGenuine_append.mp (allGenuine_cons.mp hts).2).1)).2
  | cond _ _ h _ hb ho =>
    obtain ⟨hus, hvs⟩ := allGenuine_append.mp (allGenuine_cons.mp (allGenuine_cons.mp hts).2).2
    obtain ⟨hbs, hos⟩ := allGenuine_append.mp (allGenuine_cons.mp hvs).2
    exact (allLegible_cons.mp (hE _ _ h hus)).2.append ((hb.values hE hbs).append (ho.values hE hos))
  | fn _ _ _ _ hb =>
    obtain ⟨-, hus⟩ := allGenuine_append.mp (allGenuine_cons.mp (allGenuine_cons.mp hts).2).2
    exact hb.values hE (allGenuine_cons.mp hus).2
  | array _ h _ => exact h.values hE (allGenuine_append.mp (allGenuine_cons.mp hts).2).1
  | hash _ h _ => exact h.values hE (allGenuine_append.mp (allGenuine_cons.mp hts).2).1

theorem Applied.values (h : Applied E ts e) (hts : AllGenuine ts) : AllLegible e.values := by
  induction h with
  | primary h => exact h.values hE hts
  | call _ _ hes _ ih =>
    obtain ⟨hts, hus⟩ := allGenuine_append.mp hts
    exact (ih hts).append (hes.values hE (allGenuine_append.mp (allGenuine_cons.mp hus).2).1)
  | index _ _ hi _ ih =>
    obtain ⟨hts, hus⟩ := allGenuine_append.mp hts
    have hi := allLegible_cons.mp (hE _ _ hi (allGenuine_append.mp (allGenuine_cons.mp hus).2).1)
    exact (ih hts).append hi.2

theorem Unary.values (h : Unary E ts e) (hts : AllGenuine ts) : AllLegible e.values := by
  induction h with
  | applied h => exact h.values hE hts
  | op _ _ ih => exact ih (allGenuine_cons.mp hts).2

theorem Level.values {ls : List (List Kind)} (h : Level E ls ts e) (hts : AllGenuine ts) : AllLegible e.values := by
  induction h with
  | unary h => exact h.values hE hts
  | tighter _ ih => exact ih hts
  | op _ _ _ ihl ihr =>
    obtain ⟨hts, hus⟩ := allGenuine_append.mp hts
    exact (ihl hts).append (ihr (allGenuine_cons.mp hus).2)

end Categories

theorem Expression.values {ts : List Token} {e : Expr} (h : Expression ts e) :
    AllGenuine ts → AllLegible (e :: e.values) := by
  refine Expression.least (P := fun ts e => AllGenuine ts → AllLegible (e :: e.values)) (fun ts e h hts => ?_) h
  have hE : ∀ ts e, (AllGenuine ts → AllLegible (e :: e.values)) → Writes ts e :=
    fun ts e h hts => h hts e List.mem_cons_self
  exact allLegible_cons.mpr ⟨h.legible (n := 0) hE rfl hts, h.values (fun _ _ h => h) hts⟩

theorem Derives.values {T : List Token} {p : Program} (h : Derives T p) (hT : AllGenuine T) : AllLegible p.values :=
  Stmts.values (fun _ _ h => h.values) h hT

end Grammar

/-! Trees that are printed alike -/

variable {source source' : String} {file file' : Option String} {T : List Token} {e e' e₁ e₂ : Expr}

theorem allLegible_values_of_parse (hclean : (parse source file).2 = []) : AllLegible (parse source file).1.values := by
  obtain ⟨T, stop, htokenizes⟩ := exists_tokenizes source file
  exact (htokenizes.derives hclean).values htokenizes.genuine

namespace Expr.Legible

theorem lexes_print (h : e.Legible) : Lexes e.print.toList e.lexemes := by
  have hlexes := h.lexes .nil fun _ hc => nomatch hc
  rwa [List.append_nil, List.append_nil] at hlexes

theorem lexemes_eq (h : e.Legible) (h' : e'.Legible) (hprint : e.print = e'.print) : e.lexemes = e'.lexemes := by
  have hlexes := h'.lexes_print
  rw [← hprint] at hlexes
  exact h.lexes_print.unique hlexes

/-- The lexemes of what is printed of an expression spell one expression only: parsed under a limit that its printed
depth fits in, they give whichever expression they spell. -/
theorem unique (h : e.Legible) (hT : T.map Token.lexeme = e.lexemes) (h₁ : Expression T e₁) (h₂ : Expression T e₂) :
    e₁ = e₂ := by
  have hgenuine : ∀ t ∈ T, t.lexeme.Genuine := fun t ht => h.lexes_print.genuine _ (hT ▸ List.mem_map_of_mem ht)
  have hreads := Parser.reads_withLimit e.printedDepth fun t ht => Token.kind_ne_eof (hgenuine t ht)
  have hnests : Nests e.printedDepth (TokenBuffer.ofList T).stop T e.printedDepth e.calls := h.nests hT
  obtain ⟨p, hlands⟩ := (hnests.deepens (by omega) (by omega)).program
  have hdeepest := deepestLevel_eq_of_lands hlands hreads
  have hcalm : ¬(program (Parser.withLimit e.printedDepth (.buffer (TokenBuffer.ofList T)))).2.TooDeep :=
    fun hdeep => absurd hdeepest (Nat.ne_of_gt (limit_lt_deepest_of_tooDeep _ _ hdeep))
  obtain ⟨t, ts, rfl, -⟩ := begins_expression.exists_cons h₁
  have hvalue : ∀ e', Expression (t :: ts) e' →
      (program (Parser.withLimit e.printedDepth (.buffer (TokenBuffer.ofList (t :: ts))))).1 = some ⟨[.expr t e']⟩ :=
    fun e' he' => ((hreads.program_of_derives (derives_of_expression he')).resolve_left hcalm).1
  have heq := (hvalue e₁ h₁).symm.trans (hvalue e₂ h₂)
  simpa using heq

theorem unplaced_eq (h : e.Legible) (h' : e'.Legible) (hprint : e.print = e'.print) : e.unplaced = e'.unplaced := by
  have hlexemes := h.lexemes_eq h' hprint
  obtain ⟨T, hT⟩ : ∃ T : List Token, T.map Token.lexeme = e.lexemes := by
    refine ⟨e.lexemes.map fun lexeme => .loose lexeme.1 lexeme.2, ?_⟩
    rw [List.map_map]
    exact List.map_id _
  obtain ⟨e₁, he₁, heq₁⟩ := h.reads hT
  obtain ⟨e₂, he₂, heq₂⟩ := h'.reads (hT.trans hlexemes)
  rw [← heq₁, ← heq₂, h.unique hT he₁.expression he₂.expression]

end Expr.Legible

/-- Values of statements, in one text or in two, are printed alike just if they differ at most in their places. -/
theorem print_eq_iff (hclean : (parse source file).2 = []) (hclean' : (parse source' file').2 = [])
    (he : e ∈ (parse source file).1.values) (he' : e' ∈ (parse source' file').1.values) (hplain : e.Plain)
    (hplain' : e'.Plain) : e.print = e'.print ↔ e.unplaced = e'.unplaced := by
  have hlegible := allLegible_values_of_parse hclean e he hplain
  have hlegible' := allLegible_values_of_parse hclean' e' he' hplain'
  exact ⟨hlegible.unplaced_eq hlegible', Expr.print_eq_of_unplaced_eq⟩

/-- A sum in the body of a function, and the same sum in the parentheses that printing adds. -/
theorem print_eq_iff_sum : (parse "fn(x) \x7b a + x * 2 \x7d" none).2 = [] ∧
    (parse "let y = (a + (x * 2));" none).2 = [] ∧
    ∃ e ∈ (parse "fn(x) \x7b a + x * 2 \x7d" none).1.values, ∃ e' ∈ (parse "let y = (a + (x * 2));" none).1.values,
      e.Plain ∧ e'.Plain ∧ e.print = "(a + (x * 2))" ∧ e'.print = "(a + (x * 2))" ∧
        (e.print = e'.print ↔ e.unplaced = e'.unplaced) := by
  have hclean : (parse "fn(x) \x7b a + x * 2 \x7d" none).2 = [] := by decide +kernel
  have hclean' : (parse "let y = (a + (x * 2));" none).2 = [] := by decide +kernel
  have hsum : ∃ e ∈ (parse "fn(x) \x7b a + x * 2 \x7d" none).1.values, e.Plain ∧ e.print = "(a + (x * 2))" := by
    decide +kernel
  have hsum' : ∃ e ∈ (parse "let y = (a + (x * 2));" none).1.values, e.Plain ∧ e.print = "(a + (x * 2))" := by
    decide +kernel
  obtain ⟨e, he, hplain, hprint⟩ := hsum
  obtain ⟨e', he', hplain', hprint'⟩ := hsum'
  exact ⟨hclean, hclean', e, he, e', he', hplain, hplain', hprint, hprint',
    print_eq_iff hclean hclean' he he' hplain hplain'⟩

end FrontEnd
