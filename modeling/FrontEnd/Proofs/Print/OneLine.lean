import FrontEnd.Proofs.Parser.Text
import FrontEnd.Proofs.Print.Legible
import FrontEnd.Proofs.Text.Line

/-!
Printed programs stand on one line: a line break in a string is escaped, and no other part of a tree has one.
-/

namespace FrontEnd

open Grammar

/-! Texts of tokens -/

theorem IsWord.newline_notMem {cs : List Char} (h : IsWord cs) : '\n' ∉ cs := by
  cases cs with
  | nil => exact List.not_mem_nil
  | cons c cs =>
    obtain ⟨hstart, hparts⟩ := h
    intro hmem
    rcases List.mem_cons.mp hmem with rfl | hmem
    · exact absurd hstart (by decide)
    · exact absurd (hparts _ hmem) (by decide)

theorem Kind.newline_notMem_spelling (k : Kind) : '\n' ∉ k.spelling := by
  cases k <;> decide

theorem Token.oneLine_value {t : Token} {k : Kind} (h : t.lexeme.Genuine) (hk : t.kind = k)
    (hkind : k ∉ [.string, .illegal]) : OneLine t.value := by
  cases k with
  | eof => exact absurd hk (t.kind_ne_eof h)
  | string | illegal => exact absurd (by decide) hkind
  | identifier => exact (t.isName h hk).1.newline_notMem
  | number => exact oneLine_of_isDigit (t.isNumeral h hk).2
  | _ =>
    unfold OneLine
    rw [t.toList_value h hk (by decide)]
    exact Kind.newline_notMem_spelling _

/-- A text in quotes is on one line if that of each character is. -/
theorem oneLine_ofList_quotes {f : Char → List Char} (hf : ∀ c, '\n' ∉ f c) (cs : List Char) :
    OneLine (String.ofList ('"' :: cs.flatMap f ++ ['"'])) := by
  unfold OneLine
  rw [String.toList_ofList]
  simp [hf]

theorem newline_notMem_printChar (c : Char) : '\n' ∉ Literal.printChar c := by
  unfold Literal.printChar
  split
  · decide
  · decide
  · decide
  · decide
  · decide
  · rename_i hnewline _ _ _ _
    exact fun hmem => hnewline (List.mem_singleton.mp hmem).symm

theorem Literal.oneLine_print (value : String) : OneLine (Literal.print value) :=
  oneLine_ofList_quotes newline_notMem_printChar value.toList

theorem Expr.print_labelled (label : String) (e : Expr) : (e.labelled label).print = e.print := by
  cases e <;> rfl

/-! Trees that the tokens of a text spell -/

namespace Grammar

theorem Name.oneLine {ts : List Token} {id : Ident} (h : Name ts id) (hts : AllGenuine ts) : OneLine id.name := by
  cases h with
  | @mk t hk =>
    have ht : t.lexeme.Genuine := hts t List.mem_cons_self
    exact t.oneLine_value ht hk (by decide)

theorem Atom.oneLine {t : Token} {e : Expr} (h : Atom t e) (ht : t.lexeme.Genuine) : OneLine e.print := by
  cases h with
  | ident hk | int hk _ | trueWord hk | falseWord hk => exact t.oneLine_value ht hk (by decide)
  | str _ => exact Literal.oneLine_print t.value

section Categories

variable {E : List Token → Expr → Prop} (hE : ∀ ts e, E ts e → AllGenuine ts → OneLine e.print)
  {ts : List Token} {e : Expr}

include hE

theorem Listing.oneLine {es : List Expr} (h : Listing E ts es) (hts : AllGenuine ts) :
    OneLine (", ".intercalate (printExprs es)) := by
  rw [printExprs_eq_map]
  exact OneLine.intercalate (by decide) (List.forall_mem_map.mpr (h.forall_mem hts hE))

theorem Pair.oneLine {entry : Entry} (h : Pair E ts entry) (hts : AllGenuine ts) : OneLine entry.print := by
  cases h with
  | mk hkey _ hvalue =>
    obtain ⟨hks, hvs⟩ := allGenuine_append.mp hts
    have hkey := hE _ _ hkey hks
    have hvalue := hE _ _ hvalue (allGenuine_cons.mp hvs).2
    rw [Entry.print]
    exact (hkey.append (by decide)).append hvalue

theorem PairListing.oneLine {es : List Entry} (h : PairListing E ts es) (hts : AllGenuine ts) :
    OneLine (", ".intercalate (printEntries es)) := by
  rw [printEntries_eq_map]
  exact OneLine.intercalate (by decide) (List.forall_mem_map.mpr (h.forall_mem hts fun _ _ h => h.oneLine hE))

theorem Clause.oneLine {s : Stmt} (h : Clause E ts s) (hts : AllGenuine ts) : OneLine s.print := by
  cases h with
  | @bind word name _ _ e hword hname _ h =>
    obtain ⟨hgenuine, hts⟩ := allGenuine_cons.mp hts
    obtain ⟨hgenuine', hts⟩ := allGenuine_cons.mp hts
    have hword := word.oneLine_value hgenuine hword (by decide)
    have hname := name.oneLine_value hgenuine' hname (by decide)
    have he := hE _ _ h (allGenuine_cons.mp hts).2
    rw [Stmt.print, printValue, Expr.print_labelled]
    exact ((((hword.append (by decide)).append hname).append (by decide)).append he).append (by decide)
  | @ret word _ e hword h =>
    obtain ⟨hgenuine, hts⟩ := allGenuine_cons.mp hts
    have hword := word.oneLine_value hgenuine hword (by decide)
    rw [Stmt.print, printValue]
    exact ((hword.append (by decide)).append (hE _ _ h hts)).append (by decide)
  | expr h => exact hE _ _ h hts

theorem Stmts.oneLine {ss : List Stmt} (h : Stmts E ts ss) (hts : AllGenuine ts) :
    OneLine (String.join (printStmts ss)) := by
  rw [printStmts_eq_map]
  exact OneLine.join (List.forall_mem_map.mpr (h.forall_mem hts fun _ _ h => h.oneLine hE))

theorem Braced.oneLine {b : Block} (h : Braced E ts b) (hts : AllGenuine ts) : OneLine b.print := by
  cases h with
  | mk _ h _ => exact h.oneLine hE (allGenuine_append.mp (allGenuine_cons.mp hts).2).1

theorem Otherwise.oneLine {o : Option Block} (h : Otherwise E ts o) (hts : AllGenuine ts) : OneLine (printElse o) := by
  cases h with
  | none => exact List.not_mem_nil
  | some _ h => exact OneLine.append (by decide) (h.oneLine hE (allGenuine_cons.mp hts).2)

theorem Primary.oneLine (h : Primary E ts e) (hts : AllGenuine ts) : OneLine e.print := by
  cases h with
  | atom h => exact h.oneLine (allGenuine_cons.mp hts).1
  | group _ h _ => exact hE _ _ h (allGenuine_append.mp (allGenuine_cons.mp hts).2).1
  | cond _ _ h _ hb ho =>
    obtain ⟨hus, hvs⟩ := allGenuine_append.mp (allGenuine_cons.mp (allGenuine_cons.mp hts).2).2
    obtain ⟨hbs, hos⟩ := allGenuine_append.mp (allGenuine_cons.mp hvs).2
    have hcondition := hE _ _ h hus
    rw [Expr.print]
    exact ((((by decide : OneLine "if").append hcondition).append (by decide)).append (hb.oneLine hE hbs)).append
      (ho.oneLine hE hos)
  | @fn word _ _ ids _ _ _ hword _ hids _ hb =>
    obtain ⟨hgenuine, hts⟩ := allGenuine_cons.mp hts
    obtain ⟨hus, hvs⟩ := allGenuine_append.mp (allGenuine_cons.mp hts).2
    have hword := word.oneLine_value hgenuine hword (by decide)
    have hids : OneLine (", ".intercalate (ids.map Ident.name)) :=
      OneLine.intercalate (by decide) (List.forall_mem_map.mpr (hids.forall_mem hus fun _ _ h => h.oneLine))
    rw [Expr.print]
    exact (((hword.append (by decide)).append hids).append (by decide)).append
      (hb.oneLine hE (allGenuine_cons.mp hvs).2)
  | array _ h _ =>
    have hes := h.oneLine hE (allGenuine_append.mp (allGenuine_cons.mp hts).2).1
    rw [Expr.print]
    exact ((by decide : OneLine "[").append hes).append (by decide)
  | hash _ h _ =>
    have hes := h.oneLine hE (allGenuine_append.mp (allGenuine_cons.mp hts).2).1
    rw [Expr.print]
    exact ((by decide : OneLine "\x7b").append hes).append (by decide)

theorem Applied.oneLine (h : Applied E ts e) (hts : AllGenuine ts) : OneLine e.print := by
  induction h with
  | primary h => exact h.oneLine hE hts
  | call _ _ hes _ ih =>
    obtain ⟨hts, hus⟩ := allGenuine_append.mp hts
    have hes := hes.oneLine hE (allGenuine_append.mp (allGenuine_cons.mp hus).2).1
    rw [Expr.print]
    exact (((ih hts).append (by decide)).append hes).append (by decide)
  | index _ _ hi _ ih =>
    obtain ⟨hts, hus⟩ := allGenuine_append.mp hts
    have hi := hE _ _ hi (allGenuine_append.mp (allGenuine_cons.mp hus).2).1
    rw [Expr.print]
    exact ((((by decide : OneLine "(").append (ih hts)).append (by decide)).append hi).append (by decide)

theorem Unary.oneLine (h : Unary E ts e) (hts : AllGenuine ts) : OneLine e.print := by
  induction h with
  | applied h => exact h.oneLine hE hts
  | @op t _ _ hoperator _ ih =>
    obtain ⟨hgenuine, hts⟩ := allGenuine_cons.mp hts
    have hvalue : OneLine t.value := by
      rcases hoperator with hk | hk <;> exact t.oneLine_value hgenuine hk (by decide)
    rw [Expr.print]
    exact (((by decide : OneLine "(").append hvalue).append (ih hts)).append (by decide)

theorem Level.oneLine {ls : List (List Kind)} (h : Level E ls ts e)
    (hls : ∀ ops ∈ ls, ∀ k ∈ ops, k ∉ [.string, .illegal]) (hts : AllGenuine ts) : OneLine e.print := by
  induction h with
  | unary h => exact h.oneLine hE hts
  | tighter _ ih => exact ih (List.forall_mem_cons.mp hls).2 hts
  | @op _ _ _ _ t _ _ _ hoperator _ ihl ihr =>
    obtain ⟨hts, hus⟩ := allGenuine_append.mp hts
    obtain ⟨hgenuine, hus⟩ := allGenuine_cons.mp hus
    obtain ⟨hops, htighter⟩ := List.forall_mem_cons.mp hls
    have hvalue := t.oneLine_value hgenuine rfl (hops _ hoperator)
    rw [Expr.print]
    exact ((((((by decide : OneLine "(").append (ihl hls hts)).append (by decide)).append hvalue).append
      (by decide)).append (ihr htighter hus)).append (by decide)

end Categories

theorem Expression.oneLine {ts : List Token} {e : Expr} (h : Expression ts e) : AllGenuine ts → OneLine e.print := by
  refine Expression.least (P := fun ts e => AllGenuine ts → OneLine e.print) (fun ts e h => ?_) h
  exact h.oneLine (fun _ _ h => h) (by decide)

theorem Derives.oneLine {T : List Token} {p : Program} (h : Derives T p) (hT : AllGenuine T) : OneLine p.print :=
  Stmts.oneLine (fun _ _ h => h.oneLine) h hT

end Grammar

/-- A program that there is nothing to report about is printed on one line. -/
theorem oneLine_print_of_parse {source : String} {file : Option String} (hclean : (parse source file).2 = []) :
    OneLine (parse source file).1.print := by
  obtain ⟨T, stop, htokenizes⟩ := exists_tokenizes source file
  exact (htokenizes.derives hclean).oneLine htokenizes.genuine

end FrontEnd
