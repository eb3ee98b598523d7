import FrontEnd.Proofs.Parser.Expr
import FrontEnd.Proofs.Print.Lexing
import FrontEnd.Proofs.Tree

/-!
Trees that the tokens of a text spell: where there is no conditional and no function, they can be printed and lexed.
-/

namespace FrontEnd

/-- Tokens that a text can have. -/
def AllGenuine (ts : List Token) : Prop :=
  ∀ t ∈ ts, t.lexeme.Genuine

theorem allGenuine_append {ts us : List Token} : AllGenuine (ts ++ us) ↔ AllGenuine ts ∧ AllGenuine us :=
  List.forall_mem_append

theorem allGenuine_cons {t : Token} {ts : List Token} : AllGenuine (t :: ts) ↔ t.lexeme.Genuine ∧ AllGenuine ts :=
  List.forall_mem_cons

namespace Grammar

section Lists

variable {ts : List Token} {E : List Token → Expr → Prop}

theorem Listing.forall_mem {α : Type} {D : List Token → α → Prop} {Q : α → Prop} {as : List α} (h : Listing D ts as)
    (hts : AllGenuine ts) (hD : ∀ ts a, D ts a → AllGenuine ts → Q a) : ∀ a ∈ as, Q a := by
  cases h with
  | none => exact List.forall_mem_nil _
  | some h =>
    induction h with
    | one h => exact List.forall_mem_singleton.mpr (hD _ _ h hts)
    | more h _ _ ih =>
      obtain ⟨hts, hus⟩ := allGenuine_append.mp hts
      exact List.forall_mem_cons.mpr ⟨hD _ _ h hts, ih (allGenuine_cons.mp hus).2⟩

theorem PairListing.forall_mem {Q : Entry → Prop} {es : List Entry} (h : PairListing E ts es) (hts : AllGenuine ts)
    (hE : ∀ ts entry, Pair E ts entry → AllGenuine ts → Q entry) : ∀ entry ∈ es, Q entry := by
  cases h with
  | none => exact List.forall_mem_nil _
  | some h =>
    induction h with
    | one h => exact List.forall_mem_singleton.mpr (hE _ _ h hts)
    | trailing h _ => exact List.forall_mem_singleton.mpr (hE _ _ h (allGenuine_append.mp hts).1)
    | more h _ _ ih =>
      obtain ⟨hts, hus⟩ := allGenuine_append.mp hts
      exact List.forall_mem_cons.mpr ⟨hE _ _ h hts, ih (allGenuine_cons.mp hus).2⟩

theorem Stmts.forall_mem {Q : Stmt → Prop} {ss : List Stmt} (h : Stmts E ts ss) (hts : AllGenuine ts)
    (hE : ∀ ts s, Clause E ts s → AllGenuine ts → Q s) : ∀ s ∈ ss, Q s := by
  induction h with
  | nil => exact List.forall_mem_nil _
  | ended hclause _ _ ih =>
    obtain ⟨hts, hus⟩ := allGenuine_append.mp hts
    exact List.forall_mem_cons.mpr ⟨hE _ _ hclause hts, ih (allGenuine_cons.mp hus).2⟩
  | bare hclause _ _ ih =>
    obtain ⟨hts, hus⟩ := allGenuine_append.mp hts
    exact List.forall_mem_cons.mpr ⟨hE _ _ hclause hts, ih hus⟩

end Lists

/-- The tree is legible if its tokens are those of a text. -/
def Writes (ts : List Token) (e : Expr) : Prop :=
  AllGenuine ts → e.Plain → e.Legible

section Categories

variable {ts : List Token} {e : Expr} {E : List Token → Expr → Prop} (hE : ∀ ts e, E ts e → Writes ts e)

include hE

theorem Listing.legible {es : List Expr} (h : Listing E ts es) (hts : AllGenuine ts) (hes : ∀ e ∈ es, e.Plain) :
    ∀ e ∈ es, e.Legible :=
  fun e he => h.forall_mem hts hE e he (hes e he)

theorem Pair.legible {entry : Entry} (h : Pair E ts entry) (hts : AllGenuine ts) (hk : entry.key.Plain)
    (hv : entry.value.Plain) : entry.key.Legible ∧ entry.value.Legible := by
  cases h with
  | mk hkey _ hvalue =>
    obtain ⟨hks, hvs⟩ := allGenuine_append.mp hts
    exact ⟨hE _ _ hkey hks hk, hE _ _ hvalue (allGenuine_cons.mp hvs).2 hv⟩

theorem PairListing.legible {es : List Entry} (h : PairListing E ts es) (hts : AllGenuine ts)
    (hks : ∀ entry ∈ es, entry.key.Plain) (hvs : ∀ entry ∈ es, entry.value.Plain) :
    ∀ entry ∈ es, entry.key.Legible ∧ entry.value.Legible :=
  fun entry he => h.forall_mem hts (fun _ _ h hts => h.legible hE hts) entry he (hks entry he) (hvs entry he)

theorem Primary.legible (h : Primary E ts e) (hts : AllGenuine ts) (he : e.Plain) : e.Legible := by
  cases h with
  | atom h => exact .atom (hts _ List.mem_cons_self) h
  | group _ h _ => exact hE _ _ h (allGenuine_append.mp (allGenuine_cons.mp hts).2).1 he
  | cond _ _ _ _ _ _ => exact nomatch he
  | fn _ _ _ _ _ => exact nomatch he
  | array hleft h _ =>
    obtain ⟨ht, hts⟩ := allGenuine_cons.mp hts
    cases he with
    | array hes => exact .array ht hleft (h.legible hE (allGenuine_append.mp hts).1 hes)
  | hash hleft h _ =>
    obtain ⟨ht, hts⟩ := allGenuine_cons.mp hts
    cases he with
    | hash hks hvs =>
      have hentries := h.legible hE (allGenuine_append.mp hts).1 hks hvs
      exact .hash ht hleft (fun entry hentry => (hentries entry hentry).1) fun entry hentry => (hentries entry hentry).2

theorem Applied.legible (h : Applied E ts e) (hts : AllGenuine ts) (he : e.Plain) : e.Legible := by
  induction h with
  | primary h => exact h.legible hE hts he
  | call _ hleft hes _ ih =>
    obtain ⟨hts, hus⟩ := allGenuine_append.mp hts
    obtain ⟨ht, hus⟩ := allGenuine_cons.mp hus
    cases he with
    | call hcallee harguments =>
      exact .call ht hleft (ih hts hcallee) (hes.legible hE (allGenuine_append.mp hus).1 harguments)
  | index _ hleft hi _ ih =>
    obtain ⟨hts, hus⟩ := allGenuine_append.mp hts
    obtain ⟨ht, hus⟩ := allGenuine_cons.mp hus
    cases he with
    | index hcollection hindex =>
      exact .index ht hleft (ih hts hcollection) (hE _ _ hi (allGenuine_append.mp hus).1 hindex)

theorem Unary.legible (h : Unary E ts e) (hts : AllGenuine ts) (he : e.Plain) : e.Legible := by
  induction h with
  | applied h => exact h.legible hE hts he
  | op hk _ ih =>
    obtain ⟨ht, hts⟩ := allGenuine_cons.mp hts
    cases he with
    | unary hright => exact .unary ht hk (ih hts hright)

theorem Level.legible {n : Nat} {ls : List (List Kind)} (h : Level E ls ts e) (hls : ls = levels.drop n)
    (hts : AllGenuine ts) (he : e.Plain) : e.Legible := by
  induction h generalizing n with
  | unary h => exact h.legible hE hts he
  | tighter _ ih => exact ih (Parse.drop_levels_eq_cons hls).2.1 hts he
  | op _ hk _ ihl ihr =>
    obtain ⟨-, hdrop, hops⟩ := Parse.drop_levels_eq_cons hls
    obtain ⟨power, hoperator, -⟩ := (Kind.mem_level_iff hops).mp hk
    obtain ⟨hts, hus⟩ := allGenuine_append.mp hts
    obtain ⟨ht, hus⟩ := allGenuine_cons.mp hus
    cases he with
    | binary hleft hright => exact .binary ht hoperator (ihl hls hts hleft) (ihr hdrop hus hright)

end Categories

theorem Expression.legible {ts : List Token} {e : Expr} (h : Expression ts e) (hts : AllGenuine ts) (he : e.Plain) :
    e.Legible := by
  refine Expression.least (P := Writes) (fun ts e h => ?_) h hts he
  exact fun hts he => Level.legible (n := 0) (fun _ _ h => h) h rfl hts he

end Grammar

/-- Each token inside is one that a text can have, in its place there, and the value is legible. -/
inductive Stmt.Legible : Stmt → Prop
  | bind {word name e} : word.lexeme.Genuine → word.kind = .letWord → name.lexeme.Genuine → name.kind = .identifier →
    e.Legible → Legible (.bind word ⟨name, name.value⟩ (some e))
  | ret {word e} : word.lexeme.Genuine → word.kind = .returnWord → e.Legible → Legible (.ret word (some e))
  | expr {t e} : e.Legible → Legible (.expr t e)

/-- Only a function takes the name that it is bound to. -/
theorem Expr.Plain.labelled_eq {e : Expr} {label : String} (h : (e.labelled label).Plain) : e.labelled label = e := by
  cases e <;> first | rfl | exact nomatch h

namespace Grammar

variable {ts : List Token} {s : Stmt}

theorem Clause.legible (h : Clause Expression ts s) (hts : AllGenuine ts) (hs : s.Parts Expr.Plain) : s.Legible := by
  cases h with
  | @bind word name assign us e hword hname _ h =>
    obtain ⟨hgenuine, hts⟩ := allGenuine_cons.mp hts
    obtain ⟨hgenuine', hts⟩ := allGenuine_cons.mp hts
    have hplain := hs _ rfl
    have heq := hplain.labelled_eq
    rw [heq] at hplain ⊢
    exact .bind hgenuine hword hgenuine' hname (h.legible (allGenuine_cons.mp hts).2 hplain)
  | ret hword h =>
    obtain ⟨hgenuine, hts⟩ := allGenuine_cons.mp hts
    exact .ret hgenuine hword (h.legible hts (hs _ rfl))
  | expr h => exact .expr (h.legible hts hs)

theorem Stmts.legible {ss : List Stmt} (h : Stmts Expression ts ss) (hts : AllGenuine ts)
    (hss : ∀ s ∈ ss, s.Parts Expr.Plain) : ∀ s ∈ ss, s.Legible :=
  fun s hs => h.forall_mem hts (fun _ _ h => h.legible) s hs (hss s hs)

end Grammar

end FrontEnd
