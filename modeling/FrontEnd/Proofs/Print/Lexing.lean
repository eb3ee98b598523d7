import FrontEnd.Parser.Grammar
import FrontEnd.Proofs.Grammar
import FrontEnd.Proofs.Lexer.Piece
import FrontEnd.Tree.Print

/-!
Lexing what is printed of a tree: the lexemes of its tokens come back, in the parentheses that printing adds.
-/

namespace FrontEnd

/-- Neither a conditional nor a function is anywhere inside. -/
inductive Expr.Plain : Expr → Prop
  | ident {id} : Plain (.ident id)
  | int {token value} : Plain (.int token value)
  | str {token value} : Plain (.str token value)
  | bool {token value} : Plain (.bool token value)
  | unary {token operator right} : Plain right → Plain (.unary token operator right)
  | binary {token left operator right} : Plain left → Plain right → Plain (.binary token left operator right)
  | call {token callee arguments} : Plain callee → (∀ e ∈ arguments, Plain e) → Plain (.call token callee arguments)
  | array {token elements} : (∀ e ∈ elements, Plain e) → Plain (.array token elements)
  | index {token collection index} : Plain collection → Plain index → Plain (.index token collection index)
  | hash {token entries} : (∀ entry ∈ entries, Plain entry.key) → (∀ entry ∈ entries, Plain entry.value) →
    Plain (.hash token entries)

mutual

def Expr.isPlain : Expr → Bool
  | .ident _ | .int _ _ | .str _ _ | .bool _ _ => true
  | .unary _ _ right => right.isPlain
  | .binary _ left _ right => left.isPlain && right.isPlain
  | .call _ callee arguments => callee.isPlain && allPlain arguments
  | .array _ elements => allPlain elements
  | .index _ collection index => collection.isPlain && index.isPlain
  | .hash _ entries => allEntriesPlain entries
  | .cond _ _ _ _ | .fn _ _ _ _ => false

def allPlain : List Expr → Bool
  | [] => true
  | e :: es => e.isPlain && allPlain es

def Entry.isPlain : Entry → Bool
  | .mk key value => key.isPlain && value.isPlain

def allEntriesPlain : List Entry → Bool
  | [] => true
  | e :: es => e.isPlain && allEntriesPlain es

end

mutual

theorem Expr.plain_of_isPlain : (e : Expr) → e.isPlain = true → e.Plain
  | .ident _, _ => .ident
  | .int _ _, _ => .int
  | .str _ _, _ => .str
  | .bool _ _, _ => .bool
  | .unary _ _ right, h => .unary (right.plain_of_isPlain h)
  | .binary _ left _ right, h => by
    obtain ⟨hleft, hright⟩ := Bool.and_eq_true_iff.mp h
    exact .binary (left.plain_of_isPlain hleft) (right.plain_of_isPlain hright)
  | .call _ callee arguments, h => by
    obtain ⟨hcallee, harguments⟩ := Bool.and_eq_true_iff.mp h
    exact .call (callee.plain_of_isPlain hcallee) (plain_of_allPlain arguments harguments)
  | .array _ elements, h => .array (plain_of_allPlain elements h)
  | .index _ collection index, h => by
    obtain ⟨hcollection, hindex⟩ := Bool.and_eq_true_iff.mp h
    exact .index (collection.plain_of_isPlain hcollection) (index.plain_of_isPlain hindex)
  | .hash _ entries, h => by
    have hentries := plain_of_allEntriesPlain entries h
    exact .hash (fun entry he => (hentries entry he).1) fun entry he => (hentries entry he).2

theorem plain_of_allPlain : (es : List Expr) → allPlain es = true → ∀ e ∈ es, e.Plain
  | [], _ => List.forall_mem_nil _
  | e :: es, h => by
    obtain ⟨he, hes⟩ := Bool.and_eq_true_iff.mp h
    exact List.forall_mem_cons.mpr ⟨e.plain_of_isPlain he, plain_of_allPlain es hes⟩

theorem plain_of_allEntriesPlain :
    (es : List Entry) → allEntriesPlain es = true → ∀ entry ∈ es, entry.key.Plain ∧ entry.value.Plain
  | [], _ => List.forall_mem_nil _
  | .mk key value :: es, h => by
    obtain ⟨hentry, hes⟩ := Bool.and_eq_true_iff.mp h
    obtain ⟨hkey, hvalue⟩ := Bool.and_eq_true_iff.mp hentry
    exact List.forall_mem_cons.mpr ⟨⟨key.plain_of_isPlain hkey, value.plain_of_isPlain hvalue⟩,
      plain_of_allEntriesPlain es hes⟩

end

theorem allPlain_of_forall {es : List Expr} (h : ∀ e ∈ es, e.isPlain = true) : allPlain es = true := by
  induction es with
  | nil => rfl
  | cons e es ih =>
    obtain ⟨he, hes⟩ := List.forall_mem_cons.mp h
    exact Bool.and_eq_true_iff.mpr ⟨he, ih hes⟩

theorem allEntriesPlain_of_forall {es : List Entry}
    (h : ∀ entry ∈ es, entry.key.isPlain = true ∧ entry.value.isPlain = true) : allEntriesPlain es = true := by
  induction es with
  | nil => rfl
  | cons entry es ih =>
    obtain ⟨he, hes⟩ := List.forall_mem_cons.mp h
    obtain ⟨key, value⟩ := entry
    exact Bool.and_eq_true_iff.mpr ⟨Bool.and_eq_true_iff.mpr he, ih hes⟩

theorem Expr.isPlain_iff (e : Expr) : e.isPlain = true ↔ e.Plain := by
  refine ⟨e.plain_of_isPlain, fun h => ?_⟩
  induction h with
  | ident | int | str | bool => rfl
  | unary _ ih => exact ih
  | binary _ _ ihl ihr => exact Bool.and_eq_true_iff.mpr ⟨ihl, ihr⟩
  | call _ _ ihc ihes => exact Bool.and_eq_true_iff.mpr ⟨ihc, allPlain_of_forall ihes⟩
  | array _ ih => exact allPlain_of_forall ih
  | index _ _ ihc ihi => exact Bool.and_eq_true_iff.mpr ⟨ihc, ihi⟩
  | hash _ _ ihks ihvs => exact allEntriesPlain_of_forall fun entry he => ⟨ihks entry he, ihvs entry he⟩

instance : DecidablePred Expr.Plain :=
  fun e => decidable_of_iff (e.isPlain = true) e.isPlain_iff

/-- Each token inside is one that a text can have, in its place there, and no conditional or function is inside. -/
inductive Expr.Legible : Expr → Prop
  | atom {t e} : t.lexeme.Genuine → Grammar.Atom t e → Legible e
  | unary {t r} : t.lexeme.Genuine → t.kind = .bang ∨ t.kind = .dash → Legible r → Legible (.unary t t.value r)
  | binary {t l r power} : t.lexeme.Genuine → t.kind.operator? = some (power, .binary) → Legible l → Legible r →
    Legible (.binary t l t.value r)
  | call {t c es} : t.lexeme.Genuine → t.kind = .openParen → Legible c → (∀ e ∈ es, Legible e) → Legible (.call t c es)
  | array {t es} : t.lexeme.Genuine → t.kind = .openBracket → (∀ e ∈ es, Legible e) → Legible (.array t es)
  | index {t c i} : t.lexeme.Genuine → t.kind = .openBracket → Legible c → Legible i → Legible (.index t c i)
  | hash {t es} : t.lexeme.Genuine → t.kind = .openCurly → (∀ entry ∈ es, Legible entry.key) →
    (∀ entry ∈ es, Legible entry.value) → Legible (.hash t es)

def commaSeparated : List (List Lexeme) → List Lexeme :=
  List.intercalate [Kind.comma.lexeme]

mutual

/-- The lexemes of what is printed of an expression without conditionals and functions. -/
def Expr.lexemes : Expr → List Lexeme
  | .ident id => [id.token.lexeme]
  | .int token _ | .str token _ | .bool token _ => [token.lexeme]
  | .unary token _ right =>
    Kind.openParen.lexeme :: token.lexeme :: (right.lexemes ++ [Kind.closeParen.lexeme])
  | .binary token left _ right =>
    Kind.openParen.lexeme :: (left.lexemes ++ token.lexeme :: (right.lexemes ++ [Kind.closeParen.lexeme]))
  | .call token callee arguments =>
    callee.lexemes ++ token.lexeme :: (commaSeparated (lexemesOfExprs arguments) ++ [Kind.closeParen.lexeme])
  | .array token elements =>
    token.lexeme :: (commaSeparated (lexemesOfExprs elements) ++ [Kind.closeBracket.lexeme])
  | .index token collection index =>
    Kind.openParen.lexeme :: (collection.lexemes ++ token.lexeme ::
      (index.lexemes ++ [Kind.closeBracket.lexeme, Kind.closeParen.lexeme]))
  | .hash token entries =>
    token.lexeme :: (commaSeparated (lexemesOfEntries entries) ++ [Kind.closeCurly.lexeme])
  | .cond _ _ _ _ | .fn _ _ _ _ => []

def Entry.lexemes : Entry → List Lexeme
  | .mk key value => key.lexemes ++ Kind.colon.lexeme :: value.lexemes

def lexemesOfExprs : List Expr → List (List Lexeme)
  | [] => []
  | e :: es => e.lexemes :: lexemesOfExprs es

def lexemesOfEntries : List Entry → List (List Lexeme)
  | [] => []
  | e :: es => e.lexemes :: lexemesOfEntries es

end

theorem lexemesOfExprs_eq_map (es : List Expr) : lexemesOfExprs es = es.map Expr.lexemes := by
  induction es with
  | nil => rfl
  | cons e es ih => rw [lexemesOfExprs, ih, List.map_cons]

theorem lexemesOfEntries_eq_map (es : List Entry) : lexemesOfEntries es = es.map Entry.lexemes := by
  induction es with
  | nil => rfl
  | cons e es ih => rw [lexemesOfEntries, ih, List.map_cons]

/-- The character would be lexed into the end of what is printed of the expression before it. -/
def Expr.absorbs : Expr → Char → Bool
  | .ident _, c | .bool _ _, c => isWordPart c
  | .int _ _, c => c.isDigit
  | _, _ => false

/-- With this character a lexeme of this kind can begin an expression. -/
def Opens (c : Char) (k : Kind) : Prop :=
  c = '(' ∧ k = .openParen ∨ c = '[' ∧ k = .openBracket ∨ c = '{' ∧ k = .openCurly ∨ c = '"' ∧ k = .string ∨
    c.isDigit = true ∧ k = .number ∨ isWordStart c = true ∧ (k = .identifier ∨ k = .trueWord ∨ k = .falseWord)

variable {c : Char} {k : Kind}

theorem Opens.isBlank_eq_false (h : Opens c k) : isBlank c = false := by
  rcases h with ⟨rfl, -⟩ | ⟨rfl, -⟩ | ⟨rfl, -⟩ | ⟨rfl, -⟩ | ⟨h, -⟩ | ⟨h, -⟩
  · decide
  · decide
  · decide
  · decide
  · exact isBlank_eq_false_of_isDigit h
  · exact isBlank_eq_false_of_isWordStart h

theorem Opens.not_joins (h : Opens c k) (k' : Kind) : ¬k'.Joins c := by
  have hcode : c.toNat ≠ 61 ∧ c.toNat ≠ 47 := by
    rcases h with ⟨rfl, -⟩ | ⟨rfl, -⟩ | ⟨rfl, -⟩ | ⟨rfl, -⟩ | ⟨h, -⟩ | ⟨h, -⟩
    · decide
    · decide
    · decide
    · decide
    · obtain ⟨hlow, hhigh⟩ := code_of_isDigit h
      omega
    · obtain ⟨hlow, hhigh⟩ := code_of_isWordStart h
      omega
  rintro (⟨-, rfl⟩ | ⟨-, rfl⟩)
  · exact hcode.1 rfl
  · exact hcode.2 rfl

/-- A token whose kind has a fixed text has that text. -/
theorem Token.lexeme_eq {t : Token} (h : t.lexeme.Genuine) (hk : t.kind = k)
    (hfixed : k ∈ Kind.symbols ∨ k ∈ Kind.keywords) : t.lexeme = k.lexeme := by
  have hvalue : t.value.toList = k.spelling := by
    unfold Token.lexeme at h
    rw [hk] at h
    cases k <;> first | exact h | simp [Kind.symbols, Kind.keywords] at hfixed
  unfold Token.lexeme Kind.lexeme
  rw [hk, ← hvalue, String.ofList_toList]

theorem Token.toList_value {t : Token} (h : t.lexeme.Genuine) (hk : t.kind = k)
    (hfixed : k ∈ Kind.symbols ∨ k ∈ Kind.keywords) : t.value.toList = k.spelling := by
  have hvalue : t.value = String.ofList k.spelling := congrArg Prod.snd (t.lexeme_eq h hk hfixed)
  rw [hvalue, String.toList_ofList]

theorem Grammar.Atom.exists_opens {t : Token} {e : Expr} (h : Atom t e) (hgenuine : t.lexeme.Genuine) :
    ∃ c cs, e.print.toList = c :: cs ∧ Opens c t.kind := by
  cases h with
  | ident hk =>
    obtain ⟨hword, -⟩ := t.isName hgenuine hk
    cases hvalue : t.value.toList with
    | nil => exact (hvalue ▸ hword : IsWord []).elim
    | cons c cs =>
      have hstart : IsWord (c :: cs) := hvalue ▸ hword
      exact ⟨c, cs, hvalue, .inr (.inr (.inr (.inr (.inr ⟨hstart.1, .inl hk⟩))))⟩
  | int hk _ =>
    obtain ⟨hne, hdigits⟩ := t.isNumeral hgenuine hk
    obtain ⟨c, cs, hvalue⟩ := List.exists_cons_of_ne_nil hne
    have hdigit := hdigits c (hvalue ▸ List.mem_cons_self)
    exact ⟨c, cs, hvalue, .inr (.inr (.inr (.inr (.inl ⟨hdigit, hk⟩))))⟩
  | str hk =>
    exact ⟨'"', _, Literal.toList_print t.value, .inr (.inr (.inr (.inl ⟨rfl, hk⟩)))⟩
  | trueWord hk =>
    have hvalue := t.toList_value hgenuine hk (.inr (by decide))
    exact ⟨'t', _, hvalue, .inr (.inr (.inr (.inr (.inr ⟨by decide, .inr (.inl hk)⟩))))⟩
  | falseWord hk =>
    have hvalue := t.toList_value hgenuine hk (.inr (by decide))
    exact ⟨'f', _, hvalue, .inr (.inr (.inr (.inr (.inr ⟨by decide, .inr (.inr hk)⟩))))⟩

section Text

variable {token : Token} {operator : String} {left right : Expr}

theorem toList_print_unary : (Expr.unary token operator right).print.toList =
    '(' :: (operator.toList ++ (right.print.toList ++ [')'])) := by
  simp [Expr.print]

theorem toList_print_binary : (Expr.binary token left operator right).print.toList =
    '(' :: (left.print.toList ++ ' ' :: (operator.toList ++ ' ' :: (right.print.toList ++ [')']))) := by
  simp [Expr.print]

theorem toList_print_index : (Expr.index token left right).print.toList =
    '(' :: (left.print.toList ++ '[' :: (right.print.toList ++ [']', ')'])) := by
  simp [Expr.print]

theorem toList_print_call {es : List Expr} : (Expr.call token left es).print.toList =
    left.print.toList ++ '(' :: ([',', ' '].intercalate (es.map fun e => e.print.toList) ++ [')']) := by
  simp [Expr.print, printExprs_eq_map]
  rfl

theorem toList_print_array {es : List Expr} : (Expr.array token es).print.toList =
    '[' :: ([',', ' '].intercalate (es.map fun e => e.print.toList) ++ [']']) := by
  simp [Expr.print, printExprs_eq_map]
  rfl

theorem toList_print_hash {es : List Entry} : (Expr.hash token es).print.toList =
    '{' :: ([',', ' '].intercalate (es.map fun e => e.print.toList) ++ ['}']) := by
  simp [Expr.print, printEntries_eq_map]
  rfl

theorem toList_print_entry (entry : Entry) :
    entry.print.toList = entry.key.print.toList ++ ':' :: ' ' :: entry.value.print.toList := by
  cases entry
  simp [Entry.print, Entry.key, Entry.value]

end Text

/-- What is printed of a tree begins with a character and a lexeme that can begin an expression. -/
theorem Expr.Legible.exists_opens {e : Expr} (h : e.Legible) : ∃ c cs k value ls,
    e.print.toList = c :: cs ∧ e.lexemes = (k, value) :: ls ∧ Opens c k := by
  induction h with
  | @atom t e hgenuine h =>
    obtain ⟨c, cs, hprint, hopens⟩ := h.exists_opens hgenuine
    refine ⟨c, cs, t.kind, t.value, [], hprint, ?_, hopens⟩
    cases h <;> rfl
  | unary _ _ _ _ => exact ⟨'(', _, .openParen, _, _, toList_print_unary, rfl, .inl ⟨rfl, rfl⟩⟩
  | binary _ _ _ _ _ _ => exact ⟨'(', _, .openParen, _, _, toList_print_binary, rfl, .inl ⟨rfl, rfl⟩⟩
  | @call t callee es _ _ _ _ ih _ =>
    obtain ⟨c, cs, k, value, ls, hprint, hlexemes, hopens⟩ := ih
    have htext : (Expr.call t callee es).print.toList = _ := toList_print_call
    rw [hprint, List.cons_append] at htext
    have hcall : (Expr.call t callee es).lexemes = (k, value) :: (ls ++
        t.lexeme :: (commaSeparated (lexemesOfExprs es) ++ [Kind.closeParen.lexeme])) := by
      rw [Expr.lexemes, hlexemes, List.cons_append]
    exact ⟨c, _, k, value, _, htext, hcall, hopens⟩
  | @array t es _ hkind _ _ =>
    exact ⟨'[', _, t.kind, t.value, _, toList_print_array, rfl, .inr (.inl ⟨rfl, hkind⟩)⟩
  | index _ _ _ _ _ _ => exact ⟨'(', _, .openParen, _, _, toList_print_index, rfl, .inl ⟨rfl, rfl⟩⟩
  | @hash t es _ hkind _ _ _ _ =>
    exact ⟨'{', _, t.kind, t.value, _, toList_print_hash, rfl, .inr (.inr (.inl ⟨rfl, hkind⟩))⟩

theorem Expr.absorbs_eq_false (e : Expr) (h : isWordPart c = false) : e.absorbs c = false := by
  unfold Expr.absorbs
  split
  · exact h
  · exact h
  · cases hdigit : c.isDigit with
    | false => rfl
    | true => exact absurd (isWordPart_of_isDigit hdigit) (by rw [h]; decide)
  · rfl

variable {cs : List Char} {ls : List Lexeme}

theorem forall_head?_cons {P : Char → Prop} (h : P c) : ∀ d ∈ (c :: cs).head?, P d := by
  intro d hd
  obtain rfl := Option.some.inj hd
  exact h

namespace Lexes

/-- A symbol that no longer one begins with. -/
theorem single {k : Kind} (hk : k ∈ Kind.symbols) (hsingle : k ≠ .assign ∧ k ≠ .bang ∧ k ≠ .slash)
    (h : Lexes cs ls) : Lexes (k.spelling ++ cs) (k.lexeme :: ls) := by
  refine h.symbol hk ?_
  rintro c - (⟨h | h, -⟩ | ⟨h, -⟩)
  · exact hsingle.1 h
  · exact hsingle.2.1 h
  · exact hsingle.2.2 h

theorem operator {t : Token} (hgenuine : t.lexeme.Genuine) (hk : t.kind ∈ Kind.symbols) (h : Lexes cs ls)
    (hnext : ∀ c ∈ cs.head?, ¬t.kind.Joins c) : Lexes (t.value.toList ++ cs) (t.lexeme :: ls) := by
  rw [t.toList_value hgenuine rfl (.inl hk), t.lexeme_eq hgenuine rfl (.inl hk)]
  exact h.symbol hk hnext

theorem keyword {t : Token} (hgenuine : t.lexeme.Genuine) (hk : t.kind ∈ Kind.keywords) (h : Lexes cs ls)
    (hnext : ∀ c ∈ cs.head?, isWordPart c = false) : Lexes (t.value.toList ++ cs) (t.lexeme :: ls) := by
  have hword : ∀ k ∈ Kind.keywords, IsWord k.spelling ∧
      ((Kind.keyword? k.spelling).getD .identifier, String.ofList k.spelling) = k.lexeme := by
    intro k hk
    cases k <;> first | exact absurd hk (by decide) | exact ⟨⟨by decide, List.all_eq_true.mp (by decide)⟩, rfl⟩
  rw [t.toList_value hgenuine rfl (.inr hk), t.lexeme_eq hgenuine rfl (.inr hk), ← (hword t.kind hk).2]
  exact h.word (hword t.kind hk).1 hnext

end Lexes

theorem Grammar.Atom.lexes {t : Token} {e : Expr} (h : Atom t e) (hgenuine : t.lexeme.Genuine) (hrest : Lexes cs ls)
    (hnext : ∀ c ∈ cs.head?, e.absorbs c = false) : Lexes (e.print.toList ++ cs) (t.lexeme :: ls) := by
  cases h with
  | ident hk =>
    obtain ⟨hword, hname⟩ := t.isName hgenuine hk
    have hlexes := hrest.word hword hnext
    rw [hname, String.ofList_toList] at hlexes
    unfold Token.lexeme
    rw [hk]
    exact hlexes
  | int hk _ =>
    obtain ⟨hne, hdigits⟩ := t.isNumeral hgenuine hk
    have hlexes := hrest.number hne hdigits hnext
    rw [String.ofList_toList] at hlexes
    unfold Token.lexeme
    rw [hk]
    exact hlexes
  | str hk =>
    unfold Token.lexeme
    rw [hk]
    exact hrest.string t.value
  | trueWord hk => exact hrest.keyword hgenuine (by rw [hk]; decide) hnext
  | falseWord hk => exact hrest.keyword hgenuine (by rw [hk]; decide) hnext

/-- Pieces with a comma between every two. -/
theorem Lexes.separated {α : Type} {text : α → List Char} {lexemes : α → List Lexeme} {as : List α}
    (hpiece : ∀ a ∈ as, ∀ cs ls, Lexes cs ls → (∀ c ∈ cs.head?, isWordPart c = false) →
      Lexes (text a ++ cs) (lexemes a ++ ls))
    (hhead : ∀ a ∈ as, ∃ c cs, text a = c :: cs ∧ isBlank c = false)
    (h : Lexes cs ls) (hnext : ∀ c ∈ cs.head?, isWordPart c = false) :
    Lexes ([',', ' '].intercalate (as.map text) ++ cs) (commaSeparated (as.map lexemes) ++ ls) := by
  induction as with
  | nil => exact h
  | cons a as ih =>
    obtain ⟨ha, has⟩ := List.forall_mem_cons.mp hpiece
    have ih := ih has fun b hb => hhead b (List.mem_cons_of_mem a hb)
    cases as with
    | nil =>
      rw [List.map_singleton, List.map_singleton, commaSeparated, List.intercalate_singleton,
        List.intercalate_singleton]
      exact ha cs ls h hnext
    | cons b bs =>
      obtain ⟨c, ds, hb, hc⟩ := hhead b (List.mem_cons_of_mem a List.mem_cons_self)
      have hblank := ih.blank (by
        cases bs <;> simp [hb, hc])
      have hcomma := hblank.symbol (k := .comma) (by decide) (by
        intro d _
        rintro (⟨hk | hk, -⟩ | ⟨hk, -⟩) <;> exact nomatch hk)
      have hall := ha _ _ hcomma (by
        intro d hd
        obtain rfl := Option.some.inj hd
        decide)
      simpa [commaSeparated, Kind.spelling, List.append_assoc] using hall

theorem Expr.Legible.exists_head {e : Expr} (h : e.Legible) (cs : List Char) :
    ∃ c ds k, e.print.toList ++ cs = c :: ds ∧ Opens c k := by
  obtain ⟨c, ds, k, -, -, hprint, -, hopens⟩ := h.exists_opens
  exact ⟨c, ds ++ cs, k, by rw [hprint, List.cons_append], hopens⟩

theorem Expr.Legible.exists_blank {e : Expr} (h : e.Legible) : ∃ c cs, e.print.toList = c :: cs ∧ isBlank c = false := by
  obtain ⟨c, cs, k, hhead, hopens⟩ := h.exists_head []
  exact ⟨c, cs, by rwa [List.append_nil] at hhead, hopens.isBlank_eq_false⟩

/-- An operator or the word before it ends where the expression begins. -/
theorem Expr.Legible.not_joins {e : Expr} (h : e.Legible) (k : Kind) :
    ∀ c ∈ (e.print.toList ++ cs).head?, ¬k.Joins c := by
  obtain ⟨c, ds, k', hhead, hopens⟩ := h.exists_head cs
  rw [hhead]
  exact forall_head?_cons (hopens.not_joins k)

theorem Expr.Legible.isBlank_eq_false {e : Expr} (h : e.Legible) :
    ∀ c ∈ (e.print.toList ++ cs).head?, isBlank c = false := by
  obtain ⟨c, ds, k', hhead, hopens⟩ := h.exists_head cs
  rw [hhead]
  exact forall_head?_cons hopens.isBlank_eq_false

theorem Kind.mem_symbols_of_operator? {power : BindingPower} {form : OperatorForm}
    (h : k.operator? = some (power, form)) : k ∈ Kind.symbols := by
  cases k <;> first | decide | exact nomatch h

/-- What is printed of an expression is lexed into its lexemes, whatever comes behind it. -/
theorem Expr.Legible.lexes {e : Expr} (h : e.Legible) {cs : List Char} {ls : List Lexeme} (hrest : Lexes cs ls)
    (hnext : ∀ c ∈ cs.head?, e.absorbs c = false) : Lexes (e.print.toList ++ cs) (e.lexemes ++ ls) := by
  have hclose : ∀ {c : Char} (cs : List Char), isWordPart c = false →
      ∀ (e : Expr), ∀ d ∈ (c :: cs).head?, e.absorbs d = false :=
    fun cs hc e => forall_head?_cons (e.absorbs_eq_false hc)
  induction h generalizing cs ls with
  | @atom t e hgenuine h =>
    have hlexes := h.lexes hgenuine hrest hnext
    cases h <;> exact hlexes
  | @unary t r hgenuine hkind hr ih =>
    have hsymbol : t.kind ∈ Kind.symbols := by
      rcases hkind with hk | hk <;> rw [hk] <;> decide
    have hright := ih (hrest.single (k := .closeParen) (by decide) (by decide)) (hclose cs rfl r)
    have hall := (hright.operator hgenuine hsymbol (hr.not_joins _)).single (k := .openParen) (by decide) (by decide)
    simpa [Kind.spelling, toList_print_unary, Expr.lexemes] using hall
  | @binary t l r power hgenuine hkind hl hr ihl ihr =>
    have hright := ihr (hrest.single (k := .closeParen) (by decide) (by decide)) (hclose cs rfl r)
    have hblank : ∀ c ∈ (' ' :: (r.print.toList ++ ')' :: cs)).head?, ¬t.kind.Joins c :=
      forall_head?_cons (by rintro (⟨-, h⟩ | ⟨-, h⟩) <;> exact absurd h (by decide))
    have hsymbol := Kind.mem_symbols_of_operator? hkind
    have hoperator := (hright.blank hr.isBlank_eq_false).operator hgenuine hsymbol hblank
    have hfirst : ∀ cs, ∀ c ∈ (t.value.toList ++ cs).head?, isBlank c = false := by
      intro cs
      rw [t.toList_value hgenuine rfl (.inl hsymbol)]
      revert hkind
      cases t.kind <;> first | exact fun _ => forall_head?_cons rfl | exact fun h => absurd h (Option.some_ne_none _).symm
    have hleft := ihl (hoperator.blank (hfirst _)) (hclose _ rfl l)
    simpa [Kind.spelling, toList_print_binary, Expr.lexemes] using
      hleft.single (k := .openParen) (by decide) (by decide)
  | @call t c es hgenuine hkind hc hes ihc ihes =>
    have helements := (hrest.single (k := .closeParen) (by decide) (by decide)).separated
      (fun e he cs ls h hcs => ihes e he h fun c hc => e.absorbs_eq_false (hcs c hc))
      (fun e he => (hes e he).exists_blank) (forall_head?_cons rfl)
    have hcallee := ihc (helements.single (k := .openParen) (by decide) (by decide)) (hclose _ rfl c)
    have htoken := t.lexeme_eq hgenuine hkind (.inl (by decide))
    simpa [Kind.spelling, toList_print_call, Expr.lexemes, lexemesOfExprs_eq_map, htoken] using hcallee
  | @array t es hgenuine hkind hes ih =>
    have helements := (hrest.single (k := .closeBracket) (by decide) (by decide)).separated
      (fun e he cs ls h hcs => ih e he h fun c hc => e.absorbs_eq_false (hcs c hc))
      (fun e he => (hes e he).exists_blank) (forall_head?_cons rfl)
    have htoken := t.lexeme_eq hgenuine hkind (.inl (by decide))
    simpa [Kind.spelling, toList_print_array, Expr.lexemes, lexemesOfExprs_eq_map, htoken] using
      helements.single (k := .openBracket) (by decide) (by decide)
  | @index t c i hgenuine hkind hc hi ihc ihi =>
    have hparen := hrest.single (k := .closeParen) (by decide) (by decide)
    have hindex := ihi (hparen.single (k := .closeBracket) (by decide) (by decide)) (hclose _ rfl i)
    have hcollection := ihc (hindex.single (k := .openBracket) (by decide) (by decide)) (hclose _ rfl c)
    have htoken := t.lexeme_eq hgenuine hkind (.inl (by decide))
    simpa [Kind.spelling, toList_print_index, Expr.lexemes, htoken] using
      hcollection.single (k := .openParen) (by decide) (by decide)
  | @hash t es hgenuine hkind hks hvs ihks ihvs =>
    have hentry : ∀ entry ∈ es, ∀ cs ls, Lexes cs ls → (∀ c ∈ cs.head?, isWordPart c = false) →
        Lexes (entry.print.toList ++ cs) (entry.lexemes ++ ls) := by
      intro entry hentry cs ls h hcs
      have hvalue := ihvs entry hentry h fun c hc => entry.value.absorbs_eq_false (hcs c hc)
      have hcolon := (hvalue.blank (hvs entry hentry).isBlank_eq_false).single (k := .colon) (by decide) (by decide)
      have hkey := ihks entry hentry hcolon (hclose _ rfl _)
      cases entry
      simpa [Kind.spelling, toList_print_entry, Entry.lexemes, Entry.key, Entry.value] using hkey
    have hhead : ∀ entry ∈ es, ∃ c cs, entry.print.toList = c :: cs ∧ isBlank c = false := by
      intro entry hentry
      obtain ⟨c, cs, hkey, hc⟩ := (hks entry hentry).exists_blank
      exact ⟨c, _, by rw [toList_print_entry, hkey, List.cons_append], hc⟩
    have hclosed := hrest.single (k := .closeCurly) (by decide) (by decide)
    have hentries := hclosed.separated hentry hhead (forall_head?_cons rfl)
    have htoken := t.lexeme_eq hgenuine hkind (.inl (by decide))
    simpa [Kind.spelling, toList_print_hash, Expr.lexemes, lexemesOfEntries_eq_map, htoken] using
      hentries.single (k := .openCurly) (by decide) (by decide)

end FrontEnd
