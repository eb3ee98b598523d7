import Mathlib.Data.List.Pairwise
import FrontEnd.Proofs.Lexer.Pattern

/-!
Maximal munch: the first rule that takes anything from a text takes more of it than any other, so that the order of the
rules does not show in the tokens.
-/

namespace FrontEnd

namespace Rule

variable {cs text text' : List Char} {c : Char} {rule other : Rule}

/-- All texts that a rule is for. -/
def vocabulary : Language Char :=
  {text | ∃ rule ∈ all, text ∈ rule.language}

/-- The rule for texts that begin with this character, unless a mark does. -/
def ofHead? (c : Char) : Option Rule :=
  if isWordStart c then some word
  else if c.isDigit then some number
  else if isBlank c then some blank
  else if c = '"' then some string
  else none

/-- The rule, unless it is for a mark. -/
def family : Rule → Option Rule
  | comment | symbol _ => none
  | rule => some rule

/-- The characters that all texts of the rule begin with. -/
def mark : Rule → List Char
  | comment => ['/', '/']
  | symbol kind => kind.spelling
  | word | number | blank | string => []

/-- The texts of the first rule begin with other characters than those of the second, or are longer. -/
def Ahead (rule other : Rule) : Prop :=
  rule.family ≠ other.family ∨ ¬rule.mark <+: other.mark ∧ other ≠ comment

instance (rule other : Rule) : Decidable (Ahead rule other) :=
  inferInstanceAs (Decidable (_ ∨ _))

/-- Where the texts of one rule begin as those of another, the longer ones are tried first. -/
theorem pairwise_ahead : all.Pairwise Ahead := by
  decide +kernel

theorem ahead_or_ahead (hrule : rule ∈ all) (hother : other ∈ all) (hne : rule ≠ other) :
    Ahead rule other ∨ Ahead other rule := by
  have hpairwise : all.Pairwise fun rule other => Ahead rule other ∨ Ahead other rule := pairwise_ahead.imp .inl
  have : Std.Symm fun rule other => Ahead rule other ∨ Ahead other rule := ⟨fun _ _ => Or.symm⟩
  exact hpairwise.forall hrule hother hne

theorem ne_nil_of_mem_language (hrule : rule ∈ all) (h : text ∈ rule.language) : text ≠ [] := by
  rintro rfl
  rcases matches_of_mem hrule [] with ⟨-, hnone⟩ | ⟨text, hlength, hlongest⟩
  · exact hnone [] (List.prefix_refl []) h
  · have hpos := length?_pos hlength
    rw [List.prefix_nil.mp hlongest.isPrefix] at hpos
    exact Nat.lt_irrefl 0 hpos

theorem mark_isPrefix (h : text ∈ rule.language) : rule.mark <+: text := by
  cases rule with
  | word | number | blank | string => exact List.nil_prefix
  | comment =>
    obtain ⟨body, rfl, -⟩ := mem_language_comment.mp h
    exact List.prefix_append _ _
  | symbol kind => exact h ▸ List.prefix_refl _

/-- The first character of a text says which rule it may follow. -/
theorem ofHead?_eq (hrule : rule ∈ all) (h : c :: text ∈ rule.language) : ofHead? c = rule.family := by
  cases rule with
  | word =>
    obtain ⟨_, _, heq, hc, -⟩ := mem_run.mp h
    obtain ⟨rfl, rfl⟩ := List.cons.inj heq
    simp [ofHead?, family, hc]
  | number =>
    obtain ⟨_, _, heq, hc, -⟩ := mem_run.mp h
    obtain ⟨rfl, rfl⟩ := List.cons.inj heq
    simp [ofHead?, family, isWordStart_eq_false_of_isDigit hc, hc]
  | blank =>
    obtain ⟨_, _, heq, hc, -⟩ := mem_run.mp h
    obtain ⟨rfl, rfl⟩ := List.cons.inj heq
    simp [ofHead?, family, isWordStart_eq_false_of_isBlank hc, isDigit_eq_false_of_isBlank hc, hc]
  | string =>
    obtain ⟨body, -, heq | heq⟩ := Literal.mem_pattern.mp h
    · obtain ⟨rfl, -⟩ := List.cons.inj heq
      rfl
    · obtain ⟨rfl, -⟩ := List.cons.inj heq
      rfl
  | comment =>
    obtain ⟨body, heq, -⟩ := mem_language_comment.mp h
    obtain ⟨rfl, -⟩ := List.cons.inj heq
    rfl
  | symbol kind =>
    have hkind : kind ∈ Kind.symbols := by simpa [all] using hrule
    have hheads : ∀ k ∈ Kind.symbols, k.spelling.head?.bind ofHead? = none := by decide
    have hspelling : kind.spelling = c :: text := Eq.symm h
    have hhead := hheads kind hkind
    rwa [hspelling] at hhead

/-- At the head of one text, a text of the rule that is tried first is longer than one of the other. -/
theorem length_lt_of_ahead (hrule : rule ∈ all) (hother : other ∈ all) (hahead : rule.Ahead other)
    (htext : text ∈ rule.language) (htext' : text' ∈ other.language) (hpre : text <+: cs) (hpre' : text' <+: cs) :
    text'.length < text.length := by
  obtain ⟨c, ds, rfl⟩ := List.exists_cons_of_ne_nil (ne_nil_of_mem_language hrule htext)
  obtain ⟨c', ds', rfl⟩ := List.exists_cons_of_ne_nil (ne_nil_of_mem_language hother htext')
  have hhead : c = c' := by
    obtain ⟨_, rfl⟩ := hpre
    obtain ⟨_, heq⟩ := hpre'
    exact (List.cons.inj heq).1.symm
  subst hhead
  -- the first character is in both texts, so that only rules for marks are left to compare
  have hfamily : rule.family = other.family := (ofHead?_eq hrule htext).symm.trans (ofHead?_eq hother htext')
  rcases hahead with hne | ⟨hmark, hcomment⟩
  · exact absurd hfamily hne
  · have hmarks :=
      List.prefix_or_prefix_of_prefix ((mark_isPrefix htext).trans hpre) ((mark_isPrefix htext').trans hpre')
    have hshorter := hmarks.resolve_left hmark
    have hlt : other.mark.length < rule.mark.length := by
      refine lt_of_le_of_ne hshorter.length_le fun heq => hmark ?_
      exact hshorter.eq_of_length heq ▸ List.prefix_refl _
    cases other with
    | comment => exact absurd rfl hcomment
    | symbol kind =>
      have hspelling : c :: ds' = kind.spelling := htext'
      rw [hspelling]
      exact lt_of_lt_of_le hlt (mark_isPrefix htext).length_le
    | word | number | blank | string =>
      cases rule <;> simp_all [family, mark]

/-- The rules for two texts at the head of one are the same where the texts are. -/
theorem eq_of_mem_language (hrule : rule ∈ all) (hother : other ∈ all) (h : text ∈ rule.language)
    (h' : text ∈ other.language) : rule = other := by
  by_contra hne
  rcases ahead_or_ahead hrule hother hne with hahead | hahead
  · exact Nat.lt_irrefl _ (length_lt_of_ahead hrule hother hahead h h' (List.prefix_refl _) (List.prefix_refl _))
  · exact Nat.lt_irrefl _ (length_lt_of_ahead hother hrule hahead h' h (List.prefix_refl _) (List.prefix_refl _))

/-- The first rule that takes anything from a text takes the longest text that any rule is for. -/
theorem first?_cases (cs : List Char) :
    (first? cs = none ∧ ∀ text, text <+: cs → text ∉ vocabulary) ∨
      ∃ rule ∈ all, ∃ text, first? cs = some (rule, text.length) ∧ text ∈ rule.language ∧ Longest vocabulary cs text := by
  have hskipped : ∀ {rule : Rule}, rule ∈ all → rule.length? cs = none →
      ∀ {text}, text <+: cs → text ∉ rule.language := by
    intro rule hrule hnone text hpre
    rcases matches_of_mem hrule cs with ⟨-, hfree⟩ | ⟨_, hsome, -⟩
    · exact hfree text hpre
    · exact nomatch hnone.symm.trans hsome
  cases hfirst : first? cs with
  | none =>
    refine .inl ⟨rfl, ?_⟩
    rintro text hpre ⟨rule, hrule, hmem⟩
    have hnone := List.findSome?_eq_none_iff.mp hfirst rule hrule
    exact hskipped hrule (Option.map_eq_none_iff.mp hnone) hpre hmem
  | some found =>
    obtain ⟨before, rule, behind, hall, hfound, hbefore⟩ := List.findSome?_eq_some_iff.mp hfirst
    obtain ⟨n, hlength, rfl⟩ := Option.map_eq_some_iff.mp hfound
    have hrule : rule ∈ all := hall ▸ List.mem_append_right before List.mem_cons_self
    have hahead : ∀ other ∈ behind, rule.Ahead other := by
      have hpairwise := pairwise_ahead
      rw [hall] at hpairwise
      exact (List.pairwise_cons.mp (List.pairwise_append.mp hpairwise).2.1).1
    rcases matches_of_mem hrule cs with ⟨hnone, -⟩ | ⟨text, hsome, hlongest⟩
    · exact nomatch hnone.symm.trans hlength
    · obtain rfl : text.length = n := Option.some.inj (hsome.symm.trans hlength)
      refine .inr ⟨rule, hrule, text, rfl, hlongest.mem, hlongest.isPrefix, ⟨rule, hrule, hlongest.mem⟩, ?_⟩
      rintro text' hpre' ⟨other, hother, hmem'⟩
      have hplace := hother
      rw [hall, List.mem_append, List.mem_cons] at hplace
      -- a rule that is tried before takes nothing, and those behind take less
      rcases hplace with hplace | rfl | hplace
      · exact absurd hmem' (hskipped hother (Option.map_eq_none_iff.mp (hbefore other hplace)) hpre')
      · exact hlongest.length_le text' hpre' hmem'
      · exact (length_lt_of_ahead hrule hother (hahead other hplace) hlongest.mem hmem' hlongest.isPrefix hpre').le

/-- The longest text that any rule is for is what the first rule takes. -/
theorem first?_of_longest (hrule : rule ∈ all) (hmem : text ∈ rule.language) (hlongest : Longest vocabulary cs text) :
    first? cs = some (rule, text.length) := by
  rcases first?_cases cs with ⟨-, hnone⟩ | ⟨other, hother, text', hfirst, hmem', hlongest'⟩
  · exact absurd hlongest.mem (hnone text hlongest.isPrefix)
  · have hlength : text.length = text'.length :=
      le_antisymm (hlongest'.length_le text hlongest.isPrefix hlongest.mem)
        (hlongest.length_le text' hlongest'.isPrefix hlongest'.mem)
    obtain rfl : text = text' := by
      rw [List.prefix_iff_eq_take.mp hlongest.isPrefix, List.prefix_iff_eq_take.mp hlongest'.isPrefix, hlength]
    rw [hfirst, eq_of_mem_language hrule hother hmem hmem']

theorem first?_eq_none (h : ∀ text, text <+: cs → text ∉ vocabulary) : first? cs = none := by
  rcases first?_cases cs with ⟨hnone, -⟩ | ⟨-, -, text, -, -, hlongest⟩
  · exact hnone
  · exact absurd hlongest.mem (h text hlongest.isPrefix)

theorem first?_eq_none_of_forall (h : ∀ rule ∈ all, rule.length? cs = none) : first? cs = none := by
  apply List.findSome?_eq_none_iff.mpr
  intro rule hrule
  rw [h rule hrule, Option.map_none]

theorem le_of_first? {n m : Nat} (h : first? cs = some (rule, n)) (hother : other ∈ all)
    (hlength : other.length? cs = some m) : m ≤ n := by
  rcases first?_cases cs with ⟨hnone, -⟩ | ⟨rule', -, text, hfirst, -, hlongest⟩
  · exact nomatch hnone.symm.trans h
  · obtain ⟨rfl, rfl⟩ := Prod.mk.inj (Option.some.inj (hfirst.symm.trans h))
    rcases matches_of_mem hother cs with ⟨hnone, -⟩ | ⟨text', hsome, hlongest'⟩
    · exact nomatch hnone.symm.trans hlength
    · obtain rfl := Option.some.inj (hsome.symm.trans hlength)
      exact hlongest.length_le text' hlongest'.isPrefix ⟨other, hother, hlongest'.mem⟩

theorem kind_of_word (w : List Char) :
    (∀ k ∈ Kind.keywords, (Kind.keyword? w).getD .identifier = k ↔ w = k.spelling) ∧
      ((Kind.keyword? w).getD .identifier = .identifier ↔ ∀ k ∈ Kind.keywords, w ≠ k.spelling) := by
  have hspelling : ∀ k ∈ Kind.keywords, Kind.keyword? k.spelling = some k := by decide
  have hidentifier : Kind.identifier ∉ Kind.keywords := by decide
  cases hword : Kind.keyword? w with
  | none =>
    have hfree : ∀ k ∈ Kind.keywords, w ≠ k.spelling := by
      rintro k hk rfl
      exact nomatch hword.symm.trans (hspelling k hk)
    refine ⟨fun k hk => iff_of_false ?_ (hfree k hk), iff_of_true rfl hfree⟩
    rintro rfl
    exact hidentifier hk
  | some k =>
    obtain ⟨hk, rfl⟩ := keyword?_of_some hword
    refine ⟨fun k' hk' => ⟨?_, fun heq => ?_⟩, iff_of_false ?_ fun hfree => hfree k hk rfl⟩
    · rintro rfl
      rfl
    · rw [heq, hspelling k' hk'] at hword
      exact (Option.some.inj hword).symm
    · rintro rfl
      exact hidentifier hk

/-- Nothing behind the longest text could go on with it. -/
theorem longest_run_ends {p q : Char → Bool} (hrule : rule ∈ all) (hlanguage : rule.language = run p q)
    (hmem : text ∈ rule.language) (hlongest : Longest vocabulary cs text) :
    ∀ c ∈ (cs.drop text.length).head?, q c = false := by
  intro c hc
  obtain ⟨rest, rfl⟩ := hlongest.isPrefix
  rw [List.drop_left] at hc
  obtain ⟨rest, rfl⟩ : ∃ ds, rest = c :: ds := List.head?_eq_some_iff.mp hc
  by_contra hgoes
  rw [hlanguage] at hmem
  obtain ⟨d, ds, rfl, hd, hds⟩ := mem_run.mp hmem
  have hlonger : (d :: ds) ++ [c] ∈ vocabulary := by
    refine ⟨rule, hrule, hlanguage ▸ mem_run.mpr ⟨d, ds ++ [c], rfl, hd, ?_⟩⟩
    rw [List.forall_mem_append]
    exact ⟨hds, by simpa using hgoes⟩
  have hle := hlongest.length_le _ ⟨rest, by simp⟩ hlonger
  simp only [List.length_append, List.length_singleton] at hle
  omega

/-- The rule that makes tokens of this kind. -/
def ofKind (k : Kind) : Rule :=
  if k ∈ Kind.symbols then symbol k else if k = .number then number else if k = .string then string else word

theorem eq_ofKind {kind : Kind} {value : String} (hrule : rule ∈ all)
    (ht : rule.token? text = some (kind, value)) : rule = ofKind kind := by
  cases rule with
  | blank | comment => exact absurd ht.symm (Option.some_ne_none _)
  | number | string =>
    obtain ⟨rfl, -⟩ := Prod.mk.inj (Option.some.inj ht)
    rfl
  | word =>
    obtain ⟨rfl, -⟩ := Prod.mk.inj (Option.some.inj ht)
    have hkeywords : ∀ k ∈ Kind.keywords, word = ofKind k := by decide
    cases hword : Kind.keyword? text with
    | none => rfl
    | some k => exact hkeywords k (keyword?_of_some hword).1
  | symbol k =>
    obtain ⟨rfl, -⟩ := Prod.mk.inj (Option.some.inj ht)
    have hk : k ∈ Kind.symbols := by simpa [all] using hrule
    rw [ofKind, if_pos hk]

end Rule

namespace Lexer

/-- The next token of a scanner that takes the longest text that any rule is for, and the lexer behind it. -/
inductive Munches : Lexer → Token → Lexer → Prop
  | eof {l} : l.rest = [] → Munches l (Token.eof l.position) l
  | token {l rule text kind value} : rule ∈ Rule.all → text ∈ rule.language → Longest Rule.vocabulary l.rest text →
    rule.token? text = some (kind, value) → Munches l ⟨kind, value, l.spanOf (byteLength text)⟩ (l.drop text.length)
  | skip {l l' t rule text} : rule ∈ Rule.all → text ∈ rule.language → Longest Rule.vocabulary l.rest text →
    rule.token? text = none → Munches (l.drop text.length) t l' → Munches l t l'
  | illegal {l c cs} : l.rest = c :: cs → (∀ text, text <+: l.rest → text ∉ Rule.vocabulary) →
    Munches l ⟨.illegal, String.singleton c, l.spanOf c.utf8Size⟩ (l.drop 1)

/-- A text token by token up to the end token, each the next one of that scanner. -/
inductive Munched : Lexer → List Token → Prop
  | last {l t l'} : Munches l t l' → t.kind = .eof → Munched l [t]
  | more {l t l' ts} : Munches l t l' → t.kind ≠ .eof → Munched l' ts → Munched l (t :: ts)

variable {l l' : Lexer} {t : Token} {c : Char} {cs text : List Char}

theorem Munches.next_eq (h : Munches l t l') : l.next = (t, l') := by
  induction h with
  | eof hl => exact next_of_rest_eq_nil hl
  | token hrule hmem hlongest ht =>
    obtain ⟨_, hl⟩ := hlongest.isPrefix
    exact next_of_token hl.symm (Rule.first?_of_longest hrule hmem hlongest) ht
  | skip hrule hmem hlongest ht _ ih =>
    obtain ⟨_, hl⟩ := hlongest.isPrefix
    rw [next_of_skip hl.symm (Rule.first?_of_longest hrule hmem hlongest) ht, ih]
  | illegal hl hfree => exact next_of_illegal hl (Rule.first?_eq_none hfree)

theorem munches_next (l : Lexer) : Munches l l.next.1 l.next.2 := by
  induction hleft : l.left using Nat.strongRecOn generalizing l with
  | ind n ih =>
    rcases hl : l.rest with _ | ⟨c, cs⟩
    · rw [next_of_rest_eq_nil hl]
      exact .eof hl
    · rcases Rule.first?_cases l.rest with ⟨hnone, hfree⟩ | ⟨rule, hrule, text, hfirst, hmem, hlongest⟩
      · rw [next_of_illegal hl hnone]
        exact .illegal hl hfree
      · obtain ⟨rest, htext⟩ := hlongest.isPrefix
        rcases ht : rule.token? text with _ | ⟨kind, value⟩
        · have hlt : (l.drop text.length).left < n :=
            hleft ▸ left_drop_lt (Rule.first?_pos hfirst) (hl ▸ List.cons_ne_nil c cs)
          rw [next_of_skip htext.symm hfirst ht]
          exact .skip hrule hmem hlongest ht (ih _ hlt _ rfl)
        · rw [next_of_token htext.symm hfirst ht]
          exact .token hrule hmem hlongest ht

theorem munches_iff (l : Lexer) (t : Token) (l' : Lexer) : Munches l t l' ↔ l.next = (t, l') := by
  refine ⟨Munches.next_eq, fun h => ?_⟩
  have hnext := l.munches_next
  rwa [h] at hnext

theorem tokens_munched (l : Lexer) : Munched l l.tokens := by
  induction hleft : l.left using Nat.strongRecOn generalizing l with
  | ind n ih =>
    by_cases hkind : l.next.1.kind = .eof
    · rw [tokens_of_eof hkind]
      exact .last l.munches_next hkind
    · rw [tokens_of_ne_eof hkind]
      exact .more l.munches_next hkind (ih _ (hleft ▸ l.left_next_lt hkind) _ rfl)

/-- A token of a rule for runs ends where its run does. -/
theorem Munches.run_ends {p q : Char → Bool} (h : Munches l t l') (hlanguage : (Rule.ofKind t.kind).language = run p q)
    (heof : t.kind ≠ .eof) (hillegal : t.kind ≠ .illegal) : ∀ c ∈ l'.rest.head?, q c = false := by
  induction h with
  | eof => exact absurd rfl heof
  | illegal => exact absurd rfl hillegal
  | skip _ _ _ _ _ ih => exact ih hlanguage heof hillegal
  | token hrule hmem hlongest ht =>
    obtain rfl := Rule.eq_ofKind hrule ht
    exact Rule.longest_run_ends hrule hlanguage hmem hlongest

theorem Munches.word_ends (h : Munches l t l') (hkind : t.kind = .identifier ∨ t.kind ∈ Kind.keywords) :
    ∀ c ∈ l'.rest.head?, isWordPart c = false := by
  have hwords : ∀ k ∈ Kind.identifier :: Kind.keywords, Rule.ofKind k = .word ∧ k ≠ .eof ∧ k ≠ .illegal := by decide
  obtain ⟨hrule, heof, hillegal⟩ := hwords t.kind (List.mem_cons.mpr hkind)
  have hlanguage : (Rule.ofKind t.kind).language = run isWordStart isWordPart := by rw [hrule, Rule.language]
  exact h.run_ends hlanguage heof hillegal

theorem Munches.number_ends (h : Munches l t l') (hkind : t.kind = .number) :
    ∀ c ∈ l'.rest.head?, c.isDigit = false := by
  have hlanguage : (Rule.ofKind t.kind).language = run Char.isDigit Char.isDigit := by
    rw [hkind]
    rfl
  exact h.run_ends hlanguage (by simp [hkind]) (by simp [hkind])

theorem next_comment (hl : l.rest = '/' :: '/' :: cs) :
    l.next = (l.drop (2 + (cs.takeWhile (· ≠ '\n')).length)).next := by
  have hfirst : Rule.first? l.rest = some (.comment, 2 + (cs.takeWhile (· ≠ '\n')).length) := by
    rw [hl]
    rfl
  exact next_of_first? hfirst

/-- What a scanner of longest matches does here, rule by rule. -/
structure ScansLongest (l : Lexer) : Prop where
  /-- No rule takes more than the first that takes anything. -/
  first : ∀ rule n, Rule.first? l.rest = some (rule, n) →
    ∀ other ∈ Rule.all, ∀ m, other.length? l.rest = some m → m ≤ n
  munches : ∀ t l', l.next = (t, l') ↔ Munches l t l'
  /-- A word is taken whole, and is reserved if all of it is. -/
  word : ∀ w cs, l.rest = w ++ cs → IsWord w → (∀ c ∈ cs.head?, isWordPart c = false) →
    ∃ kind, l.next = (⟨kind, String.ofList w, l.spanOf (byteLength w)⟩, l.drop w.length) ∧
      (∀ k ∈ Kind.keywords, kind = k ↔ w = k.spelling) ∧ (kind = .identifier ↔ ∀ k ∈ Kind.keywords, w ≠ k.spelling)
  number : ∀ w cs, l.rest = w ++ cs → w ≠ [] → (∀ c ∈ w, c.isDigit = true) → (∀ c ∈ cs.head?, c.isDigit = false) →
    l.next = (⟨.number, String.ofList w, l.spanOf (byteLength w)⟩, l.drop w.length)
  word_ends : l.next.1.kind = .identifier ∨ l.next.1.kind ∈ Kind.keywords →
    ∀ c ∈ l.next.2.rest.head?, isWordPart c = false
  number_ends : l.next.1.kind = .number → ∀ c ∈ l.next.2.rest.head?, c.isDigit = false
  equal : ∀ cs, l.rest = '=' :: '=' :: cs → l.next = (⟨.equal, "==", l.spanOf 2⟩, l.drop 2)
  notEqual : ∀ cs, l.rest = '!' :: '=' :: cs → l.next = (⟨.notEqual, "!=", l.spanOf 2⟩, l.drop 2)
  comment : ∀ cs, l.rest = '/' :: '/' :: cs → l.next = (l.drop (2 + (cs.takeWhile (· ≠ '\n')).length)).next
  /-- A character that no rule takes is a token by itself. -/
  illegal : ∀ c cs, l.rest = c :: cs → (∀ rule ∈ Rule.all, rule.length? l.rest = none) →
    l.next = (⟨.illegal, String.singleton c, l.spanOf c.utf8Size⟩, l.drop 1)

/-- A lexer gives the tokens of the longest matches, whatever the order of its rules. -/
theorem tokenize_munched (source : String) (file : Option String) :
    (ofString source file).Munched (tokenize source file) ∧ ∀ l : Lexer, l.ScansLongest := by
  refine ⟨tokens_munched _, fun l => ?_⟩
  have hpair : ∀ {k : Kind} {cs}, k = .equal ∨ k = .notEqual → l.rest = k.spelling ++ cs →
      Rule.first? l.rest = some (.symbol k, k.spelling.length) := by
    rintro k cs (rfl | rfl) hl
    · exact (congrArg Rule.first? hl).trans rfl
    · exact (congrArg Rule.first? hl).trans rfl
  exact {
    first := fun rule n hfirst other hother m hlength => Rule.le_of_first? hfirst hother hlength
    munches := fun t l' => (munches_iff l t l').symm
    word := fun w cs hl hw hnext =>
      ⟨_, next_of_token hl (hl ▸ Rule.first?_of_isWord hw hnext) rfl, Rule.kind_of_word w⟩
    number := fun w cs hl hne hw hnext => next_of_token hl (hl ▸ Rule.first?_of_digits hne hw hnext) rfl
    word_ends := l.munches_next.word_ends
    number_ends := l.munches_next.number_ends
    equal := fun cs hl => next_of_token (show l.rest = ['=', '='] ++ cs from hl) (hpair (.inl rfl) hl) rfl
    notEqual := fun cs hl => next_of_token (show l.rest = ['!', '='] ++ cs from hl) (hpair (.inr rfl) hl) rfl
    comment := fun cs hl => next_comment hl
    illegal := fun c cs hl hnone => next_of_illegal hl (Rule.first?_eq_none_of_forall hnone) }

end Lexer

end FrontEnd
