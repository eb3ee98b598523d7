import FrontEnd.Token.Source

/-!
Lexemes: what a text is made of, with no regard to where its tokens stand.
-/

namespace FrontEnd

/-- The place so many bytes further on. -/
def Position.shifted (n : Nat) (p : Position) : Position :=
  ⟨p.offset + UInt32.ofNat n, p.file⟩

theorem Position.shifted_behind (m n : Nat) (file : String) : (behind m file).shifted n = behind (m + n) file := by
  rw [behind, shifted, ← UInt32.ofNat_add, behind]

/-- What a token says, wherever it stands. -/
abbrev Lexeme := Kind × String

def Token.lexeme (t : Token) : Lexeme :=
  (t.kind, t.value)

/-- The lexeme of a kind whose text is fixed. -/
def Kind.lexeme (k : Kind) : Lexeme :=
  (k, String.ofList k.spelling)

/-- The text is made of these lexemes, in their order, with blanks and comments between them. -/
inductive Lexes : List Char → List Lexeme → Prop
  | nil : Lexes [] []
  | token {cs rule n lexeme ls} : Rule.first? cs = some (rule, n) → rule.token? (cs.take n) = some lexeme →
    Lexes (cs.drop n) ls → Lexes cs (lexeme :: ls)
  | skip {cs rule n ls} : Rule.first? cs = some (rule, n) → rule.token? (cs.take n) = none → Lexes (cs.drop n) ls →
    Lexes cs ls
  | illegal {c cs ls} : Rule.first? (c :: cs) = none → Lexes cs ls →
    Lexes (c :: cs) ((.illegal, String.singleton c) :: ls)

/-- A word starts and goes on as words do. -/
def IsWord : List Char → Prop
  | [] => False
  | c :: cs => isWordStart c = true ∧ ∀ d ∈ cs, isWordPart d = true

/-- A word that is not reserved. -/
def IsName (value : String) : Prop :=
  IsWord value.toList ∧ Kind.keyword? value.toList = none

def IsNumeral (value : String) : Prop :=
  value.toList ≠ [] ∧ ∀ c ∈ value.toList, c.isDigit = true

/-- A text can have such a lexeme. -/
def Lexeme.Genuine : Lexeme → Prop
  | (.eof, _) => False
  | (.illegal, _) | (.string, _) => True
  | (.identifier, value) => IsName value
  | (.number, value) => IsNumeral value
  | (kind, value) => value.toList = kind.spelling

theorem Token.kind_ne_eof {t : Token} (h : t.lexeme.Genuine) : t.kind ≠ .eof := by
  intro hkind
  unfold Token.lexeme at h
  rw [hkind] at h
  exact h

theorem Token.isName {t : Token} (h : t.lexeme.Genuine) (hk : t.kind = .identifier) : IsName t.value := by
  unfold Token.lexeme at h
  rw [hk] at h
  exact h

theorem Token.isNumeral {t : Token} (h : t.lexeme.Genuine) (hk : t.kind = .number) : IsNumeral t.value := by
  unfold Token.lexeme at h
  rw [hk] at h
  exact h

namespace Rule

theorem first?_nil : first? [] = none := rfl

theorem mem_of_first? {cs : List Char} {rule : Rule} {n : Nat} (h : first? cs = some (rule, n)) :
    rule ∈ all ∧ rule.length? cs = some n := by
  obtain ⟨r, hr, hfound⟩ := List.exists_of_findSome?_eq_some h
  obtain ⟨m, hm, heq⟩ := Option.map_eq_some_iff.mp hfound
  obtain ⟨rfl, rfl⟩ := Prod.mk.inj heq
  exact ⟨hr, hm⟩

end Rule

theorem keyword?_of_some {word : List Char} {k : Kind} (h : Kind.keyword? word = some k) :
    k ∈ Kind.keywords ∧ k.spelling = word :=
  ⟨List.mem_of_find?_eq_some h, by simpa using List.find?_some h⟩

theorem take_takeWhile {α : Type} (p : α → Bool) (as : List α) :
    as.take (as.takeWhile p).length = as.takeWhile p :=
  (List.prefix_iff_eq_take.mp (List.takeWhile_prefix p)).symm

theorem drop_takeWhile {α : Type} (p : α → Bool) (as : List α) :
    as.drop (as.takeWhile p).length = as.dropWhile p :=
  calc as.drop (as.takeWhile p).length
    _ = (as.takeWhile p ++ as.dropWhile p).drop (as.takeWhile p).length := by rw [List.takeWhile_append_dropWhile]
    _ = as.dropWhile p := List.drop_left

/-- What stands in for the entries behind the last one may as well be put there. -/
theorem getElem?_append_replicate_getD {α : Type} (as : List α) (a : α) (n k : Nat) :
    ((as ++ List.replicate n a)[k]?).getD a = (as[k]?).getD a := by
  rcases Nat.lt_or_ge k as.length with hlt | hge
  · rw [List.getElem?_append_left hlt]
  · rw [List.getElem?_append_right hge, List.getElem?_eq_none hge, List.getElem?_replicate]
    split <;> rfl

theorem genuine_of_mem_fixed {k : Kind} (hk : k ∈ Kind.symbols ∨ k ∈ Kind.keywords) :
    k.lexeme.Genuine := by
  cases k <;> first | exact String.toList_ofList | simp [Kind.symbols, Kind.keywords] at hk

/-- What a rule makes of the characters it takes is a lexeme that a text can have. -/
theorem Rule.genuine_of_token? {cs : List Char} {rule : Rule} {n : Nat} {lexeme : Lexeme}
    (h : Rule.first? cs = some (rule, n)) (ht : rule.token? (cs.take n) = some lexeme) : lexeme.Genuine := by
  obtain ⟨hmem, hlength⟩ := Rule.mem_of_first? h
  cases rule with
  | blank | comment => exact nomatch ht
  | word =>
    cases cs with
    | nil => exact nomatch hlength
    | cons c cs =>
      simp only [Rule.length?] at hlength
      split at hlength <;> rename_i hc
      · obtain rfl := Option.some.inj hlength
        have htake : (c :: cs).take (1 + (cs.takeWhile isWordPart).length) = c :: cs.takeWhile isWordPart := by
          rw [Nat.add_comm, List.take_succ_cons, take_takeWhile]
        rw [htake] at ht
        obtain rfl := Option.some.inj ht
        cases hk : Kind.keyword? (c :: cs.takeWhile isWordPart) with
        | some k =>
          obtain ⟨hkeyword, hspelling⟩ := keyword?_of_some hk
          rw [← hspelling]
          exact genuine_of_mem_fixed (.inr hkeyword)
        | none =>
          have hword : IsWord (c :: cs.takeWhile isWordPart) :=
            ⟨hc, fun d hd => List.all_eq_true.mp List.all_takeWhile d hd⟩
          refine ⟨?_, ?_⟩
          · rwa [String.toList_ofList]
          · rwa [String.toList_ofList]
      · exact nomatch hlength
  | number =>
    simp only [Rule.length?, Rule.run?] at hlength
    split at hlength
    · exact nomatch hlength
    · rename_i run hne
      obtain rfl := Option.some.inj hlength
      rw [take_takeWhile] at ht
      obtain rfl := Option.some.inj ht
      refine ⟨?_, fun c hc => ?_⟩
      · rw [String.toList_ofList]
        exact hne
      · rw [String.toList_ofList] at hc
        exact List.all_eq_true.mp List.all_takeWhile c hc
  | string =>
    obtain rfl := Option.some.inj ht
    trivial
  | symbol kind =>
    have hkind : kind ∈ Kind.symbols := by simpa [Rule.all] using hmem
    simp only [Rule.length?] at hlength
    split at hlength <;> rename_i hpre
    · obtain rfl := Option.some.inj hlength
      have htake := List.prefix_iff_eq_take.mp (List.isPrefixOf_iff_prefix.mp hpre.2)
      rw [← htake] at ht
      obtain rfl := Option.some.inj ht
      exact genuine_of_mem_fixed (.inl hkind)
    · exact nomatch hlength

namespace Lexes

theorem genuine {cs : List Char} {ls : List Lexeme} (h : Lexes cs ls) : ∀ lexeme ∈ ls, lexeme.Genuine := by
  induction h with
  | nil => exact fun _ hmem => nomatch hmem
  | token hr ht _ ih => exact List.forall_mem_cons.mpr ⟨Rule.genuine_of_token? hr ht, ih⟩
  | skip _ _ _ ih => exact ih
  | illegal _ _ ih => exact List.forall_mem_cons.mpr ⟨trivial, ih⟩

/-- A text has no other lexemes. -/
theorem unique {cs : List Char} {ls ms : List Lexeme} (h : Lexes cs ls) (h' : Lexes cs ms) : ls = ms := by
  induction h generalizing ms with
  | nil =>
    cases h' with
    | nil => rfl
    | token hr _ _ | skip hr _ _ => exact nomatch (Rule.first?_nil.symm.trans hr)
  | token hr ht _ ih =>
    cases h' with
    | nil => exact nomatch (Rule.first?_nil.symm.trans hr)
    | token hr' ht' hrest =>
      obtain ⟨rfl, rfl⟩ := Prod.mk.inj (Option.some.inj (hr.symm.trans hr'))
      rw [Option.some.inj (ht.symm.trans ht'), ih hrest]
    | skip hr' ht' _ =>
      obtain ⟨rfl, rfl⟩ := Prod.mk.inj (Option.some.inj (hr.symm.trans hr'))
      exact nomatch (ht.symm.trans ht')
    | illegal hr' _ => exact nomatch (hr.symm.trans hr')
  | skip hr ht _ ih =>
    cases h' with
    | nil => exact nomatch (Rule.first?_nil.symm.trans hr)
    | token hr' ht' _ =>
      obtain ⟨rfl, rfl⟩ := Prod.mk.inj (Option.some.inj (hr.symm.trans hr'))
      exact nomatch (ht.symm.trans ht')
    | skip hr' _ hrest =>
      obtain ⟨rfl, rfl⟩ := Prod.mk.inj (Option.some.inj (hr.symm.trans hr'))
      exact ih hrest
    | illegal hr' _ => exact nomatch (hr.symm.trans hr')
  | illegal hr _ ih =>
    cases h' with
    | token hr' _ _ | skip hr' _ _ => exact nomatch (hr.symm.trans hr')
    | illegal _ hrest => rw [ih hrest]

end Lexes

namespace Lexer

/-- The next token stands at the head of the text, or the text has none left. -/
theorem next_cases (l : Lexer) :
    (l.next.1 = Token.eof l.next.2.position ∧ l.next.2.rest = [] ∧ Lexes l.rest []) ∨
      (l.next.1.kind ≠ .eof ∧ ∀ ls, Lexes l.next.2.rest ls → Lexes l.rest (l.next.1.lexeme :: ls)) := by
  fun_induction next l with
  | case1 l hl => exact .inl ⟨rfl, hl, hl ▸ .nil⟩
  | case2 l c cs hl hr =>
    have hkind : Kind.illegal ≠ .eof := by decide
    refine .inr ⟨hkind, fun ls h => ?_⟩
    have hrest : (l.take .illegal (String.singleton c) 1).2.rest = cs := by
      show l.rest.drop 1 = cs
      rw [hl, List.drop_one, List.tail_cons]
    rw [hrest] at h
    rw [hl]
    exact .illegal hr h
  | case3 l c cs hl rule n hr kind value ht =>
    rw [← hl] at hr
    refine .inr ⟨fun heof => ?_, fun ls h => .token hr ht h⟩
    obtain rfl : kind = .eof := heof
    exact Rule.genuine_of_token? hr ht
  | case4 l c cs hl rule n hr ht ih =>
    rw [← hl] at hr
    rcases ih with ⟨heof, hrest, hlexes⟩ | ⟨hkind, hlexes⟩
    · exact .inl ⟨heof, hrest, .skip hr ht hlexes⟩
    · exact .inr ⟨hkind, fun ls h => .skip hr ht (hlexes ls h)⟩

theorem spanOf_eq (l : Lexer) (n : Nat) : l.spanOf n = ⟨l.position, l.position.shifted n⟩ := by
  rw [spanOf, position, Position.shifted_behind]

theorem ext {l l' : Lexer} (hfile : l.file = l'.file) (hoffset : l.offset = l'.offset) (hrest : l.rest = l'.rest) :
    l = l' := by
  obtain ⟨file, offset, rest, left, hleft⟩ := l
  obtain ⟨file', offset', rest', left', hleft'⟩ := l'
  simp_all

theorem drop_zero (l : Lexer) : l.drop 0 = l :=
  ext rfl rfl rfl

theorem drop_drop (l : Lexer) (m n : Nat) : (l.drop m).drop n = l.drop (m + n) := by
  refine ext rfl ?_ ?_
  · simp [drop, List.take_add, Nat.add_assoc]
  · simp [drop]

theorem rest_drop {l : Lexer} {text rest : List Char} (hl : l.rest = text ++ rest) :
    (l.drop text.length).rest = rest := by
  simp [drop, hl]

theorem offset_drop {l : Lexer} {text rest : List Char} (hl : l.rest = text ++ rest) :
    (l.drop text.length).offset = l.offset + byteLength text := by
  simp [drop, hl]

theorem position_drop {l : Lexer} {text rest : List Char} (hl : l.rest = text ++ rest) :
    (l.drop text.length).position = (l.spanOf (byteLength text)).stop := by
  rw [position, offset_drop hl]
  rfl

theorem next_of_rest_eq_nil {l : Lexer} (h : l.rest = []) : l.next = (Token.eof l.position, l) := by
  fun_cases next l with
  | case1 => rfl
  | case2 c cs hl | case3 c cs hl | case4 c cs hl => exact absurd (h.symm.trans hl) (List.cons_ne_nil c cs).symm

theorem next_of_first? {l : Lexer} {rule : Rule} {n : Nat} (h : Rule.first? l.rest = some (rule, n)) :
    l.next = ((rule.token? (l.rest.take n)).map fun token => l.take token.1 token.2 n).getD (l.drop n).next := by
  fun_cases next l with
  | case1 hl =>
    rw [hl] at h
    exact nomatch Rule.first?_nil.symm.trans h
  | case2 c cs hl hnone =>
    rw [hl] at h
    exact nomatch hnone.symm.trans h
  | case3 c cs hl rule' m hsome kind value ht | case4 c cs hl rule' m hsome ht =>
    rw [← hl] at hsome
    obtain ⟨rfl, rfl⟩ := Prod.mk.inj (Option.some.inj (hsome.symm.trans h))
    rw [ht]
    rfl

/-- The next token is what a rule makes of the text that it takes. -/
theorem next_of_token {l : Lexer} {rule : Rule} {text rest : List Char} {kind : Kind} {value : String}
    (hl : l.rest = text ++ rest) (h : Rule.first? l.rest = some (rule, text.length))
    (ht : rule.token? text = some (kind, value)) :
    l.next = (⟨kind, value, l.spanOf (byteLength text)⟩, l.drop text.length) := by
  have htake : l.rest.take text.length = text := by rw [hl, List.take_left]
  rw [next_of_first? h, htake, ht, Option.map_some, Option.getD_some, take, htake]

theorem next_of_skip {l : Lexer} {rule : Rule} {text rest : List Char} (hl : l.rest = text ++ rest)
    (h : Rule.first? l.rest = some (rule, text.length)) (ht : rule.token? text = none) :
    l.next = (l.drop text.length).next := by
  have htake : l.rest.take text.length = text := by rw [hl, List.take_left]
  rw [next_of_first? h, htake, ht, Option.map_none, Option.getD_none]

theorem next_of_illegal {l : Lexer} {c : Char} {cs : List Char} (hl : l.rest = c :: cs)
    (h : Rule.first? l.rest = none) :
    l.next = (⟨.illegal, String.singleton c, l.spanOf c.utf8Size⟩, l.drop 1) := by
  have hsize : byteLength (l.rest.take 1) = c.utf8Size := by
    rw [hl]
    simp
  fun_cases next l with
  | case1 hnil => exact absurd (hl.symm.trans hnil) (List.cons_ne_nil c cs)
  | case2 d ds hl' =>
    obtain ⟨rfl, rfl⟩ := List.cons.inj (hl.symm.trans hl')
    rw [take, hsize]
  | case3 d ds hl' rule n hsome | case4 d ds hl' rule n hsome =>
    rw [← hl'] at hsome
    exact nomatch h.symm.trans hsome

end Lexer

/-- The token that a source gives behind so many others. -/
def TokenSource.nth : Nat → TokenSource → Token
  | 0, s => s.next.1
  | k + 1, s => nth k s.next.2

namespace TokenSource

theorem nth_text_of_rest_eq_nil {l : Lexer} (h : l.rest = []) (k : Nat) :
    (text l).nth k = Token.eof l.position := by
  have hnext : (text l).next = (Token.eof l.position, text l) := by
    rw [next, Lexer.next_of_rest_eq_nil h]
  induction k with
  | zero => rw [nth, hnext]
  | succ k ih => rw [nth, hnext, ih]

theorem nth_buffer (T : List Token) (stop : Position) (k : Nat) :
    (buffer ⟨T, stop⟩).nth k = (T[k]?).getD (Token.eof stop) := by
  induction k generalizing T with
  | zero => cases T <;> rfl
  | succ k ih =>
    cases T with
    | nil => exact ih []
    | cons t ts => exact ih ts

end TokenSource

namespace Lexer

theorem toList_tokensOnto (acc : Array Token) (l : Lexer) : (tokensOnto acc l).toList = acc.toList ++ l.tokens := by
  suffices h : ∃ ts, ∀ acc, (tokensOnto acc l).toList = acc.toList ++ ts by
    obtain ⟨ts, hts⟩ := h
    have htokens : l.tokens = ts := hts #[]
    rw [htokens]
    exact hts acc
  induction hleft : l.left using Nat.strongRecOn generalizing l with
  | ind n ih =>
    by_cases hkind : l.next.1.kind = .eof
    · refine ⟨[l.next.1], fun acc => ?_⟩
      rw [tokensOnto, dif_pos hkind]
      exact Array.toList_push
    · obtain ⟨ts, hts⟩ := ih l.next.2.left (hleft ▸ l.left_next_lt hkind) l.next.2 rfl
      refine ⟨l.next.1 :: ts, fun acc => ?_⟩
      rw [tokensOnto, dif_neg hkind, hts, Array.toList_push, List.append_assoc]
      rfl

theorem tokens_of_eof {l : Lexer} (h : l.next.1.kind = .eof) : l.tokens = [l.next.1] := by
  rw [tokens, tokensOnto, dif_pos h]
  rfl

theorem tokens_of_ne_eof {l : Lexer} (h : l.next.1.kind ≠ .eof) : l.tokens = l.next.1 :: l.next.2.tokens := by
  rw [tokens, tokensOnto, dif_neg h, toList_tokensOnto]
  rfl

/-- The tokens of a text, lexed all at once or on demand, and the lexemes that they stand for. -/
theorem exists_tokens (l : Lexer) : ∃ T stop, l.tokens = T ++ [Token.eof stop] ∧ T.length ≤ l.left ∧
    Lexes l.rest (T.map Token.lexeme) ∧ ∀ k, (TokenSource.text l).nth k = (T[k]?).getD (Token.eof stop) := by
  induction hleft : l.left using Nat.strongRecOn generalizing l with
  | ind n ih =>
    rcases l.next_cases with ⟨heof, hrest, hlexes⟩ | ⟨hkind, hlexes⟩
    · refine ⟨[], l.next.2.position, ?_, Nat.zero_le _, hlexes, fun k => ?_⟩
      · rw [tokens_of_eof (heof ▸ rfl), heof]
        rfl
      · cases k with
        | zero => exact heof
        | succ k => exact TokenSource.nth_text_of_rest_eq_nil hrest k
    · have hlt := l.left_next_lt hkind
      obtain ⟨T, stop, htokens, hlength, hT, hnth⟩ := ih l.next.2.left (hleft ▸ hlt) l.next.2 rfl
      refine ⟨l.next.1 :: T, stop, ?_, ?_, hlexes _ hT, fun k => ?_⟩
      · rw [tokens_of_ne_eof hkind, htokens]
        rfl
      · rw [List.length_cons]
        omega
      · cases k with
        | zero => rfl
        | succ k => exact hnth k

end Lexer

theorem TokenSource.nth_kind_of_size_le {s : TokenSource} {k : Nat} (h : s.size ≤ k) : (s.nth k).kind = .eof := by
  cases s with
  | text l =>
    obtain ⟨T, stop, -, hlength, -, hnth⟩ := l.exists_tokens
    rw [hnth, List.getElem?_eq_none (Nat.le_trans hlength h)]
    rfl
  | buffer b =>
    rw [nth_buffer, List.getElem?_eq_none h]
    rfl

end FrontEnd
