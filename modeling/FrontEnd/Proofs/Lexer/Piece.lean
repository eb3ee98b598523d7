import FrontEnd.Proofs.Lexer.Lexeme

/-!
Pieces of a text that are lexed by themselves, given that what comes behind them does not lengthen them.
-/

namespace FrontEnd

/-- The two characters that these are part of would be lexed together. -/
def Kind.Joins (k : Kind) (c : Char) : Prop :=
  (k = .assign ∨ k = .bang) ∧ c = '=' ∨ k = .slash ∧ c = '/'

section Text

variable {cs : List Char} {c : Char} {ls : List Lexeme}

theorem takeWhile_of_head {p : Char → Bool} (h : ∀ c ∈ cs.head?, p c = false) : cs.takeWhile p = [] := by
  cases cs with
  | nil => rfl
  | cons c cs => rw [List.takeWhile_cons, h c rfl, if_neg Bool.false_ne_true]

theorem takeWhile_append {p : Char → Bool} {run : List Char} (hrun : ∀ c ∈ run, p c = true)
    (h : ∀ c ∈ cs.head?, p c = false) : (run ++ cs).takeWhile p = run := by
  rw [List.takeWhile_append_of_pos hrun, takeWhile_of_head h, List.append_nil]

theorem code_of_isDigit (h : c.isDigit = true) : 48 ≤ c.toNat ∧ c.toNat ≤ 57 := by
  simp only [Char.isDigit, Bool.and_eq_true, decide_eq_true_eq, ge_iff_le, UInt32.le_iff_toNat_le] at h
  exact h

theorem code_of_isWordStart (h : isWordStart c = true) : 65 ≤ c.toNat ∧ c.toNat ≤ 122 := by
  rcases (Bool.or_eq_true _ _).mp h with hletter | hscore
  · rcases (Bool.or_eq_true _ _).mp hletter with hupper | hlower
    · have hcode : 65 ≤ c.val ∧ c.val ≤ 90 := of_decide_eq_true hupper
      exact ⟨hcode.1, Nat.le_trans hcode.2 (by decide)⟩
    · obtain ⟨hlow, hhigh⟩ := (Bool.and_eq_true (decide (97 ≤ c.val)) (decide (c.val ≤ 122))).mp hlower
      exact ⟨Nat.le_trans (by decide) (of_decide_eq_true hlow), of_decide_eq_true hhigh⟩
  · rw [eq_of_beq hscore]
    decide

theorem isWordStart_eq_false_of_isDigit (h : c.isDigit = true) : isWordStart c = false := by
  cases hword : isWordStart c with
  | false => rfl
  | true =>
    have hdigit := code_of_isDigit h
    have hstart := code_of_isWordStart hword
    omega

theorem isWordPart_of_isDigit (h : c.isDigit = true) : isWordPart c = true := by
  simp [isWordPart, Char.isAlphanum, h]

/-- No printable character but the space is blank. -/
theorem isBlank_eq_false_of_code (hlow : 33 ≤ c.toNat) (hhigh : c.toNat ≤ 126) : isBlank c = false := by
  simp only [isBlank, Bool.or_eq_false_iff, Bool.and_eq_false_imp, decide_eq_true_eq, decide_eq_false_iff_not,
    beq_eq_false_iff_ne]
  omega

theorem isBlank_eq_false_of_isDigit (h : c.isDigit = true) : isBlank c = false := by
  obtain ⟨hlow, hhigh⟩ := code_of_isDigit h
  exact isBlank_eq_false_of_code (by omega) (by omega)

theorem isBlank_eq_false_of_isWordStart (h : isWordStart c = true) : isBlank c = false := by
  obtain ⟨hlow, hhigh⟩ := code_of_isWordStart h
  exact isBlank_eq_false_of_code (by omega) (by omega)

theorem isWordStart_eq_false_of_isBlank (h : isBlank c = true) : isWordStart c = false := by
  cases hword : isWordStart c with
  | false => rfl
  | true => exact absurd ((isBlank_eq_false_of_isWordStart hword).symm.trans h) Bool.false_ne_true

theorem isDigit_eq_false_of_isBlank (h : isBlank c = true) : c.isDigit = false := by
  cases hdigit : c.isDigit with
  | false => rfl
  | true => exact absurd ((isBlank_eq_false_of_isDigit hdigit).symm.trans h) Bool.false_ne_true

namespace Rule

theorem first?_word (hc : isWordStart c = true) :
    first? (c :: cs) = some (.word, 1 + (cs.takeWhile isWordPart).length) := by
  simp [first?, all, length?, hc]

theorem first?_number (hc : c.isDigit = true) :
    first? (c :: cs) = some (.number, 1 + (cs.takeWhile Char.isDigit).length) := by
  simp [first?, all, length?, run?, isWordStart_eq_false_of_isDigit hc, hc, Nat.add_comm]

/-- A word is taken as far as it goes. -/
theorem first?_of_isWord {w : List Char} (hw : IsWord w) (hnext : ∀ c ∈ cs.head?, isWordPart c = false) :
    first? (w ++ cs) = some (.word, w.length) := by
  cases w with
  | nil => exact hw.elim
  | cons d ds =>
    rw [List.cons_append, first?_word hw.1, takeWhile_append hw.2 hnext, List.length_cons, Nat.add_comm]

/-- A number is taken as far as it goes. -/
theorem first?_of_digits {w : List Char} (hne : w ≠ []) (hw : ∀ c ∈ w, c.isDigit = true)
    (hnext : ∀ c ∈ cs.head?, c.isDigit = false) : first? (w ++ cs) = some (.number, w.length) := by
  cases w with
  | nil => exact absurd rfl hne
  | cons d ds =>
    obtain ⟨hd, hds⟩ := List.forall_mem_cons.mp hw
    rw [List.cons_append, first?_number hd, takeWhile_append hds hnext, List.length_cons, Nat.add_comm]

theorem first?_of_isBlank {c : Char} (hc : isBlank c = true) :
    first? (c :: cs) = some (.blank, (c :: cs.takeWhile isBlank).length) := by
  simp [first?, all, length?, run?, isWordStart_eq_false_of_isBlank hc, isDigit_eq_false_of_isBlank hc, hc]

theorem first?_blank (h : ∀ c ∈ cs.head?, isBlank c = false) : first? (' ' :: cs) = some (.blank, 1) := by
  rw [first?_of_isBlank (by decide), takeWhile_of_head h]
  rfl

theorem first?_string : first? ('"' :: cs) = some (.string, 1 + Literal.bodyLength cs) := rfl

/-- The longer symbol that begins with these characters is tried before. -/
theorem first?_symbol {k : Kind} (hk : k ∈ Kind.symbols) (h : ∀ c ∈ cs.head?, ¬k.Joins c) :
    first? (k.spelling ++ cs) = some (.symbol k, k.spelling.length) := by
  have hjoins : ∀ {d}, k.Joins d → ∀ {c' cs'}, cs = c' :: cs' → ¬d = c' := by
    rintro d hd c' cs' rfl rfl
    exact h d rfl hd
  cases k <;> try rfl
  case assign =>
    cases hcs : cs with
    | nil => rfl
    | cons c' cs' =>
      have hlonger : (symbol .equal).length? ('=' :: c' :: cs') = none := by
        simp [length?, Kind.spelling, hjoins (.inl ⟨.inl rfl, rfl⟩) hcs]
      simp only [first?, all, Kind.symbols, Kind.spelling, List.map_cons, List.cons_append, List.nil_append,
        List.findSome?_cons, hlonger]
      rfl
  case bang =>
    cases hcs : cs with
    | nil => rfl
    | cons c' cs' =>
      have hlonger : (symbol .notEqual).length? ('!' :: c' :: cs') = none := by
        simp [length?, Kind.spelling, hjoins (.inl ⟨.inr rfl, rfl⟩) hcs]
      simp only [first?, all, Kind.symbols, Kind.spelling, List.map_cons, List.cons_append, List.nil_append,
        List.findSome?_cons, hlonger]
      rfl
  case slash =>
    cases hcs : cs with
    | nil => rfl
    | cons c' cs' =>
      have hcomment : comment.length? ('/' :: c' :: cs') = none := by
        simp [length?, Ne.symm (hjoins (.inr ⟨rfl, rfl⟩) hcs)]
      simp only [first?, all, Kind.symbols, Kind.spelling, List.map_cons, List.cons_append, List.nil_append,
        List.findSome?_cons, hcomment]
      rfl
  all_goals simp [Kind.symbols] at hk

end Rule

namespace Lexes

theorem blank (h : Lexes cs ls) (hnext : ∀ c ∈ cs.head?, isBlank c = false) : Lexes (' ' :: cs) ls :=
  .skip (Rule.first?_blank hnext) rfl h

theorem symbol {k : Kind} (hk : k ∈ Kind.symbols) (h : Lexes cs ls) (hnext : ∀ c ∈ cs.head?, ¬k.Joins c) :
    Lexes (k.spelling ++ cs) (k.lexeme :: ls) := by
  refine .token (Rule.first?_symbol hk hnext) ?_ ?_
  · rw [List.take_left]
    rfl
  · rwa [List.drop_left]

theorem word {w : List Char} (hw : IsWord w) (h : Lexes cs ls) (hnext : ∀ c ∈ cs.head?, isWordPart c = false) :
    Lexes (w ++ cs) (((Kind.keyword? w).getD .identifier, String.ofList w) :: ls) := by
  refine .token (Rule.first?_of_isWord hw hnext) ?_ ?_
  · rw [List.take_left]
    rfl
  · rwa [List.drop_left]

theorem number {w : List Char} (hne : w ≠ []) (hw : ∀ c ∈ w, c.isDigit = true) (h : Lexes cs ls)
    (hnext : ∀ c ∈ cs.head?, c.isDigit = false) : Lexes (w ++ cs) ((.number, String.ofList w) :: ls) := by
  refine .token (Rule.first?_of_digits hne hw hnext) ?_ ?_
  · rw [List.take_left]
    rfl
  · rwa [List.drop_left]

end Lexes

end Text

/-! String literals -/

namespace Literal

/-- A character is printed as itself or as a backslash and what stands for it. -/
theorem printChar_cases (c : Char) : (∃ d, printChar c = ['\\', d] ∧ escaped? d = some c) ∨
    (printChar c = [c] ∧ c ≠ '"' ∧ c ≠ '\\') := by
  unfold printChar
  split
  · exact .inl ⟨'n', rfl, rfl⟩
  · exact .inl ⟨'t', rfl, rfl⟩
  · exact .inl ⟨'r', rfl, rfl⟩
  · exact .inl ⟨'\\', rfl, rfl⟩
  · exact .inl ⟨'"', rfl, rfl⟩
  · exact .inr ⟨rfl, by assumption, by assumption⟩

theorem bodyLengthFrom_plain {c : Char} (hquote : c ≠ '"') (hbackslash : c ≠ '\\') (n : Nat) (cs : List Char) :
    bodyLengthFrom n (c :: cs) = bodyLengthFrom (n + 1) cs := by
  rw [bodyLengthFrom.eq_def]
  split <;> simp_all

theorem decodeOnto_plain {c : Char} (hquote : c ≠ '"') (hbackslash : c ≠ '\\') (acc : String) (cs : List Char) :
    decodeOnto acc (c :: cs) = decodeOnto (acc.push c) cs := by
  rw [decodeOnto.eq_def]
  split <;> simp_all

theorem bodyLengthFrom_print (n : Nat) (cs rest : List Char) :
    bodyLengthFrom n (cs.flatMap printChar ++ '"' :: rest) = n + (cs.flatMap printChar).length + 1 := by
  induction cs generalizing n with
  | nil => rfl
  | cons c cs ih =>
    rw [List.flatMap_cons, List.append_assoc, List.length_append]
    rcases printChar_cases c with ⟨d, hd, hc⟩ | ⟨hc, hquote, hbackslash⟩
    · have hline : d ≠ '\n' := by
        rintro rfl
        exact nomatch hc
      rw [hd, List.cons_append, List.singleton_append, bodyLengthFrom, if_neg hline, ih, List.length_cons,
        List.length_singleton]
      omega
    · rw [hc, List.singleton_append, bodyLengthFrom_plain hquote hbackslash, ih, List.length_singleton]
      omega

theorem push_append_ofList (acc : String) (c : Char) (cs : List Char) :
    acc.push c ++ String.ofList cs = acc ++ String.ofList (c :: cs) := by
  rw [String.push_eq_append, String.append_assoc, ← String.ofList_cons]

theorem decodeOnto_print (acc : String) (cs : List Char) :
    decodeOnto acc (cs.flatMap printChar ++ ['"']) = acc ++ String.ofList cs := by
  induction cs generalizing acc with
  | nil =>
    have hdone : decodeOnto acc ['"'] = acc := by rw [decodeOnto]
    rw [List.flatMap_nil, List.nil_append, hdone]
    simp
  | cons c cs ih =>
    rw [List.flatMap_cons, List.append_assoc]
    rcases printChar_cases c with ⟨d, hd, hc⟩ | ⟨hc, hquote, hbackslash⟩
    · rw [hd, List.cons_append, List.singleton_append, decodeOnto, hc]
      exact (ih _).trans (push_append_ofList acc c cs)
    · rw [hc, List.singleton_append, decodeOnto_plain hquote hbackslash]
      exact (ih _).trans (push_append_ofList acc c cs)

theorem toList_print (value : String) :
    (print value).toList = '"' :: (value.toList.flatMap printChar ++ ['"']) := by
  rw [print, String.toList_ofList, List.cons_append]

end Literal

/-- What is printed of a string is taken as a whole. -/
theorem Rule.first?_print (value : String) (cs : List Char) :
    first? ((Literal.print value).toList ++ cs) = some (.string, (Literal.print value).toList.length) := by
  rw [Literal.toList_print, List.cons_append, first?_string, List.append_assoc, List.singleton_append,
    Literal.bodyLength, Literal.bodyLengthFrom_print, List.length_cons, List.length_append, List.length_singleton,
    Nat.zero_add, Nat.add_comm 1]

theorem Rule.token?_print (value : String) : string.token? (Literal.print value).toList = some (.string, value) := by
  rw [token?, Literal.toList_print, List.tail_cons, Literal.decode, Literal.decodeOnto_print]
  simp

/-- What is printed of a string is read back as that string. -/
theorem Lexes.string {cs : List Char} {ls : List Lexeme} (value : String) (h : Lexes cs ls) :
    Lexes ((Literal.print value).toList ++ cs) ((.string, value) :: ls) := by
  refine .token (Rule.first?_print value cs) ?_ ?_
  · rw [List.take_left, Rule.token?_print]
  · rwa [List.drop_left]

end FrontEnd
