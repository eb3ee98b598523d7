import FrontEnd.Proofs.Text.Literal

/-!
The patterns of the lexical rules, and that a rule takes from a text as much as its pattern can.
-/

namespace FrontEnd

open scoped Computability

variable {cs text : List Char}

theorem mem_kstar_single {p : Char → Prop} : text ∈ (single p)∗ ↔ ∀ c ∈ text, p c := by
  constructor
  · intro h
    obtain ⟨parts, rfl, hparts⟩ := Language.mem_kstar.mp h
    intro c hc
    obtain ⟨part, hpart, hmem⟩ := List.mem_flatten.mp hc
    obtain ⟨d, hd, rfl⟩ := hparts part hpart
    rwa [List.mem_singleton.mp hmem]
  · intro h
    have hflatten : (text.map fun c => [c]).flatten = text := by
      rw [← List.flatMap_def, List.flatMap_singleton']
    rw [← hflatten]
    apply Language.join_mem_kstar
    intro part hpart
    obtain ⟨c, hc, rfl⟩ := List.mem_map.mp hpart
    exact ⟨c, h c hc, rfl⟩

/-- The longest text of the language at the head of another. -/
structure Longest (L : Language Char) (cs text : List Char) : Prop where
  isPrefix : text <+: cs
  mem : text ∈ L
  length_le : ∀ other, other <+: cs → other ∈ L → other.length ≤ text.length

/-- A character of one class and all that follow it of another. -/
def run (p q : Char → Bool) : Language Char :=
  single (p · = true) * (single (q · = true))∗

theorem mem_run {p q : Char → Bool} :
    text ∈ run p q ↔ ∃ c cs, text = c :: cs ∧ p c = true ∧ ∀ d ∈ cs, q d = true := by
  simp only [run, Language.mem_mul, mem_kstar_single]
  constructor
  · rintro ⟨_, ⟨c, hc, rfl⟩, cs, hcs, rfl⟩
    exact ⟨c, cs, rfl, hc, hcs⟩
  · rintro ⟨c, cs, rfl, hc, hcs⟩
    exact ⟨[c], ⟨c, hc, rfl⟩, cs, hcs, rfl⟩

theorem longest_run {p q : Char → Bool} {c : Char} (hc : p c = true) (cs : List Char) :
    Longest (run p q) (c :: cs) (c :: cs.takeWhile q) where
  isPrefix := (List.prefix_cons_inj c).mpr (List.takeWhile_prefix q)
  mem := mem_run.mpr ⟨c, _, rfl, hc, fun d hd => List.all_eq_true.mp List.all_takeWhile d hd⟩
  length_le other hpre hother := by
    obtain ⟨d, ds, rfl, -, hds⟩ := mem_run.mp hother
    obtain ⟨-, rest, rfl⟩ := List.cons_prefix_cons.mp hpre
    rw [List.takeWhile_append_of_pos hds]
    simp

theorem Literal.longest_scan (cs : List Char) : Longest pattern ('"' :: cs) ('"' :: (scan cs).text) where
  isPrefix := (List.prefix_cons_inj _).mpr (text_scan_isPrefix cs)
  mem := scan_mem_pattern cs
  length_le other hpre hother := by
    rw [List.length_cons, Nat.add_comm]
    exact length_le_of_mem_pattern hother hpre

namespace Rule

/-- The texts that a rule is for. -/
def language : Rule → Language Char
  | word => run isWordStart isWordPart
  | number => run Char.isDigit Char.isDigit
  | blank => run isBlank isBlank
  | string => Literal.pattern
  | comment => {['/', '/']} * (single (· ≠ '\n'))∗
  | symbol kind => {kind.spelling}

variable {rule : Rule} {n : Nat}

/-- A rule takes the longest text that its pattern is for, or the pattern is for none. -/
def Matches (rule : Rule) (cs : List Char) : Prop :=
  (rule.length? cs = none ∧ ∀ text, text <+: cs → text ∉ rule.language) ∨
    ∃ text, rule.length? cs = some text.length ∧ Longest rule.language cs text

theorem notMem_run {p q : Char → Bool} (h : ∀ c ∈ cs.head?, p c = false) (hpre : text <+: cs) : text ∉ run p q := by
  intro hmem
  obtain ⟨c, ds, rfl, hc, -⟩ := mem_run.mp hmem
  obtain ⟨rest, rfl⟩ := hpre
  rw [h c rfl] at hc
  exact Bool.false_ne_true hc

theorem matches_word (cs : List Char) : word.Matches cs := by
  cases cs with
  | nil => exact .inl ⟨rfl, fun text => notMem_run (by simp)⟩
  | cons c cs =>
    cases hc : isWordStart c with
    | false => exact .inl ⟨by simp [length?, hc], fun text => notMem_run (by simpa using hc)⟩
    | true =>
      refine .inr ⟨c :: cs.takeWhile isWordPart, ?_, longest_run hc cs⟩
      simp [length?, hc, Nat.add_comm]

theorem run?_cons {p : Char → Bool} {c : Char} (hc : p c = true) (cs : List Char) :
    run? p (c :: cs) = some (c :: cs.takeWhile p).length := by
  simp [run?, hc]

theorem run?_eq_none {p : Char → Bool} (h : ∀ c ∈ cs.head?, p c = false) : run? p cs = none := by
  rw [run?, takeWhile_of_head h]

theorem matches_run {p : Char → Bool} (hlength : rule.length? cs = run? p cs) (hlanguage : rule.language = run p p) :
    rule.Matches cs := by
  unfold Matches
  rw [hlength, hlanguage]
  cases cs with
  | nil => exact .inl ⟨rfl, fun text => notMem_run (by simp)⟩
  | cons c cs =>
    cases hc : p c with
    | false => exact .inl ⟨run?_eq_none (by simpa using hc), fun text => notMem_run (by simpa using hc)⟩
    | true => exact .inr ⟨_, run?_cons hc cs, longest_run hc cs⟩

theorem matches_string (cs : List Char) : string.Matches cs := by
  by_cases hquote : ∃ ds, cs = '"' :: ds
  · obtain ⟨ds, rfl⟩ := hquote
    refine .inr ⟨'"' :: (Literal.scan ds).text, ?_, Literal.longest_scan ds⟩
    rw [length?, Literal.bodyLength_eq, List.length_cons, Nat.add_comm]
  · refine .inl ⟨?_, ?_⟩
    · unfold length?
      split <;> simp_all
    · rintro text ⟨rest, rfl⟩ hmem
      obtain ⟨body, -, rfl | rfl⟩ := Literal.mem_pattern.mp hmem
      · exact hquote ⟨_, rfl⟩
      · exact hquote ⟨_, rfl⟩

theorem mem_language_comment : text ∈ comment.language ↔ ∃ body, text = '/' :: '/' :: body ∧ ∀ c ∈ body, c ≠ '\n' := by
  simp only [language, Language.mem_mul, mem_kstar_single]
  constructor
  · rintro ⟨_, rfl, body, hbody, rfl⟩
    exact ⟨body, rfl, hbody⟩
  · rintro ⟨body, rfl, hbody⟩
    exact ⟨_, rfl, body, hbody, rfl⟩

theorem matches_comment (cs : List Char) : comment.Matches cs := by
  by_cases hslashes : ∃ ds, cs = '/' :: '/' :: ds
  · obtain ⟨ds, rfl⟩ := hslashes
    refine .inr ⟨'/' :: '/' :: ds.takeWhile (· ≠ '\n'), ?_, ?_, ?_, fun other hpre hother => ?_⟩
    · rw [length?, List.length_cons, List.length_cons, Nat.add_comm]
    · exact (List.prefix_append_right_inj ['/', '/']).mpr (List.takeWhile_prefix _)
    · refine mem_language_comment.mpr ⟨_, rfl, fun c hc => ?_⟩
      simpa using List.all_eq_true.mp List.all_takeWhile c hc
    · obtain ⟨body, rfl, hbody⟩ := mem_language_comment.mp hother
      obtain ⟨rest, rfl⟩ := (List.prefix_append_right_inj ['/', '/']).mp hpre
      rw [List.takeWhile_append_of_pos (by simpa using hbody)]
      simp
  · refine .inl ⟨?_, ?_⟩
    · unfold length?
      split <;> simp_all
    · rintro text ⟨rest, rfl⟩ hmem
      obtain ⟨body, rfl, -⟩ := mem_language_comment.mp hmem
      exact hslashes ⟨_, rfl⟩

theorem matches_symbol {k : Kind} (hk : k ∈ Kind.symbols) (cs : List Char) : (symbol k).Matches cs := by
  have hne : k.spelling ≠ [] := by
    revert k
    decide
  by_cases hpre : k.spelling <+: cs
  · refine .inr ⟨k.spelling, ?_, hpre, rfl, ?_⟩
    · simp [length?, hne, hpre]
    · rintro _ - rfl
      exact Nat.le_refl _
  · refine .inl ⟨?_, ?_⟩
    · simp [length?, hpre]
    · rintro _ h rfl
      exact hpre h

/-- A rule takes the longest text of its pattern, and takes nothing only where the pattern is for no text. -/
theorem matches_of_mem (hrule : rule ∈ all) (cs : List Char) : rule.Matches cs := by
  cases rule with
  | word => exact matches_word cs
  | number => exact matches_run rfl rfl
  | blank => exact matches_run rfl rfl
  | string => exact matches_string cs
  | comment => exact matches_comment cs
  | symbol k => exact matches_symbol (by simpa [all] using hrule) cs

end Rule
end FrontEnd
