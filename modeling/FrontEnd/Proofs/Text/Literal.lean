import Mathlib.Computability.Language
import FrontEnd.Proofs.Lexer.Piece

/-!
String literals behind their opening quote: the pattern that they follow, and one scan from left to right that takes as
much of a text as the pattern can and decodes it on the way.
-/

namespace FrontEnd

open scoped Computability

/-- The texts of one character of this class. -/
def single (p : Char → Prop) : Language Char :=
  {text | ∃ c, p c ∧ text = [c]}

theorem mem_single {p : Char → Prop} {text : List Char} : text ∈ single p ↔ ∃ c, p c ∧ text = [c] := Iff.rfl

namespace Literal

/-- A backslash and a character of the same line, or any other character that does not close the literal. -/
def unit : Language Char :=
  {['\\']} * single (· ≠ '\n') + single fun c => c ≠ '"' ∧ c ≠ '\\'

/-- A literal with its opening quote. -/
def pattern : Language Char :=
  {['"']} * unit∗ * (1 + {['"']})

/-- What a scan takes of a text, and the value that it makes of it. -/
structure Scan where
  text : List Char
  value : List Char
deriving DecidableEq, Repr

def Scan.onto (text value : List Char) (s : Scan) : Scan :=
  ⟨text ++ s.text, value ++ s.value⟩

/-- What a backslash and the character behind it stand for. -/
def unescape : Char → List Char
  | 'n' => ['\n']
  | 't' => ['\t']
  | 'r' => ['\r']
  | '\\' => ['\\']
  | '"' => ['"']
  | c => ['\\', c]

/-- The scan ends with the closing quote, in front of a backslash that has nothing to escape on its line, or where the
text does. -/
def scan : List Char → Scan
  | [] => ⟨[], []⟩
  | '"' :: _ => ⟨['"'], []⟩
  | ['\\'] => ⟨[], []⟩
  | '\\' :: c :: cs => if c = '\n' then ⟨[], []⟩ else (scan cs).onto ['\\', c] (unescape c)
  | c :: cs => (scan cs).onto [c] [c]

/-- A backslash with nothing to escape on its line. -/
def Dangling (cs : List Char) : Prop :=
  ∃ below, cs = '\\' :: below ∧ ∀ c ∈ below.head?, c = '\n'

/-- How a scan goes through a text. -/
@[elab_as_elim]
theorem scanInduction {motive : List Char → Prop} (nil : motive []) (quote : ∀ cs, motive ('"' :: cs))
    (dangling : ∀ cs, Dangling cs → motive cs)
    (pair : ∀ c cs, c ≠ '\n' → motive cs → motive ('\\' :: c :: cs))
    (plain : ∀ c cs, c ≠ '"' → c ≠ '\\' → motive cs → motive (c :: cs)) (cs : List Char) : motive cs := by
  induction hlength : cs.length using Nat.strongRecOn generalizing cs with
  | ind n ih =>
    subst hlength
    rcases cs with _ | ⟨c, cs⟩
    · exact nil
    by_cases hquote : c = '"'
    · exact hquote ▸ quote cs
    by_cases hbackslash : c = '\\'
    · subst hbackslash
      by_cases hbelow : ∀ d ∈ cs.head?, d = '\n'
      · exact dangling _ ⟨cs, rfl, hbelow⟩
      rcases cs with _ | ⟨d, cs⟩
      · exact absurd (by simp) hbelow
      have hshorter : cs.length < ('\\' :: d :: cs).length := by
        rw [List.length_cons, List.length_cons]
        omega
      exact pair d cs (by simpa using hbelow) (ih _ hshorter cs rfl)
    · exact plain c cs hquote hbackslash (ih _ (Nat.lt_succ_self _) cs rfl)

section Scan

variable {c : Char} {cs text body : List Char}

theorem mem_unit : text ∈ unit ↔ (∃ c, c ≠ '\n' ∧ text = ['\\', c]) ∨ ∃ c, (c ≠ '"' ∧ c ≠ '\\') ∧ text = [c] := by
  simp only [unit, Language.mem_add, Language.mem_mul, mem_single]
  refine or_congr_left ⟨?_, ?_⟩
  · rintro ⟨_, rfl, _, ⟨c, hc, rfl⟩, rfl⟩
    exact ⟨c, hc, rfl⟩
  · rintro ⟨c, hc, rfl⟩
    exact ⟨['\\'], rfl, [c], ⟨c, hc, rfl⟩, rfl⟩

theorem append_mem_body (htext : text ∈ unit) (hbody : body ∈ unit∗) : text ++ body ∈ unit∗ := by
  rw [← Language.one_add_self_mul_kstar_eq_kstar]
  exact .inr (Language.append_mem_mul htext hbody)

theorem scan_dangling (h : Dangling cs) : scan cs = ⟨[], []⟩ := by
  obtain ⟨below, rfl, hbelow⟩ := h
  cases below with
  | nil => rfl
  | cons c below => rw [scan, if_pos (hbelow c rfl)]

theorem scan_pair (hline : c ≠ '\n') (cs : List Char) :
    scan ('\\' :: c :: cs) = (scan cs).onto ['\\', c] (unescape c) := by
  rw [scan, if_neg hline]

theorem scan_plain (hquote : c ≠ '"') (hbackslash : c ≠ '\\') (cs : List Char) :
    scan (c :: cs) = (scan cs).onto [c] [c] := by
  rw [scan.eq_def]
  split <;> simp_all

/-- A scan takes a text to its closing quote, or as far as nothing stands in the way. -/
theorem exists_scan (cs : List Char) : ∃ body ∈ unit∗, ∃ rest,
    (scan cs).text = body ++ ['"'] ∧ cs = body ++ '"' :: rest ∨
      (scan cs).text = body ∧ cs = body ++ rest ∧ (rest = [] ∨ Dangling rest) := by
  induction cs using scanInduction with
  | nil => exact ⟨[], Language.nil_mem_kstar _, [], .inr ⟨rfl, rfl, .inl rfl⟩⟩
  | quote cs => exact ⟨[], Language.nil_mem_kstar _, cs, .inl ⟨rfl, rfl⟩⟩
  | dangling cs h =>
    exact ⟨[], Language.nil_mem_kstar _, cs, .inr ⟨by rw [scan_dangling h], rfl, .inr h⟩⟩
  | pair c cs hline ih =>
    obtain ⟨body, hbody, rest, h⟩ := ih
    refine ⟨['\\', c] ++ body, append_mem_body (mem_unit.mpr (.inl ⟨c, hline, rfl⟩)) hbody, rest, ?_⟩
    simpa [scan_pair hline, Scan.onto] using h
  | plain c cs hquote hbackslash ih =>
    obtain ⟨body, hbody, rest, h⟩ := ih
    refine ⟨[c] ++ body, append_mem_body (mem_unit.mpr (.inr ⟨c, ⟨hquote, hbackslash⟩, rfl⟩)) hbody, rest, ?_⟩
    simpa [scan_plain hquote hbackslash, Scan.onto] using h

/-- A scan goes on behind what the pattern takes without closing it. -/
theorem text_scan_append (hbody : body ∈ unit∗) (cs : List Char) :
    (scan (body ++ cs)).text = body ++ (scan cs).text := by
  obtain ⟨parts, rfl, hparts⟩ := Language.mem_kstar.mp hbody
  clear hbody
  induction parts with
  | nil => rfl
  | cons part parts ih =>
    obtain ⟨hpart, hrest⟩ := List.forall_mem_cons.mp hparts
    have hscan := ih hrest
    rcases mem_unit.mp hpart with ⟨c, hline, rfl⟩ | ⟨c, ⟨hquote, hbackslash⟩, rfl⟩
    · simp [scan_pair hline, Scan.onto, hscan]
    · simp [scan_plain hquote hbackslash, Scan.onto, hscan]

/-- What is in a literal is none that goes on to the closing quote. -/
theorem append_quote_notMem_body (hbody : body ∈ unit∗) : body ++ ['"'] ∉ unit∗ := by
  -- before two quotes, a scan would stop behind the first of them and behind the second
  intro hclosed
  have hshort := text_scan_append hbody ['"', '"']
  have hlong := text_scan_append hclosed ['"']
  rw [List.append_assoc, List.singleton_append, hshort] at hlong
  simpa [scan] using congrArg List.length hlong

/-! The extent and the value of a literal -/

theorem bodyLengthFrom_dangling (h : Dangling cs) (n : Nat) : bodyLengthFrom n cs = n := by
  obtain ⟨below, rfl, hbelow⟩ := h
  cases below with
  | nil => rfl
  | cons c below => rw [bodyLengthFrom, if_pos (hbelow c rfl)]

theorem bodyLengthFrom_eq (n : Nat) (cs : List Char) : bodyLengthFrom n cs = n + (scan cs).text.length := by
  induction cs using scanInduction generalizing n with
  | nil | quote => rfl
  | dangling cs h => simp [scan_dangling h, bodyLengthFrom_dangling h]
  | pair c cs hline ih =>
    rw [bodyLengthFrom, if_neg hline, ih, scan_pair hline]
    simp only [Scan.onto, List.length_append, List.length_cons, List.length_nil]
    omega
  | plain c cs hquote hbackslash ih =>
    rw [bodyLengthFrom_plain hquote hbackslash, ih, scan_plain hquote hbackslash]
    simp only [Scan.onto, List.length_append, List.length_singleton]
    omega

/-- The extent of a literal is that of a scan. -/
theorem bodyLength_eq (cs : List Char) : bodyLength cs = (scan cs).text.length := by
  rw [bodyLength, bodyLengthFrom_eq, Nat.zero_add]

theorem escaped?_cases (c : Char) : (∃ d, escaped? c = some d ∧ unescape c = [d]) ∨
    (escaped? c = none ∧ unescape c = ['\\', c] ∧ c ≠ '"' ∧ c ≠ '\\') := by
  unfold escaped?
  split
  · exact .inl ⟨_, rfl, rfl⟩
  · exact .inl ⟨_, rfl, rfl⟩
  · exact .inl ⟨_, rfl, rfl⟩
  · exact .inl ⟨_, rfl, rfl⟩
  · exact .inl ⟨_, rfl, rfl⟩
  · refine .inr ⟨rfl, ?_, by assumption, by assumption⟩
    unfold unescape
    split <;> first | rfl | contradiction

theorem decodeOnto_scan (acc : String) (cs : List Char) :
    decodeOnto acc (scan cs).text = acc ++ String.ofList (scan cs).value := by
  induction cs using scanInduction generalizing acc with
  | nil | quote cs => simp [scan, decodeOnto]
  | dangling cs h => simp [scan_dangling h, decodeOnto]
  | pair c cs hline ih =>
    rw [scan_pair hline]
    rcases escaped?_cases c with ⟨d, hd, hvalue⟩ | ⟨hnone, hvalue, hquote, hbackslash⟩
    · simp only [Scan.onto, List.cons_append, List.nil_append, decodeOnto, hd, hvalue, ih, push_append_ofList]
    · simp only [Scan.onto, List.cons_append, List.nil_append, decodeOnto, hnone, hvalue,
        decodeOnto_plain hquote hbackslash, ih, push_append_ofList]
  | plain c cs hquote hbackslash ih =>
    simp only [scan_plain hquote hbackslash, Scan.onto, List.cons_append, List.nil_append,
      decodeOnto_plain hquote hbackslash, ih, push_append_ofList]

/-- The value of a literal is that of a scan. -/
theorem decode_scan (cs : List Char) : decode (scan cs).text = String.ofList (scan cs).value := by
  rw [decode, decodeOnto_scan, String.empty_append]

/-! What the pattern takes -/

theorem mem_pattern :
    text ∈ pattern ↔ ∃ body ∈ unit∗, text = '"' :: body ∨ text = '"' :: (body ++ ['"']) := by
  simp only [pattern, Language.mem_mul, Language.mem_add, Language.mem_one]
  constructor
  · rintro ⟨_, ⟨_, rfl, body, hbody, rfl⟩, _, rfl | rfl, rfl⟩
    · exact ⟨body, hbody, .inl (by simp)⟩
    · exact ⟨body, hbody, .inr (by simp)⟩
  · rintro ⟨body, hbody, rfl | rfl⟩
    · exact ⟨_, ⟨_, rfl, body, hbody, rfl⟩, _, .inl rfl, by simp⟩
    · exact ⟨_, ⟨_, rfl, body, hbody, rfl⟩, _, .inr rfl, by simp⟩

theorem scan_mem_pattern (cs : List Char) : '"' :: (scan cs).text ∈ pattern := by
  obtain ⟨body, hbody, rest, ⟨htext, -⟩ | ⟨htext, -, -⟩⟩ := exists_scan cs
  · exact mem_pattern.mpr ⟨body, hbody, .inr (by rw [htext])⟩
  · exact mem_pattern.mpr ⟨body, hbody, .inl (by rw [htext])⟩

theorem text_scan_isPrefix (cs : List Char) : (scan cs).text <+: cs := by
  obtain ⟨body, -, rest, ⟨htext, hcs⟩ | ⟨htext, hcs, -⟩⟩ := exists_scan cs
  · exact ⟨rest, by simp [htext, ← hcs]⟩
  · exact ⟨rest, by rw [htext, ← hcs]⟩

/-- No more of a text follows the pattern than a scan takes. -/
theorem length_le_of_mem_pattern (h : text ∈ pattern) (hpre : text <+: '"' :: cs) :
    text.length ≤ 1 + (scan cs).text.length := by
  obtain ⟨rest, hrest⟩ := hpre
  obtain ⟨body, hbody, rfl | rfl⟩ := mem_pattern.mp h
  · obtain rfl : body ++ rest = cs := (List.cons.inj hrest).2
    rw [text_scan_append hbody]
    simp only [List.length_cons, List.length_append]
    omega
  · obtain rfl : body ++ '"' :: rest = cs := by simpa using hrest
    rw [text_scan_append hbody]
    simp only [scan, List.length_cons, List.length_append, List.length_nil]
    omega

end Scan

end Literal
end FrontEnd
