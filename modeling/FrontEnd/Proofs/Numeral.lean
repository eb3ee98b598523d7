import Mathlib.Data.Nat.Digits.Defs
import Mathlib.Tactic.Ring
import FrontEnd.Proofs.Lexer.Lexeme
import FrontEnd.Proofs.Parser.Reported

/-!
Numbers: which texts of digits have a value, what it is, and what the parser makes of a number token.
-/

namespace FrontEnd

namespace Numeral

/-- What a digit counts for by itself. -/
def worth (c : Char) : Nat :=
  c.toNat - '0'.toNat

/-- What digits amount to in a base. -/
def amount (radix : Nat) (cs : List Char) : Nat :=
  Nat.ofDigits radix (cs.map worth).reverse

/-- Octal is what has more than one digit and begins with a zero. -/
def radix (text : String) : Nat :=
  if text.toList.head? = some '0' ∧ 1 < text.toList.length then 8 else 10

variable {r n m : Nat} {c : Char} {cs : List Char} {text : String}

theorem amount_cons : amount r (c :: cs) = amount r cs + r ^ cs.length * worth c := by
  simpa [amount] using Nat.ofDigits_reverse_cons (b := r) (cs.map worth) (worth c)

theorem digit?_of_isDigit (h : c.isDigit = true) : digit? r c = if worth c < r then some (worth c) else none := by
  unfold digit? worth
  simp only [h, Bool.true_and, decide_eq_true_eq]

/-- What has been read so far is shifted by each digit that is still to come. -/
theorem digitsFrom?_eq_some_iff (h : ∀ c ∈ cs, c.isDigit = true) :
    digitsFrom? r n cs = some m ↔ (∀ c ∈ cs, worth c < r) ∧ m = r ^ cs.length * n + amount r cs := by
  induction cs generalizing n with
  | nil => simp [digitsFrom?, amount, eq_comm]
  | cons c cs ih =>
    obtain ⟨hc, hcs⟩ := List.forall_mem_cons.mp h
    rw [digitsFrom?, digit?_of_isDigit hc, List.forall_mem_cons]
    by_cases hlt : worth c < r
    · have hshift : r ^ cs.length * (n * r + worth c) + amount r cs =
          r ^ (cs.length + 1) * n + (amount r cs + r ^ cs.length * worth c) := by ring
      rw [if_pos hlt, amount_cons, List.length_cons, ← hshift]
      exact (ih hcs).trans (and_congr_left' (and_iff_right hlt).symm)
    · rw [if_neg hlt]
      exact ⟨nofun, fun h => absurd h.1.1 hlt⟩

theorem natural?_eq_some_iff (hne : cs ≠ []) (h : ∀ c ∈ cs, c.isDigit = true) :
    natural? r cs = some n ↔ (∀ c ∈ cs, worth c < r) ∧ n = amount r cs := by
  cases cs with
  | nil => exact absurd rfl hne
  | cons c cs => rw [natural?, digitsFrom?_eq_some_iff h, Nat.mul_zero, Nat.zero_add]

/-- A zero in front makes no difference. -/
theorem natural?_zero_cons (hr : 0 < r) : natural? r ('0' :: c :: cs) = natural? r (c :: cs) := by
  have hzero : digit? r '0' = some 0 := (digit?_of_isDigit (by decide)).trans (if_pos hr)
  rw [natural?, digitsFrom?, hzero, natural?]
  simp only [Nat.zero_mul, Nat.add_zero]

/-- A digit is no sign. -/
theorem signed?_of_isDigit (h : ∀ c ∈ cs, c.isDigit = true) : signed? r cs = (natural? r cs).map Int.ofNat := by
  unfold signed?
  split
  · exact absurd (h '+' List.mem_cons_self) (by decide)
  · exact absurd (h '-' List.mem_cons_self) (by decide)
  · cases natural? r cs <;> rfl

theorem inRange_natCast : inRange (n : Int) = true ↔ (n : Int) ≤ 2 ^ 63 - 1 := by
  have hlow : -bound ≤ (n : Int) := Int.le_trans (by decide) (Int.natCast_nonneg n)
  rw [inRange, decide_eq_true hlow, Bool.true_and, decide_eq_true_eq]
  exact Int.le_sub_one_iff.symm

/-- The zero that makes a text octal may as well be read as one of its digits. -/
theorem value?_eq (h : IsNumeral text) :
    value? text = ((natural? (radix text) text.toList).map Int.ofNat).filter inRange := by
  obtain ⟨-, hdigits⟩ := h
  unfold value? radix
  split
  · rename_i c cs htext
    rw [htext] at hdigits ⊢
    rw [if_pos (by simp), natural?_zero_cons (by decide), signed?_of_isDigit fun d hd => hdigits d (.tail _ hd)]
  · -- all that is left is no digit at all, one digit, or a first digit that is no zero
    rename_i hdecimal
    have hradix : ¬(text.toList.head? = some '0' ∧ 1 < text.toList.length) := by
      rintro ⟨hhead, hlength⟩
      match htext : text.toList with
      | [] => simp [htext] at hhead
      | [c] => simp [htext] at hlength
      | c :: d :: cs =>
        obtain rfl : c = '0' := by simpa [htext] using hhead
        exact hdecimal d cs htext
    rw [if_neg hradix, signed?_of_isDigit hdigits]

theorem value?_eq_some_iff (h : IsNumeral text) {v : Int} :
    value? text = some v ↔ (∀ c ∈ text.toList, worth c < radix text) ∧
      v = amount (radix text) text.toList ∧ 0 ≤ v ∧ v ≤ 2 ^ 63 - 1 := by
  rw [value?_eq h, Option.filter_eq_some_iff, Option.map_eq_some_iff]
  simp only [natural?_eq_some_iff h.1 h.2]
  constructor
  · rintro ⟨⟨n, ⟨hall, rfl⟩, rfl⟩, hrange⟩
    exact ⟨hall, rfl, Int.natCast_nonneg _, inRange_natCast.mp hrange⟩
  · rintro ⟨hall, rfl, -, hle⟩
    exact ⟨⟨_, ⟨hall, rfl⟩, rfl⟩, inRange_natCast.mpr hle⟩

end Numeral

namespace Parse

variable {p : Parser} {token : Token} {v : Int} {text : String}

theorem int_of_value (h : Numeral.value? token.value = some v) : int token p = (some (.int token v), p) := by
  unfold int
  rw [h]
  rfl

theorem int_of_none (h : Numeral.value? token.value = none) :
    int token p = (none, p.report ⟨.badNumber token.value, token.span.start⟩) := by
  unfold int
  rw [h]
  rfl

theorem atom_of_number (h : p.current.kind = .number) : atom p = int p.current p := by
  simp only [atom, bind_apply, current, view, h]

/-- A text of digits has a value just if all of them are digits of its base and a signed word of 64 bits has room for
what they amount to, which then is the value. A number becomes a leaf that has its value and keeps its token. Without a
value it is reported, unless an expression is being given up, and nothing else happens. -/
theorem atom_numeral (h : IsNumeral text) :
    (∀ v : Int, Numeral.value? text = some v ↔ (∀ c ∈ text.toList, Numeral.worth c < Numeral.radix text) ∧
      v = Numeral.amount (Numeral.radix text) text.toList ∧ 0 ≤ v ∧ v ≤ 2 ^ 63 - 1) ∧
    ∀ p : Parser, p.current.kind = .number → p.current.value = text →
      (∃ v, Numeral.value? text = some v ∧ atom p = (some (.int p.current v), p)) ∨
      (Numeral.value? text = none ∧ atom p = (none,
        if p.overflowed then p
        else { p with diagnostics := p.diagnostics.push ⟨.badNumber text, p.current.span.start⟩ })) := by
  refine ⟨fun v => Numeral.value?_eq_some_iff h, fun p hkind htext => ?_⟩
  subst htext
  rw [atom_of_number hkind]
  cases hvalue : Numeral.value? p.current.value with
  | some v => exact .inl ⟨v, rfl, int_of_value hvalue⟩
  | none => exact .inr ⟨rfl, int_of_none hvalue⟩

/-- The greatest number that has a value, and the one behind it. -/
theorem atom_numeral_bounds :
    IsNumeral "0777777777777777777777" ∧ IsNumeral "01000000000000000000000" ∧
    atom (.ofTokens [.loose .number "0777777777777777777777"]) =
      (some (.int (.loose .number "0777777777777777777777") (2 ^ 63 - 1)),
        .ofTokens [.loose .number "0777777777777777777777"]) ∧
    atom (.ofTokens [.loose .number "01000000000000000000000"]) =
      (none, { Parser.ofTokens [.loose .number "01000000000000000000000"] with
        diagnostics := #[⟨.badNumber "01000000000000000000000", .null⟩] }) := by
  have hgreatest : IsNumeral "0777777777777777777777" := ⟨by decide, List.all_eq_true.mp (by decide)⟩
  have hbeyond : IsNumeral "01000000000000000000000" := ⟨by decide, List.all_eq_true.mp (by decide)⟩
  refine ⟨hgreatest, hbeyond, ?_, ?_⟩
  · rcases (atom_numeral hgreatest).2 (.ofTokens [.loose .number "0777777777777777777777"]) rfl rfl with
      ⟨v, hvalue, hatom⟩ | ⟨hvalue, -⟩
    · obtain rfl : v = 2 ^ 63 - 1 := Option.some.inj (hvalue.symm.trans (by decide))
      exact hatom
    · exact absurd hvalue (by decide)
  · rcases (atom_numeral hbeyond).2 (.ofTokens [.loose .number "01000000000000000000000"]) rfl rfl with
      ⟨v, hvalue, -⟩ | ⟨-, hatom⟩
    · exact absurd (hvalue.symm.trans (by decide)) (Option.some_ne_none v)
    · exact hatom

theorem reached_descents {source : TokenSource} (h : p.Reached source) (n : Nat) :
    ((fun q => (descend q).2)^[n] p).Reached source := by
  induction n generalizing p with
  | zero => exact h
  | succ n ih => exact ih h.descend

/-- On a number without a value, one level deeper than allowed. -/
def sunk : Parser :=
  (fun p => (descend p).2)^[maxNestingDepth + 1] (.ofString "08" none)

/-- While an expression is being given up, a number without a value is not reported. -/
theorem atom_sunk : sunk.Reached (.text (Lexer.ofString "08" none)) ∧
    sunk.current.kind = .number ∧ sunk.current.value = "08" ∧ IsNumeral "08" ∧ Numeral.value? "08" = none ∧
    atom sunk = (none, sunk) ∧ sunk.diagnostics.toList.map Diagnostic.fault = [.nestingTooDeep maxNestingDepth] := by
  have hkind : sunk.current.kind = .number := by decide +kernel
  have htext : sunk.current.value = "08" := by decide +kernel
  have hvalue : Numeral.value? "08" = none := by decide
  have hoverflowed : sunk.overflowed = true := by decide +kernel
  refine ⟨reached_descents .start _, hkind, htext, ⟨by decide, List.all_eq_true.mp (by decide)⟩, hvalue, ?_,
    by decide +kernel⟩
  rw [atom_of_number hkind, int_of_none (htext.symm ▸ hvalue)]
  exact congrArg (Prod.mk none) (if_pos hoverflowed)

end Parse

end FrontEnd
