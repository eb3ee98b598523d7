import FrontEnd.Text.Width
import Mathlib.Data.List.Basic

/-!
The bytes of a text, and the characters that can be told from them because they take one byte only.
-/

namespace FrontEnd

theorem toList_loop_eq (bytes : ByteArray) (i : Nat) (seen : List UInt8) :
    ByteArray.toList.loop bytes i seen = seen.reverse ++ bytes.data.toList.drop i := by
  fun_induction ByteArray.toList.loop bytes i seen with
  | case1 i seen hi ih =>
    have hlt : i < bytes.data.toList.length := hi
    have hget : bytes.get! i = bytes.data.toList[i] := getElem!_pos bytes.data i hi
    rw [ih, List.drop_eq_getElem_cons hlt, List.reverse_cons, List.append_assoc, List.singleton_append, hget]
  | case2 i seen hi =>
    have hle : bytes.data.toList.length ≤ i := Nat.le_of_not_lt hi
    rw [List.drop_eq_nil_of_le hle, List.append_nil]

theorem toList_eq_data (bytes : ByteArray) : bytes.toList = bytes.data.toList := by
  rw [ByteArray.toList, toList_loop_eq, List.reverse_nil, List.nil_append, List.drop_zero]

theorem length_toList (bytes : ByteArray) : bytes.toList.length = bytes.size := by
  rw [toList_eq_data]
  rfl

theorem byteArray_eq_of_toList_eq {bytes bytes' : ByteArray} (h : bytes.toList = bytes'.toList) : bytes = bytes' := by
  rw [toList_eq_data, toList_eq_data] at h
  exact ByteArray.ext (Array.toList_inj.mp h)

theorem toList_empty : ByteArray.empty.toList = [] := by
  rw [toList_eq_data]
  rfl

theorem toList_push (bytes : ByteArray) (b : UInt8) : (bytes.push b).toList = bytes.toList ++ [b] := by
  rw [toList_eq_data, toList_eq_data, ByteArray.data_push, Array.toList_push]

theorem toList_extract_zero (bytes : ByteArray) (n : Nat) : (bytes.extract 0 n).toList = bytes.toList.take n := by
  rw [toList_eq_data, toList_eq_data, ByteArray.data_extract, Array.toList_extract]
  rfl

/-- The bytes of characters, one after the other. -/
def utf8 (cs : List Char) : List UInt8 :=
  cs.flatMap String.utf8EncodeChar

variable {cs xs ys : List Char} {a c : Char} {b : UInt8}

@[simp] theorem utf8_nil : utf8 [] = [] := rfl

@[simp] theorem utf8_cons : utf8 (c :: cs) = String.utf8EncodeChar c ++ utf8 cs :=
  List.flatMap_cons

@[simp] theorem utf8_append : utf8 (xs ++ ys) = utf8 xs ++ utf8 ys :=
  List.flatMap_append

@[simp] theorem length_utf8 : (utf8 cs).length = byteLength cs := by
  induction cs with
  | nil => rfl
  | cons c cs ih => rw [utf8_cons, List.length_append, String.length_utf8EncodeChar, ih, byteLength_cons]

theorem toList_toUTF8 (s : String) : s.toUTF8.toList = utf8 s.toList := by
  have hbytes : s.toUTF8 = s.toList.utf8Encode := String.utf8Encode_toList.symm
  rw [hbytes, toList_eq_data, List.utf8Encode, List.toList_data_toByteArray, utf8]

theorem fromUTF8?_toUTF8 (s : String) : String.fromUTF8? s.toUTF8 = some s :=
  dif_pos (c := s.toUTF8.IsValidUTF8) s.isValidUTF8

theorem byteLength_eq (cs : List Char) : byteLength cs = (String.ofList cs).utf8ByteSize := by
  have hlength : (String.ofList cs).toUTF8.toList.length = (String.ofList cs).utf8ByteSize := length_toList _
  rw [← hlength, toList_toUTF8, String.toList_ofList, length_utf8]

/-! Characters of one byte -/

theorem byteLength_toList (s : String) : byteLength s.toList = s.utf8ByteSize := by
  rw [byteLength_eq, String.ofList_toList]

theorem le_toNat_ofNat {m n : Nat} (hm : 128 ≤ m) (hn : n + m ≤ 255) : 128 ≤ (UInt8.ofNat (n + m)).toNat := by
  rw [UInt8.toNat_ofNat', Nat.mod_eq_of_lt (by omega)]
  omega

/-- A character takes either one byte or only bytes that no character takes alone. -/
theorem utf8EncodeChar_cases (c : Char) :
    c.toNat < 128 ∧ String.utf8EncodeChar c = [UInt8.ofNat c.toNat] ∨
      128 ≤ c.toNat ∧ ∀ b ∈ String.utf8EncodeChar c, 128 ≤ b.toNat := by
  have hval : c.val.toNat = c.toNat := rfl
  rw [String.utf8EncodeChar, hval]
  by_cases hone : c.toNat ≤ 127
  · exact .inl ⟨by omega, if_pos hone⟩
  · refine .inr ⟨by omega, ?_⟩
    rw [if_neg hone]
    split
    · simp only [List.forall_mem_cons, List.not_mem_nil, false_implies, implies_true, and_true]
      exact ⟨le_toNat_ofNat (by decide) (by omega), le_toNat_ofNat (by decide) (by omega)⟩
    · split
      · simp only [List.forall_mem_cons, List.not_mem_nil, false_implies, implies_true, and_true]
        exact ⟨le_toNat_ofNat (by decide) (by omega), le_toNat_ofNat (by decide) (by omega),
          le_toNat_ofNat (by decide) (by omega)⟩
      · simp only [List.forall_mem_cons, List.not_mem_nil, false_implies, implies_true, and_true]
        exact ⟨le_toNat_ofNat (by decide) (by omega), le_toNat_ofNat (by decide) (by omega),
          le_toNat_ofNat (by decide) (by omega), le_toNat_ofNat (by decide) (by omega)⟩

theorem ofNat_toNat_inj (ha : a.toNat < 128) (hc : c.toNat < 128) :
    UInt8.ofNat c.toNat = UInt8.ofNat a.toNat ↔ c = a := by
  refine ⟨fun h => Char.toNat_inj.mp ?_, fun h => h ▸ rfl⟩
  have hnat := congrArg UInt8.toNat h
  rwa [UInt8.toNat_ofNat', UInt8.toNat_ofNat', Nat.mod_eq_of_lt (by omega), Nat.mod_eq_of_lt (by omega)] at hnat

theorem ofNat_toNat_ne (ha : a.toNat < 128) (hb : 128 ≤ b.toNat) : b ≠ UInt8.ofNat a.toNat := by
  rintro rfl
  rw [UInt8.toNat_ofNat', Nat.mod_eq_of_lt (by omega)] at hb
  omega

theorem count_utf8EncodeChar (ha : a.toNat < 128) (c : Char) :
    (String.utf8EncodeChar c).count (UInt8.ofNat a.toNat) = [c].count a := by
  rcases utf8EncodeChar_cases c with ⟨hc, hone⟩ | ⟨hc, hmore⟩
  · rw [hone, List.count_singleton, List.count_singleton]
    simp only [beq_iff_eq, ofNat_toNat_inj ha hc]
  · rw [List.count_eq_zero_of_not_mem fun hmem => ofNat_toNat_ne ha (hmore _ hmem) rfl,
      List.count_eq_zero_of_not_mem]
    rw [List.mem_singleton]
    rintro rfl
    omega

theorem count_utf8 (ha : a.toNat < 128) (cs : List Char) :
    (utf8 cs).count (UInt8.ofNat a.toNat) = cs.count a := by
  induction cs with
  | nil => rfl
  | cons c cs ih =>
    rw [utf8_cons, List.count_append, count_utf8EncodeChar ha, ih, ← List.count_append, List.singleton_append]

theorem mem_utf8 (ha : a.toNat < 128) : UInt8.ofNat a.toNat ∈ utf8 cs ↔ a ∈ cs := by
  rw [← List.count_pos_iff, count_utf8 ha, List.count_pos_iff]

theorem newline_mem_utf8 : 10 ∈ utf8 cs ↔ '\n' ∈ cs :=
  mem_utf8 (a := '\n') (by decide)

/-- A text ends in such a character just if its bytes do. -/
theorem getLast?_utf8 (ha : a.toNat < 128) :
    (utf8 cs).getLast? = some (UInt8.ofNat a.toNat) ↔ cs.getLast? = some a := by
  rcases List.eq_nil_or_concat' cs with rfl | ⟨cs, c, rfl⟩
  · exact ⟨fun h => (nomatch h), fun h => (nomatch h)⟩
  · have hlast : (utf8 (cs ++ [c])).getLast? = (String.utf8EncodeChar c).getLast? := by
      have hpos := c.utf8Size_pos
      rw [utf8_append, utf8_cons, utf8_nil, List.append_nil, List.getLast?_append_of_ne_nil _ ?_]
      rw [← List.length_pos_iff, String.length_utf8EncodeChar]
      exact hpos
    rw [hlast, List.getLast?_concat]
    rcases utf8EncodeChar_cases c with ⟨hc, hone⟩ | ⟨hc, hmore⟩
    · rw [hone, List.getLast?_singleton, Option.some_inj, Option.some_inj, ofNat_toNat_inj ha hc]
    · refine ⟨fun h => ?_, fun h => ?_⟩
      · exact absurd rfl (ofNat_toNat_ne ha (hmore _ (List.mem_of_getLast? h)))
      · obtain rfl := Option.some.inj h
        omega

end FrontEnd
