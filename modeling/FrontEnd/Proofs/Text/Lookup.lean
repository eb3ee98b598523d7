import FrontEnd.Proofs.Text.Bytes
import FrontEnd.Proofs.Text.Line

/-!
The search for the line of a place against what it is to find, which is said on the bytes of the text. So the place may
be within a character.
-/

namespace FrontEnd

/-- The place behind the last line break among the bytes, or in front of them all. -/
def lineStart (bytes : List UInt8) : Nat :=
  bytes.length - (bytes.reverse.takeWhile (· ≠ 10)).length

/-- The bytes up to the first line break, and that. -/
def lineBytes (bytes : List UInt8) : List UInt8 :=
  bytes.takeWhile (· ≠ 10) ++ (bytes.dropWhile (· ≠ 10)).take 1

/-- This is the line of the place that has so many bytes in front of it. -/
structure LinePlace.IsAt (place : LinePlace) (bytes : List UInt8) (position : Nat) : Prop where
  number_eq : place.number = (bytes.take position).count 10 + 1
  column_eq : lineStart (bytes.take position) + place.column = position
  text_eq : (String.ofList place.text).toUTF8.toList = lineBytes (bytes.drop (lineStart (bytes.take position)))

section Bytes

variable {above head line below : List UInt8}

theorem lineStart_append (habove : ∀ b ∈ above.getLast?, b = 10) (hhead : 10 ∉ head) :
    lineStart (above ++ head) = above.length := by
  have hlast : ∀ b ∈ above.reverse.head?, b = 10 := by rwa [List.head?_reverse]
  have hline : 10 ∉ head.reverse := fun hmem => hhead (List.mem_reverse.mp hmem)
  rw [lineStart, List.reverse_append, takeWhile_line hline hlast, List.length_reverse, List.length_append,
    Nat.add_sub_cancel]

theorem lineBytes_append (hline : 10 ∉ line) (hbelow : ∀ b ∈ below.head?, b = 10) :
    lineBytes (line ++ below) = line ++ below.take 1 := by
  rw [lineBytes, takeWhile_line hline hbelow, dropWhile_line hline hbelow]

end Bytes

variable {cs above line below : List Char} {n offset column position : Nat} {content : String}

theorem getLast?_utf8_newline (habove : ∀ c ∈ above.getLast?, c = '\n') : ∀ b ∈ (utf8 above).getLast?, b = 10 := by
  cases hlast : above.getLast? with
  | none =>
    rw [List.getLast?_eq_none_iff.mp hlast]
    exact fun b hb => nomatch hb
  | some c =>
    obtain rfl := habove c hlast
    rw [(getLast?_utf8 (by decide)).mpr hlast]
    exact fun b hb => (Option.some.inj hb).symm

theorem head?_utf8_newline (hbelow : ∀ c ∈ below.head?, c = '\n') : ∀ b ∈ (utf8 below).head?, b = 10 := by
  cases below with
  | nil => exact fun b hb => nomatch hb
  | cons c cs =>
    obtain rfl := hbelow c rfl
    exact forall_mem_head?_cons 10 (utf8 cs)

theorem utf8_take_one (hbelow : ∀ c ∈ below.head?, c = '\n') : utf8 (below.take 1) = (utf8 below).take 1 := by
  cases below with
  | nil => rfl
  | cons c cs =>
    obtain rfl := hbelow c rfl
    rfl

namespace OnLine

theorem isAt (h : OnLine content.toList offset above line below column) :
    LinePlace.IsAt ⟨1 + above.count '\n', line ++ below.take 1, column⟩ content.toUTF8.toList offset := by
  have hlast := getLast?_utf8_newline h.above_ends
  have hfree : 10 ∉ utf8 line := fun hmem => h.newline_notMem (newline_mem_utf8.mp hmem)
  have hhead : 10 ∉ (utf8 line).take column := fun hmem => hfree (List.mem_of_mem_take hmem)
  have hbytes : content.toUTF8.toList = utf8 above ++ (utf8 line ++ utf8 below) := by
    rw [toList_toUTF8, h.eq, utf8_append, utf8_append]
  have htake : content.toUTF8.toList.take offset = utf8 above ++ (utf8 line).take column := by
    rw [hbytes, h.offset_eq, ← length_utf8, List.take_length_add_append,
      List.take_append_of_le_length (length_utf8 ▸ h.column_le)]
  have hstart : lineStart (content.toUTF8.toList.take offset) = byteLength above := by
    rw [htake, lineStart_append hlast hhead, length_utf8]
  have hdrop : content.toUTF8.toList.drop (byteLength above) = utf8 line ++ utf8 below := by
    rw [hbytes, ← length_utf8, List.drop_left]
  refine ⟨?_, ?_, ?_⟩
  · have hcount := count_utf8 (a := '\n') (by decide) above
    rw [htake, List.count_append, List.count_eq_zero_of_not_mem hhead]
    exact (Nat.add_comm 1 _).trans (congrArg (· + 1) hcount.symm)
  · rw [hstart, h.offset_eq]
  · rw [hstart, hdrop, lineBytes_append hfree (head?_utf8_newline h.below_begins), toList_toUTF8,
      String.toList_ofList, utf8_append, utf8_take_one h.below_begins]

end OnLine

/-- There is no place behind the end. -/
theorem linePlaceFrom?_eq_none (h : byteLength cs < offset) : linePlaceFrom? n offset cs = none := by
  induction cs using lineInduction generalizing offset n with
  | last line hline => rw [linePlaceFrom?_of_oneLine hline, if_neg (Nat.not_le_of_lt h)]
  | more first rest hfirst ih =>
    rw [byteLength_newline_cons] at h
    obtain ⟨k, rfl⟩ : ∃ k, offset = byteLength first + 1 + k := Nat.exists_eq_add_of_le (by omega)
    rw [linePlaceFrom?_of_lt hfirst]
    exact ih (by omega)

namespace LinePlace.IsAt

/-- There is one such line. -/
theorem unique {place place' : LinePlace} {bytes : List UInt8} (h : place.IsAt bytes position)
    (h' : place'.IsAt bytes position) : place = place' := by
  have hnumber := h.number_eq.trans h'.number_eq.symm
  have hcolumn := Nat.add_left_cancel (h.column_eq.trans h'.column_eq.symm)
  have hbytes := byteArray_eq_of_toList_eq (h.text_eq.trans h'.text_eq.symm)
  have htext := String.ofList_inj.mp (String.toByteArray_inj.mp hbytes)
  cases place
  cases place'
  cases hnumber
  cases hcolumn
  cases htext
  rfl

end LinePlace.IsAt

/-- To look for a byte in every line and then at the end finds what one test for each line does. -/
theorem linePlace?_eq (content : String) (offset : Nat) :
    linePlace? content offset = linePlaceFrom? 1 offset content.toList := by
  have hsize := byteLength_toList content
  rw [linePlace?]
  split <;> rename_i hlt
  · exact (linePlaceFrom?_eq_none (hsize ▸ hlt)).symm
  · have hle : offset ≤ byteLength content.toList := hsize ▸ Nat.le_of_not_lt hlt
    rw [← getD_holdingLine? hle, Nat.zero_add]

theorem OnLine.place_eq (h : OnLine content.toList offset above line below column) :
    linePlace? content offset = some ⟨1 + above.count '\n', line ++ below.take 1, column⟩ := by
  rw [linePlace?_eq, h.placeFrom_eq]

theorem exists_isAt_of_le (h : position ≤ content.utf8ByteSize) :
    ∃ place, linePlace? content position = some place ∧ place.IsAt content.toUTF8.toList position := by
  obtain ⟨above, line, below, column, honLine⟩ := exists_onLine (byteLength_toList content ▸ h)
  exact ⟨_, honLine.place_eq, honLine.isAt⟩

theorem linePlace?_eq_none (h : content.utf8ByteSize < position) : linePlace? content position = none :=
  if_pos h

/-- The search finds nothing just if the place is behind the end, and the line of the place else. -/
theorem linePlace_found_iff (content : String) (position : Nat) :
    (linePlace? content position = none ↔ content.utf8ByteSize < position) ∧
      ∀ place, linePlace? content position = some place ↔
        position ≤ content.utf8ByteSize ∧ place.IsAt content.toUTF8.toList position := by
  rcases Nat.lt_or_ge content.utf8ByteSize position with hlt | hle
  · rw [linePlace?_eq_none hlt]
    exact ⟨⟨fun _ => hlt, fun _ => rfl⟩, fun _ => ⟨fun h => (nomatch h), fun h => absurd h.1 (Nat.not_le_of_lt hlt)⟩⟩
  · obtain ⟨found, hfound, hat⟩ := exists_isAt_of_le hle
    rw [hfound]
    refine ⟨⟨fun h => (nomatch h), fun h => absurd hle (Nat.not_le_of_lt h)⟩, fun _ => ⟨fun h => ?_, fun h => ?_⟩⟩
    · exact ⟨hle, Option.some.inj h ▸ hat⟩
    · rw [hat.unique h.2]

/-- The second byte of the second character, which is on the second line. -/
example : linePlace? "a\né\nb" 3 = some ⟨2, ['é', '\n'], 1⟩ := by decide +kernel

end FrontEnd
