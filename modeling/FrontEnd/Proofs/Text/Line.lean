import FrontEnd.Text.Line

/-!
The line of a text that a place is on, and what the search for it finds.
-/

namespace FrontEnd

/-- A place so many bytes into a text has `column` bytes of its line in front of it, which may end within a character.
Above that line the text ends with a line break, and below it begins with one. -/
structure OnLine (cs : List Char) (offset : Nat) (above line below : List Char) (column : Nat) : Prop where
  eq : cs = above ++ (line ++ below)
  offset_eq : offset = byteLength above + column
  column_le : column ≤ byteLength line
  newline_notMem : '\n' ∉ line
  above_ends : ∀ c ∈ above.getLast?, c = '\n'
  below_begins : ∀ c ∈ below.head?, c = '\n'

/-- There is no line break in the text. -/
def OneLine (text : String) : Prop :=
  '\n' ∉ text.toList

instance : DecidablePred OneLine := fun text => inferInstanceAs (Decidable ('\n' ∉ text.toList))

theorem oneLine_append {s t : String} : OneLine (s ++ t) ↔ OneLine s ∧ OneLine t := by
  unfold OneLine
  rw [String.toList_append, List.mem_append, not_or]

theorem OneLine.append {s t : String} (hs : OneLine s) (ht : OneLine t) : OneLine (s ++ t) :=
  oneLine_append.mpr ⟨hs, ht⟩

theorem OneLine.join {ss : List String} (h : ∀ s ∈ ss, OneLine s) : OneLine (String.join ss) := by
  unfold OneLine
  rw [String.toList_join, List.mem_flatMap]
  rintro ⟨s, hs, hmem⟩
  exact h s hs hmem

theorem OneLine.intercalate {separator : String} {ss : List String} (hseparator : OneLine separator)
    (h : ∀ s ∈ ss, OneLine s) : OneLine (separator.intercalate ss) := by
  induction ss with
  | nil => exact List.not_mem_nil
  | cons s ss ih =>
    obtain ⟨hs, hss⟩ := List.forall_mem_cons.mp h
    cases ss with
    | nil => rwa [String.intercalate_singleton]
    | cons s' ss =>
      rw [String.intercalate_cons_cons]
      exact (hs.append hseparator).append (ih hss)

theorem oneLine_of_isDigit {s : String} (h : ∀ c ∈ s.toList, c.isDigit = true) : OneLine s :=
  fun hmem => absurd (h _ hmem) (by decide)

/-- The text is made of these lines, each with its line break behind it. -/
structure Lined (text : String) (lines : List String) : Prop where
  eq_join : text = String.join (lines.map (· ++ "\n"))
  oneLine : ∀ line ∈ lines, OneLine line

namespace Lined

variable {text text' : String} {lines lines' : List String}

theorem nil : Lined "" [] :=
  ⟨rfl, List.forall_mem_nil _⟩

theorem single (h : OneLine text) : Lined (text ++ "\n") [text] :=
  ⟨by simp [String.join], List.forall_mem_singleton.mpr h⟩

theorem append (h : Lined text lines) (h' : Lined text' lines') : Lined (text ++ text') (lines ++ lines') := by
  refine ⟨?_, List.forall_mem_append.mpr ⟨h.oneLine, h'.oneLine⟩⟩
  rw [h.eq_join, h'.eq_join, List.map_append, String.join_append]

theorem splitOn_eq (h : Lined text lines) : text.toList.splitOn '\n' = lines.map String.toList ++ [[]] := by
  obtain ⟨rfl, hlines⟩ := h
  induction lines with
  | nil => rfl
  | cons line lines ih =>
    obtain ⟨hline, hlines⟩ := List.forall_mem_cons.mp hlines
    have hsplit : (String.join ((line :: lines).map (· ++ "\n"))).toList =
        line.toList ++ '\n' :: (String.join (lines.map (· ++ "\n"))).toList := by simp
    rw [hsplit, List.splitOn_append_cons_self_of_not_mem hline, ih hlines, List.map_cons, List.cons_append]

/-- A text is made of no other lines. -/
theorem unique (h : Lined text lines) (h' : Lined text lines') : lines = lines' := by
  have hsplit := List.append_cancel_right (h.splitOn_eq.symm.trans h'.splitOn_eq)
  exact List.map_inj_right (fun _ _ => String.toList_inj.mp) |>.mp hsplit

end Lined

theorem exists_firstLine (cs : List Char) :
    ∃ line below, cs = line ++ below ∧ '\n' ∉ line ∧ ∀ c ∈ below.head?, c = '\n' := by
  induction cs with
  | nil => exact ⟨[], [], rfl, List.not_mem_nil, fun _ hc => nomatch hc⟩
  | cons c cs ih =>
    by_cases hc : c = '\n'
    · exact ⟨[], c :: cs, rfl, List.not_mem_nil, fun c' hc' => (Option.some.inj hc').symm.trans hc⟩
    · obtain ⟨line, below, rfl, hline, hbelow⟩ := ih
      refine ⟨c :: line, below, rfl, fun hmem => ?_, hbelow⟩
      rcases List.mem_cons.mp hmem with hmem | hmem
      · exact hc hmem.symm
      · exact hline hmem

/-- Induction on the lines of a text, the first cut off at each step. -/
@[elab_as_elim] theorem lineInduction {motive : List Char → Prop} (last : ∀ line, '\n' ∉ line → motive line)
    (more : ∀ line rest, '\n' ∉ line → motive rest → motive (line ++ '\n' :: rest)) (cs : List Char) : motive cs := by
  induction hlength : cs.length using Nat.strongRecOn generalizing cs with
  | ind n ih =>
    obtain ⟨line, below, rfl, hline, hbelow⟩ := exists_firstLine cs
    cases below with
    | nil => exact (List.append_nil line).symm ▸ last line hline
    | cons c rest =>
      obtain rfl := hbelow c rfl
      have hshorter : rest.length < n := by
        rw [← hlength, List.length_append, List.length_cons]
        omega
      exact more line rest hline (ih rest.length hshorter rest rfl)

theorem forall_mem_head?_cons {α : Type} (a : α) (as : List α) : ∀ b ∈ (a :: as).head?, b = a :=
  fun _ hb => (Option.some.inj hb).symm

section Separator

variable {α : Type} [DecidableEq α] {separator : α} {line below : List α}

theorem takeWhile_line (hline : separator ∉ line) (hbelow : ∀ c ∈ below.head?, c = separator) :
    (line ++ below).takeWhile (· ≠ separator) = line := by
  have hfree : ∀ c ∈ line, decide (c ≠ separator) = true := fun c hc => decide_eq_true fun h => hline (h ▸ hc)
  rw [List.takeWhile_append_of_pos hfree]
  cases below with
  | nil => exact List.append_nil line
  | cons c cs => rw [List.takeWhile_cons_of_neg (by simpa using hbelow c rfl), List.append_nil]

theorem dropWhile_line (hline : separator ∉ line) (hbelow : ∀ c ∈ below.head?, c = separator) :
    (line ++ below).dropWhile (· ≠ separator) = below := by
  have happend := List.takeWhile_append_dropWhile (p := (· ≠ separator)) (l := line ++ below)
  rw [takeWhile_line hline hbelow] at happend
  exact List.append_cancel_left happend

end Separator

theorem byteLength_newline_cons (line rest : List Char) :
    byteLength (line ++ '\n' :: rest) = byteLength line + 1 + byteLength rest := by
  rw [byteLength_append, byteLength_cons, show Char.utf8Size '\n' = 1 from rfl, Nat.add_assoc]

/-! The search for a line, in one pass -/

/-- Looks for the place `offset` bytes into `cs`, whose first line has this number. The place before a line break and
the place at the very end belong to the line they end. -/
def linePlaceFrom? (number offset : Nat) (cs : List Char) : Option LinePlace :=
  let line := cs.takeWhile (· ≠ '\n')
  let size := byteLength line
  match _h : cs.dropWhile (· ≠ '\n') with
  | [] => if offset ≤ size then some ⟨number, line, offset⟩ else none
  | _ :: rest =>
    if offset ≤ size then some ⟨number, line ++ ['\n'], offset⟩
    else linePlaceFrom? (number + 1) (offset - (size + 1)) rest
termination_by cs.length
decreasing_by
  have := (List.dropWhile_suffix (l := cs) (· ≠ '\n')).length_le
  rw [_h] at this
  exact this

variable {cs line above below rest : List Char} {lines : List (List Char)} {n start offset column : Nat}

/-- A place on the first line, or behind the last character of it. -/
theorem linePlaceFrom?_of_le (hline : '\n' ∉ line) (hbelow : ∀ c ∈ below.head?, c = '\n')
    (hle : offset ≤ byteLength line) :
    linePlaceFrom? n offset (line ++ below) = some ⟨n, line ++ below.take 1, offset⟩ := by
  rw [linePlaceFrom?, takeWhile_line hline hbelow]
  split <;> rename_i hrest <;> rw [dropWhile_line hline hbelow] at hrest <;> subst hrest
  · rw [if_pos hle, List.take_nil, List.append_nil]
  · obtain rfl := hbelow _ rfl
    rw [if_pos hle, List.take_succ_cons, List.take_zero]

theorem linePlaceFrom?_of_oneLine (hline : '\n' ∉ line) :
    linePlaceFrom? n offset line = if offset ≤ byteLength line then some ⟨n, line, offset⟩ else none := by
  have hend : ∀ c ∈ ([] : List Char).head?, c = '\n' := fun _ hc => nomatch hc
  have htake := takeWhile_line hline hend
  have hdrop := dropWhile_line hline hend
  rw [List.append_nil] at htake hdrop
  rw [linePlaceFrom?, htake]
  split <;> rename_i hrest
  · rfl
  · exact absurd (hdrop.symm.trans hrest) (List.cons_ne_nil _ _).symm

/-- A place behind the line break of the first line. -/
theorem linePlaceFrom?_of_lt (hline : '\n' ∉ line) :
    linePlaceFrom? n (byteLength line + 1 + offset) (line ++ '\n' :: below) = linePlaceFrom? (n + 1) offset below := by
  rw [linePlaceFrom?, takeWhile_line hline (forall_mem_head?_cons _ below)]
  split <;> rename_i hrest <;> rw [dropWhile_line hline (forall_mem_head?_cons _ below)] at hrest
  · exact absurd hrest (List.cons_ne_nil _ below)
  · obtain ⟨-, rfl⟩ := List.cons.inj hrest
    rw [if_neg (by omega), Nat.add_sub_cancel_left]

/-- The search goes past one line after the other, and counts them. -/
theorem linePlaceFrom?_eq (habove : ∀ c ∈ above.getLast?, c = '\n') (hline : '\n' ∉ line)
    (hbelow : ∀ c ∈ below.head?, c = '\n') (hle : column ≤ byteLength line) :
    linePlaceFrom? n (byteLength above + column) (above ++ (line ++ below)) =
      some ⟨n + above.count '\n', line ++ below.take 1, column⟩ := by
  induction above using lineInduction generalizing n with
  | last above hfree =>
    obtain rfl : above = [] := by
      cases hlast : above.getLast? with
      | none => exact List.getLast?_eq_none_iff.mp hlast
      | some c =>
        obtain rfl := habove c hlast
        exact absurd (List.mem_of_getLast? hlast) hfree
    rw [byteLength_nil, Nat.zero_add]
    exact linePlaceFrom?_of_le hline hbelow hle
  | more first rest hfirst ih =>
    have hrest : ∀ c ∈ rest.getLast?, c = '\n' := by
      intro c hc
      apply habove c
      rw [List.getLast?_append, List.getLast?_cons, Option.mem_def.mp hc]
      rfl
    have hbytes : byteLength (first ++ '\n' :: rest) + column =
        byteLength first + 1 + (byteLength rest + column) := by
      rw [byteLength_newline_cons, Nat.add_assoc _ _ column]
    have hcount : (first ++ '\n' :: rest).count '\n' = rest.count '\n' + 1 := by
      rw [List.count_append, List.count_eq_zero_of_not_mem hfirst, Nat.zero_add, List.count_cons_self]
    rw [hbytes, hcount, List.append_assoc, List.cons_append, linePlaceFrom?_of_lt hfirst, ih hrest, Nat.add_assoc n,
      Nat.add_comm 1]

/-- With a line break behind them, any characters are made of lines. -/
theorem exists_lined_ofList (cs : List Char) :
    ∃ lines, Lined (String.ofList cs ++ "\n") lines ∧ lines.length = cs.count '\n' + 1 := by
  induction cs using lineInduction with
  | last line hline =>
    have hfirst : OneLine (String.ofList line) := by rwa [OneLine, String.toList_ofList]
    exact ⟨_, Lined.single hfirst, by rw [List.count_eq_zero_of_not_mem hline, List.length_singleton]⟩
  | more line rest hline ih =>
    have hfirst : OneLine (String.ofList line) := by rwa [OneLine, String.toList_ofList]
    obtain ⟨lines, hlines, hlength⟩ := ih
    have hjoin : String.ofList (line ++ '\n' :: rest) ++ "\n" =
        String.ofList line ++ "\n" ++ (String.ofList rest ++ "\n") := by
      apply String.toList_inj.mp
      simp
    refine ⟨String.ofList line :: lines, hjoin ▸ (Lined.single hfirst).append hlines, ?_⟩
    rw [List.length_cons, hlength, List.count_append, List.count_eq_zero_of_not_mem hline, List.count_cons_self,
      Nat.zero_add]

theorem exists_lined (text : String) :
    ∃ lines, Lined (text ++ "\n") lines ∧ lines.length = text.toList.count '\n' + 1 := by
  have h := exists_lined_ofList text.toList
  rwa [String.ofList_toList] at h

theorem exists_lastLine (cs : List Char) :
    ∃ above line, cs = above ++ line ∧ '\n' ∉ line ∧ ∀ c ∈ above.getLast?, c = '\n' := by
  obtain ⟨line, above, hcs, hline, habove⟩ := exists_firstLine cs.reverse
  refine ⟨above.reverse, line.reverse, ?_, fun hmem => hline (List.mem_reverse.mp hmem), fun c hc => ?_⟩
  · rw [← List.reverse_append, ← hcs, List.reverse_reverse]
  · exact habove c (List.getLast?_reverse ▸ hc)

namespace OnLine

/-- A line above moves the place on by as much as it is long. -/
theorem below_line {first : List Char} (h : OnLine cs offset above line below column) :
    OnLine (first ++ '\n' :: cs) (byteLength first + 1 + offset) (first ++ '\n' :: above) line below column where
  eq := by rw [h.eq, List.append_assoc, List.cons_append]
  offset_eq := by rw [h.offset_eq, byteLength_newline_cons, Nat.add_assoc _ _ column]
  column_le := h.column_le
  newline_notMem := h.newline_notMem
  above_ends := by
    intro c hc
    rw [List.getLast?_append, List.getLast?_cons] at hc
    cases hlast : above.getLast? with
    | none => simpa [hlast] using hc.symm
    | some c' => exact h.above_ends c (by simpa [hlast] using hc)
  below_begins := h.below_begins

theorem placeFrom_eq (h : OnLine cs offset above line below column) :
    linePlaceFrom? n offset cs = some ⟨n + above.count '\n', line ++ below.take 1, column⟩ := by
  rw [h.eq, h.offset_eq]
  exact linePlaceFrom?_eq h.above_ends h.newline_notMem h.below_begins h.column_le

end OnLine

/-- Every place within a text, and that at its end, is on some line. -/
theorem exists_onLine (h : offset ≤ byteLength cs) :
    ∃ above line below column, OnLine cs offset above line below column := by
  induction cs using lineInduction generalizing offset with
  | last line hline =>
    exact ⟨[], line, [], offset, (List.append_nil line).symm, (Nat.zero_add offset).symm, h, hline,
      fun _ hc => (nomatch hc), fun _ hc => (nomatch hc)⟩
  | more first rest hfirst ih =>
    rw [byteLength_newline_cons] at h
    by_cases hle : offset ≤ byteLength first
    · exact ⟨[], first, '\n' :: rest, offset, rfl, (Nat.zero_add offset).symm, hle, hfirst,
        fun _ hc => (nomatch hc), forall_mem_head?_cons _ rest⟩
    · obtain ⟨k, rfl⟩ : ∃ k, offset = byteLength first + 1 + k := Nat.exists_eq_add_of_le (by omega)
      have hk : k ≤ byteLength rest := by omega
      obtain ⟨above, line, below, column, h⟩ := ih hk
      exact ⟨_, line, below, column, h.below_line⟩

/-- Wherever a text is cut in two, the cut is on some line, and cuts that in two as well. -/
theorem exists_onLine_append (pre post : List Char) :
    ∃ above before behind below, OnLine (pre ++ post) (byteLength pre) above (before ++ behind) below
      (byteLength before) := by
  obtain ⟨above, before, rfl, hbefore, habove⟩ := exists_lastLine pre
  obtain ⟨behind, below, rfl, hbehind, hbelow⟩ := exists_firstLine post
  refine ⟨above, before, behind, below, ?_, byteLength_append above before, ?_, fun hmem => ?_, habove, hbelow⟩
  · simp only [List.append_assoc]
  · rw [byteLength_append]
    exact Nat.le_add_right _ _
  · exact (List.mem_append.mp hmem).elim hbefore hbehind

/-! The search among the lines cut apart, with the end looked at by itself -/

theorem brokenLines_of_oneLine (hline : '\n' ∉ line) : brokenLines line = if line.isEmpty then [] else [line] := by
  have hdrop : line.dropWhile (· ≠ '\n') = [] := by
    have hall : (line ++ []).dropWhile (· ≠ '\n') = [] := dropWhile_line hline fun _ hc => nomatch hc
    rwa [List.append_nil] at hall
  rw [brokenLines]
  split <;> rename_i hrest
  · rfl
  · exact absurd (hdrop.symm.trans hrest) (List.cons_ne_nil _ _).symm

theorem brokenLines_newline (hline : '\n' ∉ line) :
    brokenLines (line ++ '\n' :: rest) = (line ++ ['\n']) :: brokenLines rest := by
  rw [brokenLines, takeWhile_line hline (forall_mem_head?_cons _ rest)]
  split <;> rename_i hrest <;> rw [dropWhile_line hline (forall_mem_head?_cons _ rest)] at hrest
  · exact absurd hrest (List.cons_ne_nil _ rest)
  · rw [(List.cons.inj hrest).2]

/-- A line with its line break counts as one more in front of the others. -/
theorem endPlace_newline : endPlace n ((line ++ ['\n']) :: lines) = endPlace (n + 1) lines := by
  cases lines with
  | nil => simp [endPlace]
  | cons line' lines =>
    have hnumber : n + (lines.length + 1 + 1) = n + 1 + (lines.length + 1) := by omega
    simp only [endPlace, List.getLast?_cons_cons, List.length_cons, reduceCtorEq, or_false, hnumber]

/-- On a line with no line break, only the place behind its last byte is left to the end. -/
theorem getD_holdingLine?_of_oneLine (hline : '\n' ∉ line) (h : offset ≤ byteLength line) :
    some ((holdingLine? (start + offset) start n (brokenLines line)).getD (endPlace n (brokenLines line))) =
      linePlaceFrom? n offset line := by
  rw [linePlaceFrom?_of_oneLine hline, if_pos h, brokenLines_of_oneLine hline]
  cases line with
  | nil =>
    obtain rfl : offset = 0 := Nat.le_zero.mp h
    rfl
  | cons c cs =>
    have hlast : (c :: cs).getLast? ≠ some '\n' := fun hc => hline (List.mem_of_getLast? hc)
    rw [List.isEmpty_cons, if_neg Bool.false_ne_true, holdingLine?, holdingLine?]
    split <;> rename_i hheld
    · rw [Option.getD_some, Nat.add_sub_cancel_left]
    · obtain rfl : offset = byteLength (c :: cs) := by omega
      simp [endPlace, hlast]

/-- A place at which a byte stands is found on the line of that byte, and the one that is left at the end. -/
theorem getD_holdingLine? (h : offset ≤ byteLength cs) :
    some ((holdingLine? (start + offset) start n (brokenLines cs)).getD (endPlace n (brokenLines cs))) =
      linePlaceFrom? n offset cs := by
  induction cs using lineInduction generalizing start n offset with
  | last line hline => exact getD_holdingLine?_of_oneLine hline h
  | more first rest hfirst ih =>
    rw [byteLength_newline_cons] at h
    have hbytes : byteLength (first ++ ['\n']) = byteLength first + 1 := byteLength_newline_cons first []
    rw [brokenLines_newline hfirst, holdingLine?, hbytes, endPlace_newline]
    split <;> rename_i hheld
    · have hle : offset ≤ byteLength first := by omega
      rw [linePlaceFrom?_of_le hfirst (forall_mem_head?_cons _ rest) hle, Option.getD_some, Nat.add_sub_cancel_left,
        List.take_succ_cons, List.take_zero]
    · obtain ⟨k, rfl⟩ : ∃ k, offset = byteLength first + 1 + k := Nat.exists_eq_add_of_le (by omega)
      have hstart : start + (byteLength first + 1 + k) = start + (byteLength first + 1) + k := by omega
      rw [hstart, ih (by omega), linePlaceFrom?_of_lt hfirst]

end FrontEnd
