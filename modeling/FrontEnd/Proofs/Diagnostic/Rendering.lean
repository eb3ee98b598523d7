import FrontEnd.Diagnostic.Render
import FrontEnd.Proofs.Parser.Regard
import FrontEnd.Proofs.Text.Lookup

/-!
Reports as they are shown: on five lines, of which one shows the line of the text that the report is about and the next
one leads up to a caret.
-/

namespace FrontEnd

variable {cs above line before behind below : List Char} {n offset column : Nat}

theorem byteLength_eq_length_iff : byteLength cs = cs.length ↔ ∀ c ∈ cs, c.utf8Size = 1 := by
  induction cs with
  | nil => exact ⟨fun _ _ hc => (nomatch hc), fun _ => rfl⟩
  | cons c cs ih =>
    have hpos := c.utf8Size_pos
    have hle := length_le_byteLength cs
    rw [List.forall_mem_cons, ← ih, byteLength_cons, List.length_cons]
    omega

theorem utf8Size_of_mem_takeWhile {c : Char} (h : c ∈ cs.takeWhile (· = ' ')) : c.utf8Size = 1 := by
  have hspace : c = ' ' := by simpa using List.all_eq_true.mp List.all_takeWhile c h
  rw [hspace]
  rfl

/-- The spaces left out at the head make no difference to whether bytes and characters are as many. -/
theorem byteLength_dropWhile_eq_length_iff :
    byteLength (cs.dropWhile (· = ' ')) = (cs.dropWhile (· = ' ')).length ↔ ∀ c ∈ cs, c.utf8Size = 1 := by
  have hsplit := List.takeWhile_append_dropWhile (p := (· = ' ')) (l := cs)
  rw [byteLength_eq_length_iff]
  constructor
  · intro h c hc
    rw [← hsplit] at hc
    exact (List.mem_append.mp hc).elim utf8Size_of_mem_takeWhile (h c)
  · exact fun h c hc => h c ((List.dropWhile_sublist _).subset hc)

theorem trimBlankEnd_concat {c : Char} (hc : isBlank c = true) : trimBlankEnd (cs ++ [c]) = trimBlankEnd cs := by
  unfold trimBlankEnd
  rw [List.reverse_append, List.reverse_singleton, List.singleton_append, List.dropWhile_cons_of_pos hc]

theorem mem_of_mem_trimBlankEnd {c : Char} (h : c ∈ trimBlankEnd cs) : c ∈ cs :=
  List.mem_reverse.mp ((List.dropWhile_sublist isBlank).subset (List.mem_reverse.mp h))

/-- What is shown of a line: all but the spaces at its head and the blanks at its end. -/
def shownLine (line : List Char) : String :=
  String.ofList (trimBlankEnd (line.dropWhile (· = ' ')))

theorem oneLine_shownLine {line : List Char} (h : '\n' ∉ line) : OneLine (shownLine line) := by
  unfold OneLine shownLine
  rw [String.toList_ofList]
  exact fun hmem => h ((List.dropWhile_sublist _).subset (mem_of_mem_trimBlankEnd hmem))

/-! The excerpt -/

namespace LinePlace

/-- The line break is blank, so it is not shown. -/
theorem shownText_eq (line : List Char) (column : Nat) (hbelow : ∀ c ∈ below.head?, c = '\n') :
    (⟨n, line ++ below.take 1, column⟩ : LinePlace).shownText = shownLine line := by
  unfold shownText indent shownLine
  rw [drop_takeWhile]
  cases below with
  | nil => rw [List.take_nil, List.append_nil]
  | cons c cs =>
    obtain rfl := hbelow c rfl
    have hdrop : (line ++ ['\n']).dropWhile (· = ' ') = line.dropWhile (· = ' ') ++ ['\n'] := by
      rw [List.dropWhile_append]
      split <;> rename_i hempty
      · rw [List.isEmpty_iff.mp hempty]
        rfl
      · rfl
    rw [List.take_succ_cons, List.take_zero, hdrop, trimBlankEnd_concat (by decide)]

/-- The caret stands as many characters to the right as there are bytes of the line before the place, less the spaces
that are left out. -/
theorem shownColumn_eq (line : List Char) (column : Nat) (hbelow : ∀ c ∈ below.head?, c = '\n') :
    (⟨n, line ++ below.take 1, column⟩ : LinePlace).shownColumn = column - (line.takeWhile (· = ' ')).length := by
  have hspaces : (line ++ below.take 1).takeWhile (· = ' ') = line.takeWhile (· = ' ') := by
    have hbreak : (below.take 1).takeWhile (· = ' ') = [] := by
      cases below with
      | nil => rfl
      | cons c cs =>
        obtain rfl := hbelow c rfl
        rfl
    rw [List.takeWhile_append, hbreak, List.append_nil]
    split <;> rename_i hall
    · exact ((List.takeWhile_prefix _).eq_of_length hall).symm
    · rfl
  rw [shownColumn, indent, hspaces]

/-- The number of the line stands to the left of a bar, which goes on above and below. -/
def bar (place : LinePlace) : String :=
  spaces ((toString place.number).length + 1) ++ "|"

def row (place : LinePlace) : String :=
  toString place.number ++ " | " ++ place.shownText

def caretRow (place : LinePlace) : String :=
  place.bar ++ " " ++ String.ofList (List.replicate place.shownColumn '-') ++ "^"

theorem excerpt_eq (place : LinePlace) :
    place.excerpt = String.join ([place.bar, place.row, place.caretRow].map (· ++ "\n")) := by
  apply String.toList_inj.mp
  simp [excerpt, bar, row, caretRow]

end LinePlace

theorem isDigit_of_mem_toString {c : Char} (h : c ∈ (toString n).toList) : c.isDigit = true := by
  have hdigits : (toString n).toList = Nat.toDigits 10 n := Nat.toList_repr
  exact Nat.isDigit_of_mem_toDigits (by decide) (by decide) (hdigits ▸ h)

theorem oneLine_replicate {c : Char} (hc : c ≠ '\n') (n : Nat) : OneLine (String.ofList (List.replicate n c)) := by
  unfold OneLine
  rw [String.toList_ofList]
  exact fun hmem => hc (List.eq_of_mem_replicate hmem).symm

theorem idxOf?_append_cons {as bs : List Char} {c : Char} (h : c ∉ as) : (as ++ c :: bs).idxOf? c = some as.length := by
  induction as with
  | nil => rw [List.nil_append, List.idxOf?_cons, if_pos (beq_self_eq_true c), List.length_nil]
  | cons a as ih =>
    obtain ⟨hne, hmem⟩ := not_or.mp (fun hor => h (List.mem_cons.mpr hor))
    rw [List.cons_append, List.idxOf?_cons, if_neg (by simpa using fun heq => hne heq.symm), ih hmem,
      Option.map_some, List.length_cons]

namespace LinePlace

variable (place : LinePlace)

theorem oneLine_bar : OneLine place.bar :=
  OneLine.append (oneLine_replicate (by decide) _) (by decide)

theorem oneLine_row (h : OneLine place.shownText) : OneLine place.row :=
  ((oneLine_of_isDigit fun _ => isDigit_of_mem_toString).append (by decide)).append h

theorem oneLine_caretRow : OneLine place.caretRow :=
  ((place.oneLine_bar.append (by decide)).append (oneLine_replicate (by decide) _)).append (by decide)

/-- The number is as wide as the spaces above and below it. -/
theorem idxOf?_bar : ∀ line ∈ [place.bar, place.row, place.caretRow],
    line.toList.idxOf? '|' = some ((toString place.number).length + 1) := by
  have hspaces : '|' ∉ List.replicate ((toString place.number).length + 1) ' ' :=
    fun hmem => absurd (List.eq_of_mem_replicate hmem) (by decide)
  have hnumber : '|' ∉ (toString place.number).toList ++ [' '] := by
    intro hmem
    rcases List.mem_append.mp hmem with hmem | hmem
    · exact absurd (isDigit_of_mem_toString hmem) (by decide)
    · exact absurd (List.mem_singleton.mp hmem) (by decide)
  have hbar : ∀ rest, (place.bar.toList ++ rest).idxOf? '|' = some ((toString place.number).length + 1) := by
    intro rest
    have hsplit : place.bar.toList ++ rest =
        List.replicate ((toString place.number).length + 1) ' ' ++ '|' :: rest := by
      simp [bar, spaces]
    rw [hsplit, idxOf?_append_cons hspaces, List.length_replicate]
  have hrow : place.row.toList =
      ((toString place.number).toList ++ [' ']) ++ '|' :: (' ' :: place.shownText.toList) := by
    simp [row]
  have hcaret : place.caretRow.toList =
      place.bar.toList ++ (' ' :: (List.replicate place.shownColumn '-' ++ ['^'])) := by
    simp [caretRow]
  refine List.forall_mem_cons.mpr ⟨?_, List.forall_mem_cons.mpr ⟨?_, List.forall_mem_singleton.mpr ?_⟩⟩
  · rw [← List.append_nil place.bar.toList, hbar]
  · rw [hrow, idxOf?_append_cons hnumber, List.length_append, String.length_toList, List.length_singleton]
  · rw [hcaret, hbar]

end LinePlace

/-! The headline -/

theorem Kind.oneLine_name (k : Kind) : OneLine k.name := by
  cases k <;> decide

theorem Fault.oneLine_name (fault : Fault) : OneLine fault.name := by
  cases fault <;> simp only [Fault.name] <;> decide

/-- No advice quotes anything but numbers. -/
theorem Fault.oneLine_tip {fault : Fault} {t : Token} {tip : String} (h : fault.Regards t)
    (hnumber : t.kind = .number → OneLine t.value) (htip : fault.tip? = some tip) : OneLine tip := by
  cases fault with
  | unexpectedToken expected found text =>
    obtain rfl := Option.some.inj htip
    exact ((((by decide : OneLine "expected next token to be ").append expected.oneLine_name).append
      (by decide)).append found.oneLine_name).append (by decide)
  | unterminatedBlock opened =>
    obtain rfl := Option.some.inj htip
    decide
  | nestingTooDeep limit =>
    obtain rfl := Option.some.inj htip
    decide
  | noOperand kind text => exact nomatch htip
  | badNumber text =>
    obtain rfl := Option.some.inj htip
    obtain ⟨hkind, rfl⟩ := h
    exact ((by decide : OneLine "Invalid number: `").append (hnumber hkind)).append (by decide)

theorem Diagnostic.Regards.headline {d : Diagnostic} {t : Token} (h : d.Regards t)
    (hnumber : t.kind = .number → OneLine t.value) : ∃ title, d.headline = title ++ "\n" ∧ OneLine title := by
  have herror : OneLine ("Error: " ++ d.fault.name) :=
    (by decide : OneLine "Error: ").append d.fault.oneLine_name
  unfold Diagnostic.headline
  cases htip : d.fault.tip? with
  | none => exact ⟨_, rfl, herror⟩
  | some tip =>
    refine ⟨"Error: " ++ d.fault.name ++ " (" ++ tip ++ ")", ?_, ?_⟩
    · apply String.toList_inj.mp
      simp
    · exact ((herror.append (by decide)).append (Fault.oneLine_tip h.fault hnumber htip)).append (by decide)

/-! Reports about a text -/

variable {source label : String} {file : Option String} {d : Diagnostic}

/-- What is reported about a text is about one of its tokens, and so has its place on one of its lines. If each byte of
the text has an offset of its own, the place is where a character starts, or the end. -/
theorem exists_onLine_of_mem_parse (hd : d ∈ (parse source file).2) :
    ∃ t ∈ tokenize source file, d.Regards t ∧ (t.kind = .number → OneLine t.value) ∧
      ∃ above line below column, OnLine source.toList d.position.offset.toNat above line below column ∧
        (source.utf8ByteSize < 2 ^ 32 → ∃ before behind, line = before ++ behind ∧ column = byteLength before) := by
  obtain ⟨t, ht, hregards⟩ := exists_regards_of_mem_parse hd
  refine ⟨t, ht, hregards, fun hkind => ?_, ?_⟩
  · obtain ⟨T, stop, h⟩ := exists_tokenizes source file
    rw [h.tokenize_eq] at ht
    rcases List.mem_append.mp ht with ht | ht
    · exact oneLine_of_isDigit (t.isNumeral (h.genuine t ht) hkind).2
    · rw [List.mem_singleton.mp ht] at hkind
      exact nomatch hkind
  · obtain ⟨pre, text, post, hcovers, -⟩ := exists_spells_of_mem_tokenize ht
    rw [hregards.position_eq]
    by_cases hsize : source.utf8ByteSize < 2 ^ 32
    · have hcut : source.toList = pre ++ (text ++ post) := by
        rw [hcovers.source_eq, String.toList_ofList, List.append_assoc]
      obtain ⟨above, before, behind, below, honLine⟩ := exists_onLine_append pre (text ++ post)
      rw [← hcut, ← hcovers.start_eq hsize] at honLine
      exact ⟨above, _, below, _, honLine, fun _ => ⟨before, behind, rfl, rfl⟩⟩
    · have hle : t.span.start.offset.toNat ≤ byteLength source.toList := byteLength_toList source ▸ hcovers.offset_le.1
      obtain ⟨above, line, below, column, honLine⟩ := exists_onLine hle
      exact ⟨above, line, below, column, honLine, fun h => absurd h hsize⟩

/-- The number of the line is one more than that of the line breaks before the place. -/
theorem OnLine.exists_place (h : OnLine source.toList offset above line below column) :
    ∃ place, linePlace? source offset = some place ∧
      place.number = (source.toUTF8.toList.take offset).count 10 + 1 ∧
      place.shownText = shownLine line ∧ place.shownColumn = column - (line.takeWhile (· = ' ')).length :=
  ⟨_, h.place_eq, h.isAt.number_eq, LinePlace.shownText_eq _ _ h.below_begins, LinePlace.shownColumn_eq _ _ h.below_begins⟩

theorem Diagnostic.render_eq {place : LinePlace} (h : linePlace? source d.position.offset.toNat = some place) :
    d.render source label = d.headline ++ "-> " ++ label ++ "\n" ++ place.excerpt := by
  unfold Diagnostic.render
  rw [h]

/-- The report is shown on these five lines. -/
structure Diagnostic.Shown (d : Diagnostic) (source label title bar row caretRow : String) : Prop where
  render_eq : d.render source label = String.join ([title, "-> " ++ label, bar, row, caretRow].map (· ++ "\n"))
  oneLine : ∀ line ∈ [title, "-> " ++ label, bar, row, caretRow], OneLine line
  bars : ∃ column, ∀ line ∈ [bar, row, caretRow], line.toList.idxOf? '|' = some column

/-- Whatever is reported about a text is about one of its tokens, or its end, and stands where that starts. It is shown
on five lines, with the bars of the last three below each other. Between them stands the line of the text that the place
is on, without the spaces at its head and the blanks at its end, under a number that is one more than the line breaks
before the place. -/
theorem render_parse (hlabel : OneLine label) (hd : d ∈ (parse source file).2) :
    (∃ t ∈ tokenize source file, d.Regards t) ∧ (linePlace? source d.position.offset.toNat).isSome = true ∧
      ∃ above line below column, OnLine source.toList d.position.offset.toNat above line below column ∧
        (source.utf8ByteSize < 2 ^ 32 → ∃ before behind, line = before ++ behind ∧ column = byteLength before) ∧
        ∃ title bar row caretRow, d.Shown source label title bar row caretRow ∧
          row = toString ((source.toUTF8.toList.take d.position.offset.toNat).count 10 + 1) ++ " | " ++
            shownLine line := by
  obtain ⟨t, ht, hregards, hnumber, above, line, below, column, honLine, hcut⟩ := exists_onLine_of_mem_parse hd
  obtain ⟨title, htitle, honeTitle⟩ := hregards.headline hnumber
  obtain ⟨place, hplace, hcount, htext, -⟩ := honLine.exists_place
  have honeArrow : OneLine ("-> " ++ label) := OneLine.append (by decide) hlabel
  have honeText : OneLine place.shownText := htext ▸ oneLine_shownLine honLine.newline_notMem
  have hshown : d.Shown source label title place.bar place.row place.caretRow := by
    refine ⟨?_, ?_, _, place.idxOf?_bar⟩
    · rw [Diagnostic.render_eq hplace, htitle, place.excerpt_eq]
      apply String.toList_inj.mp
      simp
    · simp only [List.forall_mem_cons, List.not_mem_nil, false_implies, implies_true, and_true]
      exact ⟨honeTitle, honeArrow, place.oneLine_bar, place.oneLine_row honeText, place.oneLine_caretRow⟩
  refine ⟨⟨t, ht, hregards⟩, hplace ▸ rfl, above, line, below, column, honLine, hcut, title, place.bar, place.row,
    place.caretRow, hshown, ?_⟩
  rw [LinePlace.row, hcount, htext]

/-- The second line lacks an assignment sign. -/
def unassignedText : String :=
  "let x = 1;\n  let y 5;\n"

def unassignedReport : Diagnostic :=
  ⟨.unexpectedToken .assign .number "5", 19, "main.mk"⟩

theorem render_parse_unassigned :
    OneLine "main.mk" ∧ unassignedReport ∈ (parse unassignedText (some "main.mk")).2 ∧
      (∃ t ∈ tokenize unassignedText (some "main.mk"), unassignedReport.Regards t) ∧
      (linePlace? unassignedText unassignedReport.position.offset.toNat).isSome = true ∧
      ∃ above line below column,
        OnLine unassignedText.toList unassignedReport.position.offset.toNat above line below column ∧
        (unassignedText.utf8ByteSize < 2 ^ 32 → ∃ before behind, line = before ++ behind ∧ column = byteLength before) ∧
        ∃ title bar row caretRow, unassignedReport.Shown unassignedText "main.mk" title bar row caretRow ∧
          row = toString ((unassignedText.toUTF8.toList.take unassignedReport.position.offset.toNat).count 10 + 1) ++
            " | " ++ shownLine line := by
  have hlabel : OneLine "main.mk" := by decide
  have hd : unassignedReport ∈ (parse unassignedText (some "main.mk")).2 := by decide +kernel
  exact ⟨hlabel, hd, render_parse hlabel hd⟩

example : unassignedReport.render unassignedText "main.mk" =
    "Error: UnexpectedToken (expected next token to be Assignment, got Number instead)\n" ++
      "-> main.mk\n" ++
      "  |\n" ++
      "2 | let y 5;\n" ++
      "  | ------^\n" := by decide +kernel

/-- The dashes that lead up to the last caret. -/
def dashes (shown : String) : Nat :=
  ((shown.toList.reverse.dropWhile (· ≠ '^')).tail.takeWhile (· = '-')).length

theorem dashes_append_excerpt (front : String) (place : LinePlace) :
    dashes (front ++ place.excerpt) = place.shownColumn := by
  have hend : (front ++ place.excerpt).toList.reverse = '\n' :: '^' :: (List.replicate place.shownColumn '-' ++
      ' ' :: (front ++ place.bar ++ "\n" ++ place.row ++ "\n" ++ place.bar).toList.reverse) := by
    rw [place.excerpt_eq]
    simp [LinePlace.caretRow]
  unfold dashes
  rw [hend, List.dropWhile_cons_of_pos (by decide), List.dropWhile_cons_of_neg (by decide), List.tail_cons,
    List.takeWhile_append_of_pos (by simp), List.takeWhile_cons_of_neg (by decide), List.append_nil,
    List.length_replicate]

/-- What is shown of a line before a place takes as many bytes as there are before the place, less the spaces left
out. -/
theorem byteLength_dropWhile_space (before behind : List Char) :
    byteLength (before.dropWhile (· = ' ')) = byteLength before - ((before ++ behind).takeWhile (· = ' ')).length := by
  have hsplit : byteLength before =
      (before.takeWhile (· = ' ')).length + byteLength (before.dropWhile (· = ' ')) := by
    rw [← byteLength_eq_length_iff.mpr fun _ => utf8Size_of_mem_takeWhile, ← byteLength_append,
      List.takeWhile_append_dropWhile]
  rw [List.takeWhile_append]
  split <;> rename_i hspaces
  · -- There is nothing before the place but spaces, and all of them are left out.
    have hnil : before.dropWhile (· = ' ') = [] := by
      rw [← drop_takeWhile, hspaces, List.drop_length]
    rw [hsplit, hnil, hspaces, List.length_append, byteLength_nil]
    omega
  · omega

/-- The dashes before the caret are as many as the bytes between the first character that is shown of the line and the
place of the report. So where that is no place within a character, the caret stands below it just if all characters
before it on the line are of one byte each. -/
theorem dashes_render_parse (label : String) (hd : d ∈ (parse source file).2) :
    ∃ above line below column, OnLine source.toList d.position.offset.toNat above line below column ∧
      dashes (d.render source label) = column - (line.takeWhile (· = ' ')).length ∧
      (source.utf8ByteSize < 2 ^ 32 → ∃ before behind, line = before ++ behind ∧ column = byteLength before) ∧
      ∀ before behind, line = before ++ behind → column = byteLength before →
        dashes (d.render source label) = byteLength (before.dropWhile (· = ' ')) ∧
        (dashes (d.render source label) = (before.dropWhile (· = ' ')).length ↔ ∀ c ∈ before, c.utf8Size = 1) := by
  obtain ⟨-, -, -, -, above, line, below, column, honLine, hcut⟩ := exists_onLine_of_mem_parse hd
  obtain ⟨place, hplace, -, -, hcolumn⟩ := honLine.exists_place
  have hdashes : dashes (d.render source label) = column - (line.takeWhile (· = ' ')).length := by
    rw [Diagnostic.render_eq hplace, dashes_append_excerpt, hcolumn]
  refine ⟨above, line, below, column, honLine, hdashes, hcut, fun before behind hline hbefore => ?_⟩
  rw [hdashes, hline, hbefore, ← byteLength_dropWhile_space]
  exact ⟨rfl, byteLength_dropWhile_eq_length_iff⟩

/-- Four characters stand before the parenthesis, one of them on two bytes. -/
def accentedText : String :=
  "\"é\" )"

def accentedReport : Diagnostic :=
  ⟨.noOperand .closeParen ")", 5, "main.mk"⟩

theorem dashes_render_parse_accented :
    accentedReport ∈ (parse accentedText (some "main.mk")).2 ∧
      dashes (accentedReport.render accentedText "main.mk") = 5 ∧ accentedText.utf8ByteSize < 2 ^ 32 ∧
      ∃ above line below column,
        OnLine accentedText.toList accentedReport.position.offset.toNat above line below column ∧
        dashes (accentedReport.render accentedText "main.mk") = column - (line.takeWhile (· = ' ')).length ∧
        (accentedText.utf8ByteSize < 2 ^ 32 → ∃ before behind, line = before ++ behind ∧ column = byteLength before) ∧
        ∀ before behind, line = before ++ behind → column = byteLength before →
          dashes (accentedReport.render accentedText "main.mk") = byteLength (before.dropWhile (· = ' ')) ∧
          (dashes (accentedReport.render accentedText "main.mk") = (before.dropWhile (· = ' ')).length ↔
            ∀ c ∈ before, c.utf8Size = 1) := by
  have hd : accentedReport ∈ (parse accentedText (some "main.mk")).2 := by decide +kernel
  have hdashes : dashes (accentedReport.render accentedText "main.mk") = 5 := by decide +kernel
  exact ⟨hd, hdashes, by decide +kernel, dashes_render_parse "main.mk" hd⟩

end FrontEnd
