import FrontEnd.Command.Run
import FrontEnd.Proofs.Diagnostic.Rendering
import FrontEnd.Proofs.Print.OneLine
import FrontEnd.Proofs.Text.Bytes

/-!
Sessions: what is written in one is framed by prompts, and each line is answered by itself, with a program on one line
or with reports on one line each.
-/

namespace FrontEnd

/-! Messages -/

theorem newline_ne_digitChar : ∀ n < 16, '\n' ≠ Nat.digitChar n := by
  decide

theorem newline_notMem_toDigits (n : Nat) : '\n' ∉ Nat.toDigits 16 n := by
  induction n using Nat.strongRecOn with
  | ind n ih =>
    rw [Nat.toDigits_eq_if (by decide)]
    split
    · exact fun hmem => newline_ne_digitChar n (by omega) (List.mem_singleton.mp hmem)
    · intro hmem
      rcases List.mem_append.mp hmem with hmem | hmem
      · exact ih (n / 16) (by omega) hmem
      · exact newline_ne_digitChar (n % 16) (by omega) (List.mem_singleton.mp hmem)

theorem newline_notMem_quotedChar (c : Char) : '\n' ∉ quotedChar c := by
  unfold quotedChar
  split
  · decide
  · decide
  · decide
  · decide
  · decide
  · decide
  · rename_i hnewline _ _ _
    have hself : '\n' ∉ [c] := fun hmem => hnewline (List.mem_singleton.mp hmem).symm
    split
    · exact hself
    · split
      · simp [newline_notMem_toDigits]
      · exact hself

theorem oneLine_quoted (text : String) : OneLine (quoted text) :=
  oneLine_ofList_quotes newline_notMem_quotedChar text.toList

/-- Whatever text a message quotes, it stays on one line. -/
theorem Fault.oneLine_message (fault : Fault) : OneLine fault.message := by
  cases fault with
  | unexpectedToken expected found text =>
    exact ((((((by decide : OneLine "expected next token to be ").append expected.oneLine_name).append
      (by decide)).append found.oneLine_name).append (by decide)).append (oneLine_quoted text)).append (by decide)
  | unterminatedBlock opened =>
    exact ((by decide : OneLine "block opened with ").append (oneLine_quoted opened)).append (by decide)
  | nestingTooDeep limit =>
    exact ((by decide : OneLine "expression nested deeper than ").append
      (oneLine_of_isDigit fun _ => isDigit_of_mem_toString)).append (by decide)
  | noOperand kind text =>
    exact ((((by decide : OneLine "no prefix parse function for ").append kind.oneLine_name).append
      (by decide)).append (oneLine_quoted text)).append (by decide)
  | badNumber text =>
    exact ((by decide : OneLine "could not parse ").append (oneLine_quoted text)).append (by decide)

namespace Session

/-! Answers -/

/-- What the line is answered: the program that it is, or what there is to report about it. -/
theorem lined_answer (line : String) :
    ((parse line none).2 = [] → Lined (answer line) [(parse line none).1.print]) ∧
      ((parse line none).2 ≠ [] →
        Lined (answer line) ("parser errors:" :: (parse line none).2.map fun d => "\t" ++ d.message)) := by
  cases hparse : parse line none with
  | mk program found =>
    have hclean : (parse line none).2 = [] → OneLine (parse line none).1.print := oneLine_print_of_parse
    unfold answer
    rw [hparse] at hclean ⊢
    cases found with
    | nil => exact ⟨fun _ => Lined.single (hclean rfl), fun h => absurd rfl h⟩
    | cons d found =>
      refine ⟨fun h => (nomatch h), fun _ => ⟨?_, ?_⟩⟩
      · rw [List.map_cons, String.join_cons, List.map_map]
        rfl
      · refine List.forall_mem_cons.mpr ⟨by decide, List.forall_mem_map.mpr fun d _ => ?_⟩
        exact OneLine.append (by decide) d.fault.oneLine_message

/-! Lines of the input -/

variable {lines : List String} {line input : String}

theorem linesOnto_append {bytes rest : List UInt8} {done : Array ByteArray} {begun text : ByteArray}
    (hfree : 10 ∉ bytes) (htext : text.toList = begun.toList ++ (bytes ++ [10])) :
    linesOnto done begun (bytes ++ 10 :: rest) = linesOnto (done.push text) .empty rest := by
  induction bytes generalizing begun with
  | nil =>
    have hpush : begun.push 10 = text := byteArray_eq_of_toList_eq ((toList_push begun 10).trans htext.symm)
    rw [List.nil_append, linesOnto, if_pos rfl, hpush]
  | cons b bytes ih =>
    obtain ⟨hb, hbytes⟩ := not_or.mp fun hor => hfree (List.mem_cons.mpr hor)
    rw [List.cons_append, linesOnto, if_neg (Ne.symm hb)]
    apply ih hbytes
    rw [htext, toList_push, List.append_assoc, List.singleton_append, List.cons_append]

theorem toList_toUTF8_newline (line : String) : (line ++ "\n").toUTF8.toList = utf8 line.toList ++ [10] := by
  rw [toList_toUTF8, String.toList_append, utf8_append]
  rfl

theorem linesOnto_join (hlines : ∀ line ∈ lines, OneLine line) (done : Array ByteArray) :
    linesOnto done .empty (String.join (lines.map (· ++ "\n"))).toUTF8.toList =
      done ++ (lines.map fun line => (line ++ "\n").toUTF8).toArray := by
  induction lines generalizing done with
  | nil =>
    rw [List.map_nil, String.join_nil, toList_toUTF8]
    exact (if_pos rfl).trans Array.append_empty.symm
  | cons line lines ih =>
    obtain ⟨hline, hlines⟩ := List.forall_mem_cons.mp hlines
    have hfree : 10 ∉ utf8 line.toList := fun hmem => hline (newline_mem_utf8.mp hmem)
    have hbytes : (String.join ((line :: lines).map (· ++ "\n"))).toUTF8.toList =
        utf8 line.toList ++ 10 :: (String.join (lines.map (· ++ "\n"))).toUTF8.toList := by
      rw [toList_toUTF8, toList_toUTF8, List.map_cons, String.join_cons, String.append_assoc, String.toList_append,
        utf8_append, String.toList_append, utf8_append]
      rfl
    have htext : (line ++ "\n").toUTF8.toList = ByteArray.empty.toList ++ (utf8 line.toList ++ [10]) := by
      rw [toList_toUTF8_newline, toList_empty, List.nil_append]
    rw [hbytes, linesOnto_append hfree htext, ih hlines, List.map_cons]
    apply Array.toList_inj.mp
    simp

/-- The input is read back as the lines that it is made of. -/
theorem lines_toUTF8 (hinput : Lined input lines) :
    Session.lines input.toUTF8 = lines.map fun line => (line ++ "\n").toUTF8 := by
  obtain ⟨rfl, hlines⟩ := hinput
  rw [Session.lines, linesOnto_join hlines, Array.toList_append, Array.toList_empty, List.nil_append]

theorem lineText?_toUTF8 (hreturn : line.toList.getLast? ≠ some '\r') :
    lineText? (line ++ "\n").toUTF8 = some line := by
  have hlast : (line ++ "\n").toUTF8.toList.getLast? = some 10 := by
    rw [toList_toUTF8_newline, List.getLast?_concat]
  have hsize : (line ++ "\n").toUTF8.size = line.toUTF8.size + 1 := String.utf8ByteSize_append
  have htext : stripLast 10 (line ++ "\n").toUTF8 = line.toUTF8 := by
    rw [stripLast, if_pos hlast, hsize, Nat.add_sub_cancel]
    apply byteArray_eq_of_toList_eq
    rw [toList_extract_zero, toList_toUTF8_newline, ← toList_toUTF8, ← length_toList, List.take_left]
  have hkeep : stripLast 13 line.toUTF8 = line.toUTF8 := by
    have hnone : line.toUTF8.toList.getLast? ≠ some 13 := by
      rw [toList_toUTF8]
      exact fun h => hreturn ((getLast?_utf8 (by decide)).mp h)
    exact if_neg hnone
  unfold lineText?
  rw [htext]
  dsimp only
  rw [if_pos (by omega), hkeep, fromUTF8?_toUTF8]

theorem answerOnto_eq (hreturn : ∀ line ∈ lines, line.toList.getLast? ≠ some '\r') (out : String) :
    answerOnto out (lines.map fun line => (line ++ "\n").toUTF8) =
      ⟨out ++ String.join (lines.map fun line => prompt ++ answer line) ++ prompt, "", none⟩ := by
  induction lines generalizing out with
  | nil => rw [List.map_nil, List.map_nil, answerOnto, String.join_nil, String.append_empty]
  | cons line lines ih =>
    obtain ⟨hline, hlines⟩ := List.forall_mem_cons.mp hreturn
    rw [List.map_cons, answerOnto, lineText?_toUTF8 hline]
    dsimp only
    rw [ih hlines, List.map_cons, String.join_cons]
    simp only [String.append_assoc]

/-- A session on lines that each end in a line break alone answers one after the other, with a prompt in front of each
and one at the end. An answer is the program on one line, or a line for each report below a headline. -/
theorem run_lined (hinput : Lined input lines) (hreturn : ∀ line ∈ lines, line.toList.getLast? ≠ some '\r') :
    run input.toUTF8 = ⟨String.join (lines.map fun line => prompt ++ answer line) ++ prompt, "", none⟩ ∧
      ∀ line, ((parse line none).2 = [] → Lined (answer line) [(parse line none).1.print]) ∧
        ((parse line none).2 ≠ [] →
          Lined (answer line) ("parser errors:" :: (parse line none).2.map fun d => "\t" ++ d.message)) := by
  refine ⟨?_, lined_answer⟩
  rw [run, lines_toUTF8 hinput, answerOnto_eq hreturn, String.empty_append]

/-- The first line is a string with a line break in it, the second is no program. -/
theorem run_lined_pair : Lined "\"a\\nb\"\n1 + )\n" ["\"a\\nb\"", "1 + )"] ∧
    (∀ line ∈ ["\"a\\nb\"", "1 + )"], line.toList.getLast? ≠ some '\r') ∧
    run "\"a\\nb\"\n1 + )\n".toUTF8 = ⟨">> \"a\\nb\"\n" ++
      ">> parser errors:\n\tno prefix parse function for CloseParen (\")\") found\n" ++ ">> ", "", none⟩ := by
  have hinput : Lined "\"a\\nb\"\n1 + )\n" ["\"a\\nb\"", "1 + )"] := ⟨by decide +kernel, by decide⟩
  have hreturn : ∀ line ∈ ["\"a\\nb\"", "1 + )"], line.toList.getLast? ≠ some '\r' := by decide
  exact ⟨hinput, hreturn, (run_lined hinput hreturn).1.trans (by decide +kernel)⟩

end Session

end FrontEnd
