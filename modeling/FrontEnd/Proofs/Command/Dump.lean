import FrontEnd.Command.Run
import FrontEnd.Proofs.Diagnostic.Rendering
import FrontEnd.Proofs.Lexer.LineBreak

/-!
Dumps of tokens: a token takes one line of the dump, and one more for each line break in its value, which only a string
can have.
-/

namespace FrontEnd

/-! Line breaks in tokens -/

theorem Lexer.Munches.oneLine_value {l l' : Lexer} {t : Token} (h : l.Munches t l') (hkind : t.kind ≠ .string) :
    OneLine t.value := by
  induction h with
  | eof => exact List.not_mem_nil
  | skip _ _ _ _ _ ih => exact ih hkind
  | @token l rule text kind value hrule hmem _ ht =>
    have hline : rule ≠ .blank → rule ≠ .string → OneLine (String.ofList text) := by
      intro hblank hstring hnewline
      rw [String.toList_ofList] at hnewline
      exact (Rule.blank_or_string_of_newline_mem hrule hmem hnewline).elim hblank hstring
    cases rule with
    | blank | comment => exact absurd ht.symm (Option.some_ne_none _)
    | string => exact absurd (Prod.mk.inj (Option.some.inj ht)).1.symm hkind
    | word | number | symbol k =>
      obtain ⟨-, rfl⟩ := Prod.mk.inj (Option.some.inj ht)
      exact hline (by simp) (by simp)
  | @illegal l c cs hl hfree =>
    intro hnewline
    obtain rfl : '\n' = c := by simpa using hnewline
    have hpre : ['\n'] <+: l.rest := hl ▸ List.prefix_append ['\n'] cs
    exact hfree ['\n'] hpre ⟨.blank, by decide, mem_run.mpr ⟨'\n', [], rfl, by decide, List.forall_mem_nil _⟩⟩

theorem Lexer.Munched.oneLine_value {l : Lexer} {ts : List Token} (h : l.Munched ts) :
    ∀ t ∈ ts, t.kind ≠ .string → OneLine t.value := by
  induction h with
  | last h _ => exact List.forall_mem_singleton.mpr h.oneLine_value
  | more h _ _ ih => exact List.forall_mem_cons.mpr ⟨h.oneLine_value, ih⟩

variable {source label : String} {file : Option String} {t : Token} {ts : List Token}

/-- No token of a text but a string has a line break in it. -/
theorem oneLine_of_mem_tokenize (ht : t ∈ tokenize source file) (hkind : t.kind ≠ .string) : OneLine t.value :=
  (Lexer.ofString source file).tokens_munched.oneLine_value t ht hkind

/-! Lines of a dump -/

/-- A text that is not shown is a fixed one, without a line break. -/
theorem oneLine_of_not_varies (ht : t ∈ tokenize source file) (hvaries : t.kind.varies = false) : OneLine t.value :=
  oneLine_of_mem_tokenize ht fun hkind => absurd (hkind ▸ hvaries) (by decide)

theorem Token.count_dump (h : t.kind.varies = false → OneLine t.value) :
    t.dump.toList.count '\n' = t.value.toList.count '\n' := by
  have hname : t.kind.name.toList.count '\n' = 0 := List.count_eq_zero_of_not_mem t.kind.oneLine_name
  unfold Token.dump
  cases hvaries : t.kind.varies with
  | true => simp [hname]
  | false => simp [hname, List.count_eq_zero_of_not_mem (h hvaries)]

theorem exists_lined_dumps (h : ∀ t ∈ ts, t.dump.toList.count '\n' = t.value.toList.count '\n') :
    ∃ lines, Lined (String.join (ts.map fun t => t.dump ++ "\n")) lines ∧
      lines.length = ts.length + (ts.flatMap fun t => t.value.toList).count '\n' := by
  induction ts with
  | nil => exact ⟨[], Lined.nil, rfl⟩
  | cons t ts ih =>
    obtain ⟨ht, hts⟩ := List.forall_mem_cons.mp h
    obtain ⟨lines, hlines, hlength⟩ := exists_lined t.dump
    obtain ⟨lines', hlines', hlength'⟩ := ih hts
    refine ⟨lines ++ lines', ?_, ?_⟩
    · rw [List.map_cons, String.join_cons]
      exact hlines.append hlines'
    · rw [List.length_append, hlength, hlength', ht, List.length_cons, List.flatMap_cons, List.count_append]
      omega

theorem Token.oneLine_dump_iff (h : t.kind.varies = false → OneLine t.value) : OneLine t.dump ↔ OneLine t.value := by
  unfold OneLine
  rw [← List.count_eq_zero, ← List.count_eq_zero, t.count_dump h]

/-- The dump is cut into the dumps of the tokens just if no string has a line break in it. -/
theorem lined_dumpTokens_iff : Lined (dumpTokens source label) ((tokenize source (some label)).map Token.dump) ↔
    ∀ t ∈ tokenize source (some label), t.kind = .string → OneLine t.value := by
  have hdump : ∀ t ∈ tokenize source (some label), OneLine t.dump ↔ OneLine t.value :=
    fun t ht => t.oneLine_dump_iff (oneLine_of_not_varies ht)
  constructor
  · exact fun h t ht _ => (hdump t ht).mp (h.oneLine _ (List.mem_map_of_mem ht))
  · intro h
    refine ⟨by rw [dumpTokens, List.map_map, Function.comp_def], List.forall_mem_map.mpr fun t ht => ?_⟩
    by_cases hkind : t.kind = .string
    · exact (hdump t ht).mpr (h t ht hkind)
    · exact (hdump t ht).mpr (oneLine_of_mem_tokenize ht hkind)

theorem lexFile_toUTF8 (path source : String) :
    lexFile path (.ok source.toUTF8) = ⟨dumpTokens source (fileLabel path), "", none⟩ := by
  have hdecode : (Except.ok source.toUTF8).bind decodeText = .ok source := by
    rw [Except.bind, decodeText, fromUTF8?_toUTF8]
  unfold lexFile
  rw [hdecode]

/-- A file is dumped in as many lines as it has tokens and as there are line breaks in the values of these. They are the
tokens, one on each line, just if there is no line break in any string. -/
theorem lexFile_lined_iff (path source : String) :
    ∃ out lines, lexFile path (.ok source.toUTF8) = ⟨out, "", none⟩ ∧ Lined out lines ∧
      lines.length = (tokenize source (some (fileLabel path))).length +
        ((tokenize source (some (fileLabel path))).flatMap fun t => t.value.toList).count '\n' ∧
      (lines = (tokenize source (some (fileLabel path))).map Token.dump ↔
        ∀ t ∈ tokenize source (some (fileLabel path)), t.kind = .string → OneLine t.value) := by
  have hcount : ∀ t ∈ tokenize source (some (fileLabel path)),
      t.dump.toList.count '\n' = t.value.toList.count '\n' :=
    fun t ht => t.count_dump (oneLine_of_not_varies ht)
  obtain ⟨lines, hlines, hlength⟩ := exists_lined_dumps hcount
  refine ⟨_, lines, lexFile_toUTF8 path source, hlines, hlength, ?_⟩
  rw [← lined_dumpTokens_iff]
  exact ⟨fun h => h ▸ hlines, fun h => hlines.unique h⟩

/-- One token on two lines, and the end. -/
example : (lexFile "t.mk" (.ok "\"a\\nb\"".toUTF8)).out = "String (a\nb)\nEOF ()\n" := by decide +kernel

end FrontEnd
