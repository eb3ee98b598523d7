import Mathlib.Data.String.Basic
import FrontEnd.Proofs.Lexer.Lexeme
import FrontEnd.Proofs.Text.Bytes

/-!
Where the tokens of a text stand: one behind the other, with nothing but blanks and comments between them.
-/

namespace FrontEnd

/-- Blanks and comments in front of the text `cs`, where a comment goes on to the end of its line. -/
inductive Layout (cs : List Char) : List Char → Prop
  | nil : Layout cs []
  | blank {c gap} : isBlank c = true → Layout cs gap → Layout cs (c :: gap)
  | comment {body gap} : '\n' ∉ body → (∀ c ∈ (gap ++ cs).head?, c = '\n') → Layout cs gap →
    Layout cs ('/' :: '/' :: (body ++ gap))

/-- The token stands for this part of a text, which is its value too unless it is a string. -/
structure Token.Spells (t : Token) (text : List Char) : Prop where
  ne_nil : t.kind ≠ .eof → text ≠ []
  value_eq : t.kind ≠ .string → t.value = String.ofList text

/-- These are the tokens of a text that begins at an offset. -/
inductive Tiled (file : String) : Nat → List Char → List Token → Prop
  | eof {offset gap} : Layout [] gap → Tiled file offset gap [Token.eof (.behind (offset + byteLength gap) file)]
  | token {offset gap text cs t ts} : Layout (text ++ cs) gap → t.kind ≠ .eof → t.Spells text →
    t.span = ⟨.behind (offset + byteLength gap) file, .behind (offset + byteLength gap + byteLength text) file⟩ →
    Tiled file (offset + byteLength gap + byteLength text) cs ts → Tiled file offset (gap ++ (text ++ cs)) (t :: ts)

namespace Layout

variable {cs gap gap' : List Char}

theorem append (h : Layout (gap' ++ cs) gap) (h' : Layout cs gap') : Layout cs (gap ++ gap') := by
  induction h with
  | nil => exact h'
  | blank hc _ ih => exact .blank hc ih
  | comment hbody hline _ ih =>
    rw [List.cons_append, List.cons_append, List.append_assoc]
    refine .comment hbody ?_ ih
    rwa [List.append_assoc]

theorem of_blanks (h : ∀ c ∈ gap, isBlank c = true) : Layout cs gap := by
  induction gap with
  | nil => exact .nil
  | cons c gap ih =>
    obtain ⟨hc, hgap⟩ := List.forall_mem_cons.mp h
    exact .blank hc (ih hgap)

end Layout

namespace Rule

variable {cs : List Char} {rule : Rule} {n : Nat}

theorem comment_of_length? (h : comment.length? cs = some n) :
    ∃ body, cs = '/' :: '/' :: body ∧ n = 2 + (body.takeWhile (· ≠ '\n')).length := by
  unfold length? at h
  split at h <;> try contradiction
  exact ⟨_, rfl, (Option.some.inj h).symm⟩

/-- A rule that makes no token takes blanks or a comment. -/
theorem layout_of_token? (h : first? cs = some (rule, n)) (ht : rule.token? (cs.take n) = none) :
    Layout (cs.drop n) (cs.take n) := by
  obtain ⟨-, hlength⟩ := mem_of_first? h
  cases rule with
  | word | number | string | symbol _ => exact absurd ht (Option.some_ne_none _)
  | blank =>
    simp only [length?, run?] at hlength
    split at hlength
    · exact absurd hlength.symm (Option.some_ne_none _)
    · obtain rfl := Option.some.inj hlength
      rw [take_takeWhile]
      exact .of_blanks fun c hc => List.all_eq_true.mp List.all_takeWhile c hc
  | comment =>
    obtain ⟨body, rfl, rfl⟩ := comment_of_length? hlength
    have htake : ('/' :: '/' :: body).take (2 + (body.takeWhile (· ≠ '\n')).length) =
        '/' :: '/' :: (body.takeWhile (· ≠ '\n') ++ []) := by
      rw [Nat.add_comm, List.take_succ_cons, List.take_succ_cons, take_takeWhile, List.append_nil]
    have hdrop : ('/' :: '/' :: body).drop (2 + (body.takeWhile (· ≠ '\n')).length) = body.dropWhile (· ≠ '\n') := by
      rw [Nat.add_comm, List.drop_succ_cons, List.drop_succ_cons, drop_takeWhile]
    rw [htake, hdrop]
    refine .comment (fun hmem => ?_) (fun c hc => ?_) .nil
    · simpa using List.all_eq_true.mp List.all_takeWhile _ hmem
    · have hhead := List.head?_dropWhile_not (· ≠ '\n') body
      rw [List.nil_append, Option.mem_def] at hc
      rw [hc] at hhead
      simpa using hhead

/-- A rule that makes a token makes it of all that it takes. -/
theorem spells_of_token? {kind : Kind} {value : String} {span : Span} (h : first? cs = some (rule, n))
    (ht : rule.token? (cs.take n) = some (kind, value)) : Token.Spells ⟨kind, value, span⟩ (cs.take n) where
  ne_nil _ hnil := by
    rcases List.take_eq_nil_iff.mp hnil with hn | rfl
    · exact absurd hn (Nat.ne_of_gt (first?_pos h))
    · exact nomatch first?_nil.symm.trans h
  value_eq hkind := by
    cases rule with
    | blank | comment => exact absurd ht.symm (Option.some_ne_none _)
    | string =>
      obtain ⟨rfl, -⟩ := Prod.mk.inj (Option.some.inj ht)
      exact absurd rfl hkind
    | word | number | symbol _ => exact (Prod.mk.inj (Option.some.inj ht)).2.symm

end Rule

namespace Tiled

variable {file : String} {offset : Nat} {cs gap : List Char} {ts : List Token}

theorem skip (hgap : Layout cs gap) (h : Tiled file (offset + byteLength gap) cs ts) :
    Tiled file offset (gap ++ cs) ts := by
  cases h with
  | eof hend =>
    have hlayout : Layout [] (gap ++ cs) := Layout.append (by rwa [List.append_nil]) hend
    rw [Nat.add_assoc, ← byteLength_append]
    exact .eof hlayout
  | token hgap' hkind hspells hspan hrest =>
    rw [← List.append_assoc]
    refine .token (hgap.append hgap') hkind hspells ?_ ?_
    · rwa [byteLength_append, ← Nat.add_assoc]
    · rwa [byteLength_append, ← Nat.add_assoc]

end Tiled

namespace Lexer

/-- The next token stands in front of those behind it. -/
theorem next_tiled (l : Lexer) : (l.next.1.kind = .eof ∧ Tiled l.file l.offset l.rest [l.next.1]) ∨
    (l.next.1.kind ≠ .eof ∧ l.next.2.file = l.file ∧
      ∀ ts, Tiled l.file l.next.2.offset l.next.2.rest ts → Tiled l.file l.offset l.rest (l.next.1 :: ts)) := by
  fun_induction next l with
  | case1 l hl =>
    rw [hl]
    exact .inl ⟨rfl, .eof .nil⟩
  | case2 l c cs hl hr =>
    have hkind : Kind.illegal ≠ .eof := by decide
    have hspells : (l.take .illegal (String.singleton c) 1).1.Spells (l.rest.take 1) := by
      rw [hl]
      exact ⟨fun _ => List.cons_ne_nil c _, fun _ => rfl⟩
    refine .inr ⟨hkind, rfl, fun ts h => ?_⟩
    rw [← List.take_append_drop 1 l.rest]
    exact .token .nil hkind hspells rfl h
  | case3 l c cs hl rule n hr kind value ht =>
    rw [← hl] at hr
    have hkind : kind ≠ .eof := by
      rintro rfl
      exact Rule.genuine_of_token? hr ht
    refine .inr ⟨hkind, rfl, fun ts h => ?_⟩
    rw [← List.take_append_drop n l.rest]
    exact .token .nil hkind (Rule.spells_of_token? hr ht) rfl h
  | case4 l c cs hl rule n hr ht ih =>
    rw [← hl] at hr
    have hskip : ∀ ts, Tiled l.file (l.drop n).offset (l.drop n).rest ts → Tiled l.file l.offset l.rest ts := by
      intro ts h
      rw [← List.take_append_drop n l.rest]
      exact .skip (Rule.layout_of_token? hr ht) h
    rcases ih with ⟨hkind, htiled⟩ | ⟨hkind, hfile, htiled⟩
    · exact .inl ⟨hkind, hskip _ htiled⟩
    · exact .inr ⟨hkind, hfile, fun ts h => hskip _ (htiled ts h)⟩

theorem tokens_tiled (l : Lexer) : Tiled l.file l.offset l.rest l.tokens := by
  induction hleft : l.left using Nat.strongRecOn generalizing l with
  | ind n ih =>
    rcases l.next_tiled with ⟨hkind, htiled⟩ | ⟨hkind, hfile, htiled⟩
    · rw [tokens_of_eof hkind]
      exact htiled
    · have hrest := ih l.next.2.left (hleft ▸ l.left_next_lt hkind) l.next.2 rfl
      rw [hfile] at hrest
      rw [tokens_of_ne_eof hkind]
      exact htiled _ hrest

end Lexer

/-! Bytes of a text -/

/-- What stands in the text from where the span starts to where it stops. -/
def Span.text (s : Span) (source : String) : String :=
  String.Pos.Raw.extract source ⟨s.start.offset.toNat⟩ ⟨s.stop.offset.toNat⟩

/-- What stands in the text from here on. -/
def Position.onward (p : Position) (source : String) : String :=
  String.Pos.Raw.extract source ⟨p.offset.toNat⟩ source.rawEndPos

/-- A place between two characters of the text, or at one of its ends. -/
def Position.IsBoundary (p : Position) (source : String) : Prop :=
  (⟨p.offset.toNat⟩ : String.Pos.Raw).IsValid source

/-- The spans before the first of the tokens and from each of them to the next. -/
def gaps : Position → List Token → List Span
  | _, [] => []
  | start, t :: ts => ⟨start, t.span.start⟩ :: gaps t.span.stop ts

/-- The tokens stand in the text in their order and apart from each other, up to one end token at its end, with nothing
but blanks and comments between them. -/
structure Tiles (source file : String) (ts : List Token) : Prop where
  ended : ∃ T, ts = T ++ [Token.eof (.behind source.utf8ByteSize file)] ∧ ∀ t ∈ T, t.kind ≠ .eof
  file_eq : ∀ t ∈ ts, t.span.start.file = file ∧ t.span.stop.file = file
  boundary : ∀ t ∈ ts, t.span.start.IsBoundary source ∧ t.span.stop.IsBoundary source
  apart : ts.Pairwise fun t u => t.span.stop.offset.toNat ≤ u.span.start.offset.toNat
  nonempty : ∀ t ∈ ts, t.kind ≠ .eof → t.span.start.offset.toNat < t.span.stop.offset.toNat
  value_eq : ∀ t ∈ ts, t.kind ≠ .string → t.value = t.span.text source
  layout : ∀ gap ∈ gaps (.behind 0 file) ts, Layout (gap.stop.onward source).toList (gap.text source).toList

/-- The span is that of `text` in the source, which is made of these three parts. -/
structure Span.Covers (s : Span) (source file : String) (pre text post : List Char) : Prop where
  source_eq : source = String.ofList (pre ++ text ++ post)
  eq : s = ⟨.behind (byteLength pre) file, .behind (byteLength pre + byteLength text) file⟩

theorem extract_append (pre text post : List Char) :
    String.Pos.Raw.extract (String.ofList (pre ++ text ++ post)) ⟨byteLength pre⟩ ⟨byteLength pre + byteLength text⟩ =
      String.ofList text := by
  rw [byteLength_eq, byteLength_eq, String.utf8ByteSize_ofList, String.utf8ByteSize_ofList]
  exact String.extract_of_valid pre text post

theorem append_inj_of_byteLength {as bs cs ds : List Char} (h : as ++ bs = cs ++ ds)
    (hbytes : byteLength as = byteLength cs) : as = cs ∧ bs = ds := by
  have hnil : ∀ {xs es : List Char}, byteLength xs = byteLength (xs ++ es) → es = [] := by
    intro xs es heq
    rw [byteLength_append] at heq
    have hlength := length_le_byteLength es
    exact List.length_eq_zero_iff.mp (by omega)
  rcases List.append_eq_append_iff.mp h with ⟨es, rfl, rfl⟩ | ⟨es, rfl, rfl⟩
  · obtain rfl := hnil hbytes
    exact ⟨(List.append_nil as).symm, rfl⟩
  · obtain rfl := hnil hbytes.symm
    exact ⟨List.append_nil cs, rfl⟩

namespace Position

theorem isBoundary_of_append {pre post : List Char} {p : Position} (h : p.offset.toNat = byteLength pre) :
    p.IsBoundary (String.ofList (pre ++ post)) := by
  unfold IsBoundary
  rw [h, byteLength_eq]
  exact String.Pos.Raw.isValid_iff_exists_append.mpr ⟨_, _, String.ofList_append, rfl⟩

theorem toNat_behind (bytes : Nat) (file : String) : (behind bytes file).offset.toNat = bytes % 2 ^ 32 :=
  UInt32.toNat_ofNat'

theorem toNat_behind_of_lt {bytes : Nat} (file : String) (h : bytes < 2 ^ 32) :
    (behind bytes file).offset.toNat = bytes :=
  UInt32.toNat_ofNat_of_lt' h

theorem toNat_shifted {n : Nat} {p : Position} (h : p.offset.toNat + n < 2 ^ 32) :
    (p.shifted n).offset.toNat = p.offset.toNat + n := by
  have hn : (UInt32.ofNat n).toNat = n := UInt32.toNat_ofNat_of_lt' (Nat.lt_of_le_of_lt (Nat.le_add_left n _) h)
  rw [shifted, UInt32.toNat_add, hn, Nat.mod_eq_of_lt h]

end Position

namespace Span.Covers

variable {s : Span} {source file : String} {pre text post pre' text' post' : List Char}

theorem size_eq (h : s.Covers source file pre text post) :
    source.utf8ByteSize = byteLength pre + byteLength text + byteLength post := by
  rw [h.source_eq, ← byteLength_eq, byteLength_append, byteLength_append]

/-- However long the text, no offset lies behind its end. -/
theorem offset_le (h : s.Covers source file pre text post) :
    s.start.offset.toNat ≤ source.utf8ByteSize ∧ s.stop.offset.toNat ≤ source.utf8ByteSize := by
  have hbytes := h.size_eq
  rw [h.eq, Position.toNat_behind, Position.toNat_behind]
  exact ⟨Nat.le_trans (Nat.mod_le _ _) (by omega), Nat.le_trans (Nat.mod_le _ _) (by omega)⟩

section Bounded

variable (hsize : source.utf8ByteSize < 2 ^ 32)

include hsize

theorem start_eq (h : s.Covers source file pre text post) : s.start.offset.toNat = byteLength pre := by
  have hbytes := h.size_eq
  rw [h.eq]
  exact Position.toNat_behind_of_lt _ (by omega)

theorem stop_eq (h : s.Covers source file pre text post) :
    s.stop.offset.toNat = byteLength pre + byteLength text := by
  have hbytes := h.size_eq
  rw [h.eq]
  exact Position.toNat_behind_of_lt _ (by omega)

theorem text_eq (h : s.Covers source file pre text post) : s.text source = String.ofList text := by
  unfold Span.text
  rw [h.start_eq hsize, h.stop_eq hsize, h.source_eq, extract_append]

theorem onward_eq (h : s.Covers source file pre text post) : s.stop.onward source = String.ofList post := by
  have hend : source.rawEndPos = ⟨byteLength (pre ++ text) + byteLength post⟩ := by
    rw [byteLength_append, ← h.size_eq]
    rfl
  unfold Position.onward
  rw [h.stop_eq hsize, hend, ← byteLength_append, h.source_eq, ← List.append_nil (pre ++ text ++ post), extract_append]

theorem boundary (h : s.Covers source file pre text post) :
    s.start.IsBoundary source ∧ s.stop.IsBoundary source := by
  have hstart := h.start_eq hsize
  have hstop := (h.stop_eq hsize).trans (byteLength_append pre text).symm
  rw [h.source_eq]
  constructor
  · rw [List.append_assoc]
    exact Position.isBoundary_of_append hstart
  · exact Position.isBoundary_of_append hstop

/-- A span covers one part of the text only. -/
theorem unique (h : s.Covers source file pre text post) (h' : s.Covers source file pre' text' post') :
    pre = pre' ∧ text = text' ∧ post = post' := by
  have hlist : pre ++ (text ++ post) = pre' ++ (text' ++ post') := by
    simpa only [List.append_assoc] using String.ofList_inj.mp (h.source_eq.symm.trans h'.source_eq)
  have hpre := (h.start_eq hsize).symm.trans (h'.start_eq hsize)
  have hstop := (h.stop_eq hsize).symm.trans (h'.stop_eq hsize)
  obtain ⟨rfl, hrest⟩ := append_inj_of_byteLength hlist hpre
  obtain ⟨rfl, rfl⟩ := append_inj_of_byteLength hrest (Nat.add_left_cancel hstop)
  exact ⟨rfl, rfl, rfl⟩

end Bounded

end Span.Covers

namespace Tiled

variable {source file : String} {offset : Nat} {cs : List Char} {ts : List Token}

theorem exists_ended (h : Tiled file offset cs ts) :
    ∃ T, ts = T ++ [Token.eof (.behind (offset + byteLength cs) file)] ∧ ∀ t ∈ T, t.kind ≠ .eof := by
  induction h with
  | eof _ => exact ⟨[], rfl, fun _ ht => nomatch ht⟩
  | token _ hkind _ _ _ ih =>
    obtain ⟨T, hT, hfree⟩ := ih
    refine ⟨_ :: T, ?_, List.forall_mem_cons.mpr ⟨hkind, hfree⟩⟩
    rw [hT, List.cons_append, byteLength_append, byteLength_append, Nat.add_assoc, Nat.add_assoc]

/-- Each of the tokens stands for the part of the source that its span covers. -/
theorem exists_spells (h : Tiled file offset cs ts) {pre : List Char} (hoffset : offset = byteLength pre)
    (hsource : source = String.ofList (pre ++ cs)) :
    ∀ t ∈ ts, ∃ pre text post, t.span.Covers source file pre text post ∧ t.Spells text := by
  induction h generalizing pre with
  | @eof offset gap _ =>
    refine List.forall_mem_singleton.mpr ⟨pre ++ gap, [], [], ⟨?_, ?_⟩, fun h => absurd rfl h, fun _ => rfl⟩
    · rw [List.append_nil, List.append_nil, hsource]
    · rw [byteLength_append, ← hoffset]
      rfl
  | @token offset gap text cs t ts _ _ hspells hspan _ ih =>
    refine List.forall_mem_cons.mpr ⟨⟨pre ++ gap, text, cs, ⟨?_, ?_⟩, hspells⟩, @ih (pre ++ gap ++ text) ?_ ?_⟩
    · rw [hsource, List.append_assoc, List.append_assoc]
    · rw [hspan, byteLength_append, ← hoffset]
    · rw [byteLength_append, byteLength_append, ← hoffset]
    · rw [hsource, List.append_assoc, List.append_assoc]

/-- Each gap covers a part of the source in which there are only blanks and comments. -/
theorem exists_layout (h : Tiled file offset cs ts) {pre : List Char} (hoffset : offset = byteLength pre)
    (hsource : source = String.ofList (pre ++ cs)) :
    ∀ gap ∈ gaps (.behind offset file) ts, ∃ pre text post, gap.Covers source file pre text post ∧ Layout post text := by
  induction h generalizing pre with
  | @eof offset gap hgap =>
    refine List.forall_mem_singleton.mpr ⟨pre, gap, [], ⟨?_, ?_⟩, hgap⟩
    · rw [List.append_nil, hsource]
    · rw [← hoffset]
      rfl
  | @token offset gap text cs t ts hgap _ _ hspan _ ih =>
    have hrest := @ih (pre ++ gap ++ text) ?_ ?_
    · rw [gaps, hspan]
      refine List.forall_mem_cons.mpr ⟨⟨pre, gap, text ++ cs, ⟨?_, ?_⟩, hgap⟩, hrest⟩
      · rw [hsource, List.append_assoc]
      · rw [← hoffset]
    · rw [byteLength_append, byteLength_append, ← hoffset]
    · rw [hsource, List.append_assoc, List.append_assoc]

theorem le_start (h : Tiled file offset cs ts) (hsize : offset + byteLength cs < 2 ^ 32) :
    ∀ t ∈ ts, offset ≤ t.span.start.offset.toNat := by
  induction h with
  | @eof offset gap _ =>
    refine List.forall_mem_singleton.mpr ?_
    rw [Token.eof, Position.toNat_behind_of_lt file hsize]
    exact Nat.le_add_right _ _
  | @token offset gap text cs t ts _ _ _ hspan _ ih =>
    rw [byteLength_append, byteLength_append] at hsize
    refine List.forall_mem_cons.mpr ⟨?_, fun t ht => ?_⟩
    · rw [hspan, Position.toNat_behind_of_lt file (by omega)]
      exact Nat.le_add_right _ _
    · have hle := ih (by omega) t ht
      omega

theorem apart (h : Tiled file offset cs ts) (hsize : offset + byteLength cs < 2 ^ 32) :
    ts.Pairwise fun t u => t.span.stop.offset.toNat ≤ u.span.start.offset.toNat := by
  induction h with
  | eof _ => exact List.pairwise_singleton _ _
  | @token offset gap text cs t ts _ _ _ hspan hrest ih =>
    rw [byteLength_append, byteLength_append, ← Nat.add_assoc, ← Nat.add_assoc] at hsize
    refine List.pairwise_cons.mpr ⟨?_, ih hsize⟩
    rw [hspan, Position.toNat_behind_of_lt file (by omega)]
    exact hrest.le_start hsize

/-- Tokens that are made of a text from its first byte on tile it, if each of its bytes has an offset of its own. -/
theorem tiles (h : Tiled file 0 source.toList ts) (hsize : source.utf8ByteSize < 2 ^ 32) : Tiles source file ts := by
  have hsource : source = String.ofList ([] ++ source.toList) := String.ofList_toList.symm
  have hspells := h.exists_spells rfl hsource
  have hbytes : 0 + byteLength source.toList = source.utf8ByteSize := by
    rw [Nat.zero_add, byteLength_toList]
  refine { ended := ?_, file_eq := fun t ht => ?_, boundary := fun t ht => ?_, apart := h.apart (hbytes ▸ hsize)
           nonempty := fun t ht hkind => ?_, value_eq := fun t ht hkind => ?_, layout := fun gap hgap => ?_ }
  · obtain ⟨T, hT, hfree⟩ := h.exists_ended
    exact ⟨T, hbytes ▸ hT, hfree⟩
  · obtain ⟨pre, text, post, hcovers, -⟩ := hspells t ht
    rw [hcovers.eq]
    exact ⟨rfl, rfl⟩
  · obtain ⟨pre, text, post, hcovers, -⟩ := hspells t ht
    exact hcovers.boundary hsize
  · obtain ⟨pre, text, post, hcovers, htext⟩ := hspells t ht
    have hpos := List.length_pos_iff.mpr (htext.ne_nil hkind)
    rw [hcovers.start_eq hsize, hcovers.stop_eq hsize]
    exact Nat.lt_add_of_pos_right (Nat.lt_of_lt_of_le hpos (length_le_byteLength text))
  · obtain ⟨pre, text, post, hcovers, htext⟩ := hspells t ht
    exact (htext.value_eq hkind).trans (hcovers.text_eq hsize).symm
  · obtain ⟨pre, text, post, hcovers, hlayout⟩ := h.exists_layout rfl hsource gap hgap
    rwa [hcovers.onward_eq hsize, hcovers.text_eq hsize, String.toList_ofList, String.toList_ofList]

end Tiled

variable {source : String} {file : Option String} {t : Token}

/-- Each token of a text stands for the part of it that its span covers. -/
theorem exists_spells_of_mem_tokenize (h : t ∈ tokenize source file) :
    ∃ pre text post, t.span.Covers source (file.getD "shell") pre text post ∧ t.Spells text :=
  have hsource : source = String.ofList ([] ++ source.toList) := String.ofList_toList.symm
  (Lexer.ofString source file).tokens_tiled.exists_spells rfl hsource t h

/-- The tokens of a text tile it, and behind them the lexer goes on giving the end token. -/
theorem tokenize_tiles (file : Option String) (hsize : source.utf8ByteSize < 2 ^ 32) :
    Tiles source (file.getD "shell") (tokenize source file) ∧
      ∀ k, (TokenSource.text (Lexer.ofString source file)).nth k =
        ((tokenize source file)[k]?).getD (Token.eof (.behind source.utf8ByteSize (file.getD "shell"))) := by
  have htiles : Tiles source (file.getD "shell") (tokenize source file) :=
    Tiled.tiles (Lexer.ofString source file).tokens_tiled hsize
  refine ⟨htiles, fun k => ?_⟩
  obtain ⟨T, stop, htokens, -, -, hnth⟩ := (Lexer.ofString source file).exists_tokens
  obtain ⟨T', hended, -⟩ := htiles.ended
  have hlast := (List.append_inj' (htokens.symm.trans hended) rfl).2
  have htokenize : tokenize source file = T ++ [Token.eof stop] := htokens
  rw [hnth, ← List.singleton_inj.mp hlast, htokenize]
  exact (getElem?_append_replicate_getD T _ 1 k).symm

/-- An open string of characters of more than one byte, behind a comment. -/
def tiledText : String :=
  "é//\"\n  x1 \"日"

theorem tokenize_tiles_open :
    tiledText.utf8ByteSize < 2 ^ 32 ∧ Tiles tiledText "shell" (tokenize tiledText none) ∧
      ∀ k, (TokenSource.text (Lexer.ofString tiledText none)).nth k =
        ((tokenize tiledText none)[k]?).getD (Token.eof (.behind tiledText.utf8ByteSize "shell")) := by
  have hsize : tiledText.utf8ByteSize < 2 ^ 32 := by decide +kernel
  exact ⟨hsize, tokenize_tiles none hsize⟩

end FrontEnd
