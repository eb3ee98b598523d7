import FrontEnd.Proofs.Parser.Height
import FrontEnd.Proofs.Parser.Nesting

/-!
Trees as high as a nesting limit lets them get: a tower of lists, each in a list with calls on top of it.
-/

namespace FrontEnd

namespace Tower

/-- So many empty argument lists one behind the other. -/
def calls : Nat → List Token
  | 0 => []
  | n + 1 => .loose .openParen "(" :: .loose .closeParen ")" :: calls n

/-- `true`, `[true]()`, `[[true]()]()()` and so on. -/
def tokens : Nat → List Token
  | 0 => [.loose .trueWord "true"]
  | n + 1 => .loose .openBracket "[" :: (tokens n ++ .loose .closeBracket "]" :: calls (n + 1))

def called : Nat → Expr → Expr
  | 0, e => e
  | n + 1, e => called n (.call (.loose .openParen "(") e [])

def tree : Nat → Expr
  | 0 => .bool (.loose .trueWord "true") true
  | n + 1 => called (n + 1) (.array (.loose .openBracket "[") [tree n])

def program (n : Nat) : Program :=
  ⟨[.expr ((tokens n).headD (Token.eof Position.null)) (tree n)]⟩

variable {rise : Nat}

theorem height_called (n : Nat) (e : Expr) (he : 0 < e.height rise) :
    (called n e).height rise = e.height rise + rise * n := by
  induction n generalizing e with
  | zero => rfl
  | succ n ih =>
    have hcall : (Expr.call (.loose .openParen "(") e []).height rise = e.height rise + rise := by
      rw [Expr.height, exprsHeight]
      omega
    rw [called, ih _ (hcall ▸ Nat.add_pos_left he rise), hcall, Nat.mul_succ]
    omega

theorem height_tree (n : Nat) : (tree n).height rise = heightWithin rise (n + 1) := by
  induction n with
  | zero => simp [tree, Expr.height, heightWithin]
  | succ n ih =>
    have harray : (Expr.array (.loose .openBracket "[") [tree n]).height rise = heightWithin rise (n + 1) + 1 := by
      rw [Expr.height, exprsHeight, exprsHeight, ih, Nat.max_zero]
    rw [tree, height_called _ _ (harray ▸ Nat.succ_pos _), harray]
    rfl

theorem free_calls (n : Nat) : ∀ t ∈ calls n, t.kind ≠ .eof := by
  induction n with
  | zero => exact fun t ht => nomatch ht
  | succ n ih =>
    intro t ht
    simp only [calls, List.mem_cons] at ht
    rcases ht with rfl | rfl | ht
    · decide
    · decide
    · exact ih t ht

theorem free_tokens (n : Nat) : ∀ t ∈ tokens n, t.kind ≠ .eof := by
  induction n with
  | zero => simp [tokens, Token.loose]
  | succ n ih =>
    intro t ht
    simp only [tokens, List.mem_cons, List.mem_append] at ht
    rcases ht with rfl | ht | rfl | ht
    · decide
    · exact ih t ht
    · decide
    · exact free_calls (n + 1) t ht

open Grammar Parse

variable {limit : Nat} {stop : Position} {T : List Token} {e : Expr} {h k : Nat}

theorem applied_calls (n : Nat) (hT : Applied Expression T e) : Applied Expression (T ++ calls n) (called n e) := by
  induction n generalizing T e with
  | zero =>
    rw [calls, List.append_nil]
    exact hT
  | succ n ih =>
    have hcall : Applied Expression (T ++ [.loose .openParen "(", .loose .closeParen ")"])
        (.call (.loose .openParen "(") e []) := .call hT rfl .none rfl
    have hcalls := ih hcall
    rwa [List.append_assoc] at hcalls

theorem nests_calls (n : Nat) (hT : Nests limit stop T h k) (hh : k + n < h) :
    Nests limit stop (T ++ calls n) h (k + n) := by
  induction n generalizing T k with
  | zero =>
    rw [calls, List.append_nil]
    exact hT
  | succ n ih =>
    have hcall : Nests limit stop (T ++ [.loose .openParen "(", .loose .closeParen ")"]) (max h (k + 2 + deepestOf []))
        (k + 1) := hT.call rfl rfl fun _ _ _ _ => .none
    have hdeepest : max h (k + 2 + deepestOf []) = h := by
      rw [deepestOf_nil]
      omega
    rw [hdeepest] at hcall
    have hcalls := ih hcall (by omega)
    rwa [List.append_assoc, Nat.add_assoc, Nat.add_comm 1 n] at hcalls

theorem tokens_succ (n : Nat) :
    tokens (n + 1) = (.loose .openBracket "[" :: (tokens n ++ [.loose .closeBracket "]"])) ++ calls (n + 1) := by
  rw [tokens, List.cons_append, List.append_assoc, List.singleton_append]

theorem applied_tokens (n : Nat) : Applied Expression (tokens n) (tree n) := by
  induction n with
  | zero => exact .primary (.atom (.trueWord rfl))
  | succ n ih =>
    rw [tokens_succ]
    exact applied_calls (n + 1) (.primary (.array rfl (.some (.one ih.expression)) rfl))

/-- The tower on so many levels and one takes just as many. -/
theorem nests_tokens (n : Nat) : Nests limit stop (tokens n) (n + 1) n := by
  induction n with
  | zero => exact .atom (.trueWord rfl)
  | succ n ih =>
    rw [tokens_succ]
    have hlist : Nests limit stop (.loose .openBracket "[" :: (tokens n ++ [.loose .closeBracket "]"]))
        (deepestOf [n + 1] + 1) 0 :=
      .array rfl rfl fun m d hfuel hroom => .some (.one (ih.deepens hfuel hroom))
    have hcalls := nests_calls (n + 1) hlist (by simp)
    rwa [Nat.zero_add] at hcalls

theorem derives_tokens (n : Nat) : Derives (tokens n) (program n) := by
  have hexpression := (applied_tokens n).expression
  unfold program
  obtain ⟨t, ts, hts, -⟩ := begins_expression.exists_cons hexpression
  rw [hts] at hexpression ⊢
  exact derives_of_expression hexpression

/-- The tower is parsed with nothing to report, at the limit that just lets it through. -/
theorem parseWithin_tokens (n : Nat) : parseWithin (n + 1) (tokens n) = (program n, []) := by
  have hdeepens : Deepens (n + 1) (TokenBuffer.ofList (tokens n)).stop (exprWithin (fun _ => fail) (n + 1 + 1)) 0
      (tokens n) (n + 1) := (nests_tokens n).deepens (by omega) (by omega)
  obtain ⟨p, hlands⟩ := hdeepens.program
  obtain ⟨q, hq, hat⟩ := hlands _ (Parser.at_withLimit (Parser.reads_withLimit (n + 1) (free_tokens n)))
  have hquiet : (parseWithin (n + 1) (tokens n)).2 = [] := by
    unfold parseWithin
    have hsource : TokenSource.buffer (TokenBuffer.ofList (tokens n)) =
        .buffer ⟨tokens n, (TokenBuffer.ofList (tokens n)).stop⟩ := rfl
    rw [hsource, hq, hat.quiet]
  rcases parseWithin_of_derives (free_tokens n) (derives_tokens n) with ⟨d, hd, -⟩ | hparse
  · rw [hquiet] at hd
    exact nomatch hd
  · exact hparse

end Tower

variable {rise limit : Nat}

/-- No bound on heights is smaller than the one that the towers reach. -/
theorem height_parseWithin_le_iff (rise limit N : Nat) :
    (∀ T : List Token, (parseWithin limit T).1.height rise ≤ N) ↔ limit + rise * (limit * (limit - 1) / 2) ≤ N := by
  rw [← heightWithin_eq]
  constructor
  · intro h
    cases limit with
    | zero => exact Nat.zero_le N
    | succ n =>
      have htower := h (Tower.tokens n)
      have hheight : (Tower.program n).height rise = heightWithin rise (n + 1) := by
        rw [Program.height, Tower.program, stmtsHeight, stmtsHeight, Nat.max_zero]
        exact Tower.height_tree n
      rw [Tower.parseWithin_tokens, hheight] at htower
      exact htower
  · intro h T
    exact Nat.le_trans (height_parseWithin_le limit T) h

/-- The nesting limit bounds heights by no less than 32896. It bounds them by 256, as it is meant to, only if the
operators above what is to their left are not counted. -/
theorem height_parseTokens_le_iff (N : Nat) :
    ((∀ T : List Token, (parseTokens T).1.height 1 ≤ N) ↔ 32896 ≤ N) ∧
      ((∀ T : List Token, (parseTokens T).1.height 0 ≤ N) ↔ maxNestingDepth ≤ N) :=
  ⟨height_parseWithin_le_iff 1 maxNestingDepth N, height_parseWithin_le_iff 0 maxNestingDepth N⟩

end FrontEnd
