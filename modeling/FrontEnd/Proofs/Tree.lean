import FrontEnd.Tree.Basic

/-!
The expressions right inside a tree, and how high a tree is.
-/

namespace FrontEnd

/-- `Q` holds of the expressions right inside the statement. No parse puts a block among the statements. -/
def Stmt.Parts (Q : Expr → Prop) : Stmt → Prop
  | bind _ _ value | ret _ value => ∀ e, value = some e → Q e
  | expr _ value => Q value
  | block _ => False

instance (Q : Expr → Prop) [DecidablePred Q] : DecidablePred (Stmt.Parts Q)
  | .bind _ _ none | .ret _ none => isTrue nofun
  | .bind _ _ (some e) | .ret _ (some e) =>
    decidable_of_iff (Q e) ⟨fun h _ he => Option.some.inj he ▸ h, fun h => h e rfl⟩
  | .expr _ e => inferInstanceAs (Decidable (Q e))
  | .block _ => isFalse id

def Block.Parts (Q : Expr → Prop) (b : Block) : Prop :=
  ∀ s ∈ b.body, s.Parts Q

/-- The expression is an operand, and `Q` holds of the expressions right inside, those in its blocks among them. -/
def Expr.Parts (Q : Expr → Prop) : Expr → Prop
  | ident _ | int _ _ | str _ _ | bool _ _ => True
  | unary _ _ right => Q right
  | cond _ condition consequence alternative =>
    Q condition ∧ consequence.Parts Q ∧ ∀ b, alternative = some b → b.Parts Q
  | fn _ _ body _ => body.Parts Q
  | array _ elements => ∀ e ∈ elements, Q e
  | hash _ entries => ∀ entry ∈ entries, Q entry.key ∧ Q entry.value
  | binary _ _ _ _ | call _ _ _ | index _ _ _ => False

/-- The expression is an operator on top of `left`, and `Q` holds of what stands behind the operator. -/
def Expr.OnTopOf (left : Expr) (Q : Expr → Prop) : Expr → Prop
  | binary _ l _ right => l = left ∧ Q right
  | call _ callee arguments => callee = left ∧ ∀ e ∈ arguments, Q e
  | index _ collection i => collection = left ∧ Q i
  | _ => False

mutual

/-- A leaf has height one, and every other node is one higher than the highest expression inside it. Only above what is
to the left of an operator the operator stands `rise` higher. -/
def Expr.height (rise : Nat) : Expr → Nat
  | .ident _ | .int _ _ | .str _ _ | .bool _ _ => 1
  | .unary _ _ right => right.height rise + 1
  | .binary _ left _ right => max (left.height rise + rise) (right.height rise + 1)
  | .cond _ condition consequence alternative =>
    max (max (condition.height rise) (consequence.height rise)) (optionHeight rise alternative) + 1
  | .fn _ _ body _ => body.height rise + 1
  | .call _ callee arguments => max (callee.height rise + rise) (exprsHeight rise arguments + 1)
  | .array _ elements => exprsHeight rise elements + 1
  | .index _ collection i => max (collection.height rise + rise) (i.height rise + 1)
  | .hash _ entries => entriesHeight rise entries + 1

def Entry.height (rise : Nat) : Entry → Nat
  | .mk key value => max (key.height rise) (value.height rise)

def Stmt.height (rise : Nat) : Stmt → Nat
  | .bind _ _ (some value) | .ret _ (some value) | .expr _ value => value.height rise
  | .bind _ _ none | .ret _ none => 0
  | .block body => body.height rise

def Block.height (rise : Nat) : Block → Nat
  | .mk _ body => stmtsHeight rise body

def optionHeight (rise : Nat) : Option Block → Nat
  | none => 0
  | some b => b.height rise

def exprsHeight (rise : Nat) : List Expr → Nat
  | [] => 0
  | e :: es => max (e.height rise) (exprsHeight rise es)

def entriesHeight (rise : Nat) : List Entry → Nat
  | [] => 0
  | e :: es => max (e.height rise) (entriesHeight rise es)

def stmtsHeight (rise : Nat) : List Stmt → Nat
  | [] => 0
  | s :: ss => max (s.height rise) (stmtsHeight rise ss)

end

/-- The height of the highest expression. -/
def Program.height (rise : Nat) (p : Program) : Nat :=
  stmtsHeight rise p.statements

variable {rise n : Nat}

theorem exprsHeight_le_iff {es : List Expr} : exprsHeight rise es ≤ n ↔ ∀ e ∈ es, e.height rise ≤ n := by
  induction es with
  | nil => simp [exprsHeight]
  | cons e es ih => rw [exprsHeight, Nat.max_le, ih, List.forall_mem_cons]

theorem entriesHeight_le_iff {es : List Entry} :
    entriesHeight rise es ≤ n ↔ ∀ e ∈ es, e.key.height rise ≤ n ∧ e.value.height rise ≤ n := by
  induction es with
  | nil => simp [entriesHeight]
  | cons e es ih =>
    obtain ⟨key, value⟩ := e
    rw [entriesHeight, Entry.height, Nat.max_le, Nat.max_le, ih, List.forall_mem_cons, Entry.key, Entry.value]

theorem stmtsHeight_le_iff {ss : List Stmt} : stmtsHeight rise ss ≤ n ↔ ∀ s ∈ ss, s.height rise ≤ n := by
  induction ss with
  | nil => simp [stmtsHeight]
  | cons s ss ih => rw [stmtsHeight, Nat.max_le, ih, List.forall_mem_cons]

theorem Stmt.Parts.height_le {s : Stmt} (h : s.Parts (·.height rise ≤ n)) : s.height rise ≤ n := by
  cases s with
  | bind token name value =>
    cases value with
    | none => exact Nat.zero_le n
    | some e => exact h e rfl
  | ret token value =>
    cases value with
    | none => exact Nat.zero_le n
    | some e => exact h e rfl
  | expr token e => exact h
  | block body => exact h.elim

theorem Block.Parts.height_le {b : Block} (h : b.Parts (·.height rise ≤ n)) : b.height rise ≤ n := by
  obtain ⟨token, body⟩ := b
  apply stmtsHeight_le_iff.mpr
  intro s hs
  exact (h s hs).height_le

theorem Expr.Parts.height_le {e : Expr} (h : e.Parts (·.height rise ≤ n)) : e.height rise ≤ n + 1 := by
  cases e with
  | ident _ | int _ _ | str _ _ | bool _ _ =>
    rw [Expr.height]
    exact Nat.succ_le_succ (Nat.zero_le n)
  | unary _ _ right =>
    rw [Expr.height]
    exact Nat.succ_le_succ h
  | cond _ condition consequence alternative =>
    rw [Expr.height]
    obtain ⟨hcondition, hconsequence, halternative⟩ := h
    have hoption : optionHeight rise alternative ≤ n := by
      cases alternative with
      | none => exact Nat.zero_le n
      | some b => exact (halternative b rfl).height_le
    have hboth := Nat.max_le.mpr ⟨hcondition, hconsequence.height_le⟩
    exact Nat.succ_le_succ (Nat.max_le.mpr ⟨hboth, hoption⟩)
  | fn _ _ body _ =>
    rw [Expr.height]
    exact Nat.succ_le_succ (Block.Parts.height_le h)
  | array _ elements =>
    rw [Expr.height]
    exact Nat.succ_le_succ (exprsHeight_le_iff.mpr h)
  | hash _ entries =>
    rw [Expr.height]
    exact Nat.succ_le_succ (entriesHeight_le_iff.mpr h)
  | binary _ _ _ _ | call _ _ _ | index _ _ _ => exact h.elim

theorem Expr.OnTopOf.height_le {left e : Expr} (h : OnTopOf left (·.height rise ≤ n) e) :
    e.height rise ≤ max (left.height rise + rise) (n + 1) := by
  have hmax : ∀ {m}, m ≤ n → max (left.height rise + rise) (m + 1) ≤ max (left.height rise + rise) (n + 1) := by
    intro m hm
    omega
  cases e with
  | binary _ l _ right =>
    obtain ⟨rfl, hright⟩ := h
    rw [Expr.height]
    exact hmax hright
  | call _ callee arguments =>
    obtain ⟨rfl, harguments⟩ := h
    rw [Expr.height]
    exact hmax (exprsHeight_le_iff.mpr harguments)
  | index _ collection i =>
    obtain ⟨rfl, hi⟩ := h
    rw [Expr.height]
    exact hmax hi
  | _ => exact h.elim

@[simp] theorem Expr.height_labelled (label : String) (e : Expr) :
    (e.labelled label).height rise = e.height rise := by
  cases e <;> simp [Expr.labelled, Expr.height]

end FrontEnd
