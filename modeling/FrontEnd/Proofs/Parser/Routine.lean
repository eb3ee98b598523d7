import FrontEnd.Proofs.Parser.Journey
import FrontEnd.Proofs.Parser.Program
import FrontEnd.Proofs.Parser.Supply

/-!
The routines of the parser, and the phrase that each of them takes. A routine for one kind of phrase does not look at
the kind of the token it begins on, which its caller has seen to; so neither do these phrases.
-/

namespace FrontEnd

namespace Grammar

variable {α β : Type}

/-- A phrase behind any token. -/
inductive Behind (D : List Token → β → Prop) (f : Token → β → α) : List Token → α → Prop
  | mk {t ts b} : D ts b → Behind D f (t :: ts) (f t b)

/-- A phrase between any token and a closing one. -/
inductive Closed (close : Kind) (D : List Token → β → Prop) (f : Token → β → α) : List Token → α → Prop
  | mk {left ts b right} : D ts b → right.kind = close → Closed close D f (left :: (ts ++ [right])) (f left b)

/-- A phrase, with or without a semicolon behind it. -/
inductive Ended (C : List Token → α → Prop) : List Token → α → Prop
  | bare {ts a} : C ts a → Ended C ts a
  | semicolon {ts a t} : C ts a → t.kind = .semicolon → Ended C (ts ++ [t]) a

inductive Single (D : Token → α → Prop) : List Token → α → Prop
  | mk {t a} : D t a → Single D [t] a

inductive Binding : List Token → Stmt → Prop
  | mk {word name assign ts e} : name.kind = .identifier → assign.kind = .assign → Expression ts e →
    Binding (word :: name :: assign :: ts) (.bind word ⟨name, name.value⟩ (some (e.labelled name.value)))

inductive Bare : List Token → Stmt → Prop
  | mk {t ts e} : Expression (t :: ts) e → Bare (t :: ts) (.expr t e)

end Grammar

open Grammar

namespace Parse

/-- The routines, and the phrases from the token they begin on to the one they end on. -/
inductive Routine : {α : Type} → Parse α → (List Token → α → Prop) → Prop
  | expr (power : BindingPower) : Routine (Parse.expr power) (Level Expression (levels.drop power.rank))
  | atom : Routine Parse.atom (Single Atom)
  | unary : Routine (Parse.unary Parse.expr) (Behind (Unary Expression) fun t r => .unary t t.value r)
  | group : Routine (Parse.group Parse.expr) (Closed .closeParen Expression fun _ e => e)
  | cond : Routine (Parse.cond Parse.expr) (Conditional Expression)
  | parameters : Routine Parse.parameters (Closed .closeParen (Listing Name) fun _ ids => ids)
  | fn : Routine (Parse.fn Parse.expr) (Function Expression)
  | items {close : Kind} : close ∈ Kind.closers →
    Routine (Parse.items Parse.expr close) (Closed close (Listing Expression) fun _ es => es)
  | array : Routine (Parse.array Parse.expr) (Closed .closeBracket (Listing Expression) .array)
  | hash : Routine (Parse.hash Parse.expr) (Closed .closeCurly (PairListing Expression) .hash)
  | binary (left : Expr) (power : BindingPower) : Routine (Parse.binary Parse.expr left power)
      (Behind (Level Expression (levels.drop power.rank)) fun t r => .binary t left t.value r)
  | call (callee : Expr) : Routine (Parse.call Parse.expr callee)
      (Closed .closeParen (Listing Expression) fun t es => .call t callee es)
  | index (collection : Expr) : Routine (Parse.index Parse.expr collection)
      (Closed .closeBracket Expression fun t i => .index t collection i)
  | block : Routine (Parse.block Parse.expr) (Closed .closeCurly (Stmts Expression) .mk)
  | bindStmt : Routine (Parse.bindStmt Parse.expr) (Ended Binding)
  | retStmt : Routine (Parse.retStmt Parse.expr) (Ended (Behind Expression fun t e => .ret t (some e)))
  | exprStmt : Routine (Parse.exprStmt Parse.expr) (Ended Bare)
  | stmt : Routine (Parse.stmt Parse.expr) (Ended (Clause Expression))

namespace Routine

variable {α : Type} {x : Parse α} {D : List Token → α → Prop}

/-- Runs in step through the expressions inside are in step through every routine. -/
theorem sim {R E : Parser → Parser → Prop} (hL : Locked R E)
    (hexpr : ∀ power, Sim R E (fun _ => True) (Parse.expr power) (Parse.expr power)) (h : Routine x D) :
    Sim R E (fun _ => True) x x := by
  have hlabel : ∀ label e, (fun _ : Expr => True) e → (fun _ : Expr => True) (e.labelled label) :=
    fun _ _ _ => trivial
  cases h with
  | expr power => exact hexpr power
  | atom => exact (Sim.atom (Q := fun _ => True) hL).mono fun _ _ => trivial
  | unary => exact (Sim.unary hL hexpr).mono fun _ _ => trivial
  | group => exact Sim.group hL hexpr
  | cond => exact (Sim.cond hL hexpr hlabel).mono fun _ _ => trivial
  | parameters => exact Sim.parameters hL
  | fn => exact (Sim.fn hL hexpr hlabel).mono fun _ _ => trivial
  | items => exact (Sim.items hL hexpr _).mono fun _ _ => trivial
  | array => exact (Sim.array hL hexpr).mono fun _ _ => trivial
  | hash => exact (Sim.hash hL hexpr).mono fun _ _ => trivial
  | binary left power => exact (Sim.binary hL hexpr left power).mono fun _ _ => trivial
  | call callee => exact (Sim.call hL hexpr callee).mono fun _ _ => trivial
  | index collection => exact (Sim.index hL hexpr collection).mono fun _ _ => trivial
  | block => exact (Sim.block hL hexpr hlabel).mono fun _ _ => trivial
  | bindStmt => exact (Sim.bindStmt hL hexpr hlabel).mono fun _ _ => trivial
  | retStmt => exact (Sim.retStmt hL hexpr).mono fun _ _ => trivial
  | exprStmt => exact (Sim.exprStmt hL hexpr).mono fun _ _ => trivial
  | stmt => exact (Sim.stmt hL hexpr hlabel).mono fun _ _ => trivial

theorem journey {T : Parser → Parser → Prop} (hT : Journey T) (h : Routine x D) (p : Parser) : T p (x p).2 :=
  (Sim.sim_same_iff.mp (h.sim (hT.locked p) fun power => hT.expr power p) p (hT.refl p)).2

theorem invariant {I : Parser → Prop} (hI : Invariant I) (h : Routine x D) {p : Parser} (hp : I p) : I (x p).2 :=
  (Sim.sim_same_iff.mp (h.sim hI.locked hI.expr) p hp).2

theorem steady (h : Routine x D) : Steady x := by
  cases h with
  | expr power => exact Steady.expr power
  | atom => exact Steady.atom
  | unary => exact Steady.unary Steady.expr
  | group => exact Steady.group Steady.expr
  | cond => exact Steady.cond Steady.expr
  | parameters => exact Steady.parameters
  | fn => exact Steady.fn Steady.expr
  | items => exact Steady.items Steady.expr _
  | array => exact Steady.array Steady.expr
  | hash => exact Steady.hash Steady.expr
  | binary left power => exact Steady.binary Steady.expr left power
  | call callee => exact Steady.call Steady.expr callee
  | index collection => exact Steady.index Steady.expr collection
  | block => exact Steady.block Steady.expr
  | bindStmt => exact Steady.bindStmt Steady.expr
  | retStmt => exact Steady.retStmt Steady.expr
  | exprStmt => exact Steady.exprStmt Steady.expr
  | stmt => exact Steady.stmt Steady.expr

end Routine

/-! The phrases -/

section Spans

variable {α β : Type} {D : List Token → β → Prop} {F : List Token → Prop} {ts us : List Token} {a : α} {b : β}

theorem Spans.taken {D : List Token → α → Prop} (h : Spans D F ts a us) : Spans D (fun _ => True) ts a us := by
  obtain ⟨vs, t, rest, hts, hus, ha, -⟩ := h
  exact ⟨vs, t, rest, hts, hus, ha, trivial⟩

/-- With more tokens before it, a phrase is part of a longer one. -/
theorem Spans.prepend {D' : List Token → α → Prop} (pre : List Token) (h : Spans D F ts b us)
    (hpre : ∀ ws, D ws b → D' (pre ++ ws) a) : Spans D' (fun _ => True) (pre ++ ts) a us := by
  obtain ⟨vs, t, rest, rfl, rfl, hb, -⟩ := h
  refine ⟨pre ++ vs, t, rest, by simp, rfl, ?_, trivial⟩
  rw [List.append_assoc]
  exact hpre _ hb

theorem Spans.behind {D : List Token → β → Prop} {f : Token → β → α} (t : Token) (h : Spans D F ts b us) :
    Spans (Behind D f) (fun _ => True) (t :: ts) (f t b) us :=
  h.prepend [t] fun _ hb => .mk hb

theorem Encloses.closed {close : Kind} {left : Token} {f : Token → β → α} (h : Encloses close D left ts b us) :
    Spans (Closed close D f) (fun _ => True) ts (f left b) us := by
  obtain ⟨vs, right, rest, rfl, rfl, hb, hright⟩ := h
  exact ⟨left :: vs, right, rest, by simp, rfl, .mk hb hright, trivial⟩

theorem Sentence.ended {dir : Direction} {C : List Token → α → Prop} (h : Sentence dir C ts a us) :
    Spans (Ended C) (fun _ => True) ts a us := by
  obtain ⟨ws, rest, rfl, hC, ⟨hk, rfl⟩ | ⟨-, -, vs, t, rfl, rfl⟩⟩ := h
  · obtain ⟨t, rest, rfl, ht⟩ := exists_cons_of_headKind hk (by decide)
    exact ⟨ws, t, rest, rfl, rfl, .semicolon hC ht, trivial⟩
  · exact ⟨vs, t, rest, by simp, rfl, .bare hC, trivial⟩

theorem Ended.prepend {C : List Token → β → Prop} {C' : List Token → α → Prop} (pre : List Token)
    (hpre : ∀ ws, C ws b → C' (pre ++ ws) a) {ws : List Token} (h : Ended C ws b) : Ended C' (pre ++ ws) a := by
  cases h with
  | bare h => exact .bare (hpre _ h)
  | semicolon h ht =>
    rw [← List.append_assoc]
    exact .semicolon (hpre _ h) ht

end Spans

namespace Routine

variable {α : Type} {x : Parse α} {D : List Token → α → Prop}

/-- A run of a routine that reports nothing takes a phrase. -/
theorem describes (h : Routine x D) (limit : Nat) (stop : Position) :
    Describes .sound (Parser.Ready limit (limit + 1)) stop x (Phrase (Spans D fun _ => True)) := by
  have hI := stable_ready limit (limit + 1)
  have hE := begins_expression
  have hexpr : ∀ power, Describes .sound (Parser.Ready limit (limit + 1)) stop (Parse.expr power)
      (Phrase (Spans (Level Expression (levels.drop power.rank)) (Follow .sound power))) :=
    fun power => @Describes.expr .sound stop limit Expression expression_iff power fun h => nomatch h
  have hlowest := describes_expression .sound limit stop
  have htightest := Describes.tightest fun power _ => hexpr power
  have hphrase : ∀ {G H : List Token → α → List Token → Prop}, Describes .sound (Parser.Ready limit (limit + 1)) stop x
      (Phrase G) → (∀ ts a us, G ts a us → H ts a us) →
        Describes .sound (Parser.Ready limit (limit + 1)) stop x (Phrase H) := by
    intro G H hx hGH
    refine hx.shift fun ts a us => ⟨fun _ hG => ?_, fun h => nomatch h⟩
    cases a with
    | none => exact hG
    | some a => exact hGH ts a us hG
  cases h with
  | expr power => exact hphrase (hexpr power) fun ts e us h => h.taken
  | atom =>
    refine hphrase (Describes.atom hI) fun ts e us h => ?_
    obtain ⟨rfl, t, rest, rfl, hatom⟩ := h
    exact ⟨[], t, rest, rfl, rfl, .mk hatom, trivial⟩
  | unary =>
    refine hphrase (Describes.unary hI htightest) fun ts e us h => ?_
    obtain ⟨r, hr, rfl⟩ := h
    cases ts with
    | nil =>
      obtain ⟨vs, t, rest, hts, -⟩ := hr
      simp at hts
    | cons op ts => exact hr.behind op
  | group =>
    refine hphrase (Describes.group hI hE hlowest) fun ts e us h => ?_
    obtain ⟨left, h⟩ := h
    exact h.closed
  | cond => exact hphrase (Describes.cond hI hE hlowest) fun ts e us h => conditional_of_formSpan h
  | parameters =>
    refine hphrase (Describes.parameters hI) fun ts ids us h => ?_
    obtain ⟨left, h⟩ := h
    exact h.closed
  | fn => exact hphrase (Describes.fn hI hE hlowest) fun ts e us h => function_of_formSpan h
  | items hclose =>
    refine hphrase (Describes.items hI hE hlowest _ hclose) fun ts es us h => ?_
    obtain ⟨left, h⟩ := h
    exact h.closed
  | array =>
    refine hphrase (Describes.array hI hE hlowest) fun ts e us h => ?_
    obtain ⟨left, es, h, rfl⟩ := h
    exact h.closed
  | hash =>
    refine hphrase (Describes.hash hI hE hlowest) fun ts e us h => ?_
    obtain ⟨left, es, h, rfl⟩ := h
    exact h.closed
  | binary left power =>
    refine hphrase (Describes.binary left (hexpr power)) fun ts e us h => ?_
    obtain ⟨op, vs, r, rfl, hr, rfl⟩ := h
    exact hr.behind op
  | call callee =>
    refine hphrase (Describes.call hI hE hlowest callee) fun ts e us h => ?_
    obtain ⟨left, es, h, rfl⟩ := h
    exact h.closed
  | index collection =>
    refine hphrase (Describes.index hI hE hlowest collection) fun ts e us h => ?_
    obtain ⟨left, i, h, rfl⟩ := h
    exact h.closed
  | block =>
    refine hphrase (Describes.block hI hE hlowest) fun ts b us h => ?_
    obtain ⟨left, ss, h, rfl⟩ := h
    exact h.closed
  | bindStmt =>
    refine hphrase (Describes.bindStmt hI hE hlowest) fun ts s us h => ?_
    obtain ⟨word, name, assign, vs, e, rfl, hname, hassign, h, rfl⟩ := h
    exact h.ended.prepend [word, name, assign] fun _ hws =>
      Ended.prepend [word, name, assign] (fun _ he => .mk hname hassign he) hws
  | retStmt =>
    refine hphrase (Describes.retStmt hI hE hlowest) fun ts s us h => ?_
    obtain ⟨word, vs, e, rfl, h, rfl⟩ := h
    exact h.ended.prepend [word] fun _ hws => Ended.prepend [word] (fun _ he => .mk he) hws
  | exprStmt =>
    refine hphrase (Describes.exprStmt hI hE hlowest) fun ts s us h => ?_
    obtain ⟨e, ⟨ws, rest, rfl, he, hend⟩, rfl⟩ := h
    obtain ⟨t, vs, rfl, -⟩ := hE.exists_cons he
    have hsentence : Sentence .sound Bare (t :: vs ++ rest) (.expr t e) us := ⟨t :: vs, rest, rfl, .mk he, hend⟩
    exact hsentence.ended
  | stmt => exact hphrase (describes_stmt .sound limit stop) fun ts s us h => h.ended

end Routine

end Parse

end FrontEnd
