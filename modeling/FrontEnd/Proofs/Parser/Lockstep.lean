import FrontEnd.Proofs.Parser.Step

/-!
Two runs of one step side by side, with expressions parsed by two different steps inside. A single run is the case where
the two states are equal.
-/

namespace FrontEnd

/-- Of anything but an expression that nests too deep, which is reported only where it is given up. -/
def Diagnostic.Ordinary (d : Diagnostic) : Prop :=
  ∀ limit, d.fault ≠ .nestingTooDeep limit

theorem ordinary_unexpectedToken {expected found : Kind} {text : String} {position : Position} :
    Diagnostic.Ordinary ⟨.unexpectedToken expected found text, position⟩ :=
  fun _ h => nomatch h

namespace Parse

variable {α β σ : Type}

/-- Relations of a pair of states: the runs are in step, or have parted for good. They may part where they move on. -/
structure Locked (R E : Parser → Parser → Prop) : Prop where
  current_eq : ∀ p q, R p q → p.current = q.current
  peek_eq : ∀ p q, R p q → p.peek = q.peek
  left_eq : ∀ p q, R p q → p.left = q.left
  advance : ∀ p q, R p q → R p.advance q.advance ∨ E p.advance q.advance
  report : ∀ d : Diagnostic, d.Ordinary → ∀ p q, R p q → R (p.report d) (q.report d)
  advance_left : ∀ p q, E p q → E p.advance q
  advance_right : ∀ p q, E p q → E p q.advance
  report_left : ∀ d : Diagnostic, d.Ordinary → ∀ p q, E p q → E (p.report d) q
  report_right : ∀ d : Diagnostic, d.Ordinary → ∀ p q, E p q → E p (q.report d)

/-- Runs that are in step return the same, which satisfies `V`, and stay in step, or they part. -/
structure Sim (R E : Parser → Parser → Prop) (V : α → Prop) (x y : Parse α) : Prop where
  run : ∀ p q, R p q → ((x p).1 = (y q).1 ∧ (∀ a, (x p).1 = some a → V a) ∧ R (x p).2 (y q).2) ∨ E (x p).2 (y q).2
  left : ∀ p q, E p q → E (x p).2 q
  right : ∀ p q, E p q → E p (y q).2

namespace Sim

variable {R E : Parser → Parser → Prop} {V : α → Prop} {W : β → Prop}

theorem mono {x y : Parse α} {V' : α → Prop} (h : Sim R E V x y) (hV : ∀ a, V a → V' a) : Sim R E V' x y where
  run p q hR := by
    rcases h.run p q hR with ⟨heq, hV', hR'⟩ | hE
    · exact .inl ⟨heq, fun a ha => hV a (hV' a ha), hR'⟩
    · exact .inr hE
  left := h.left
  right := h.right

theorem ofOption (o : Option α) (h : ∀ a, o = some a → V a) : Sim R E V (Parse.ofOption o) (Parse.ofOption o) where
  run _ _ hR := .inl ⟨rfl, h, hR⟩
  left _ _ hE := hE
  right _ _ hE := hE

theorem pure {a : α} (h : V a) : Sim R E V (Pure.pure a) (Pure.pure a) :=
  ofOption (some a) fun _ ha => Option.some.inj ha ▸ h

theorem fail : Sim R E V Parse.fail Parse.fail :=
  ofOption none fun _ h => nomatch h

theorem attempt {x y : Parse α} (h : Sim R E V x y) :
    Sim R E (fun o => ∀ a, o = some a → V a) (Parse.attempt x) (Parse.attempt y) where
  run p q hR := by
    rcases h.run p q hR with ⟨heq, hV, hR'⟩ | hE
    · refine .inl ⟨congrArg some heq, fun o ho a ha => ?_, hR'⟩
      obtain rfl := Option.some.inj ho
      exact hV a ha
    · exact .inr hE
  left := h.left
  right := h.right

/-- What is known of the first value is at hand where the second one is judged; runs that have parted may hold
others. -/
theorem bind {x y : Parse α} {f g : α → Parse β} (hx : Sim R E V x y)
    (hf : ∀ a, Sim R E (fun b => V a → W b) (f a) (g a)) : Sim R E W (x >>= f) (y >>= g) where
  run p q hR := by
    have hrun := hx.run p q hR
    rw [bind_apply, bind_apply]
    generalize x p = r at hrun ⊢
    generalize y q = t at hrun ⊢
    -- Runs that have parted may end differently, so that only one of them goes on with what follows.
    rcases r with ⟨_ | a, p'⟩ <;> rcases t with ⟨_ | b, q'⟩ <;> rcases hrun with ⟨heq, hV, hR'⟩ | hE
    · exact .inl ⟨rfl, nofun, hR'⟩
    · exact .inr hE
    · exact nomatch heq
    · exact .inr ((hf b).right p' q' hE)
    · exact nomatch heq
    · exact .inr ((hf a).left p' q' hE)
    · obtain rfl : a = b := Option.some.inj heq
      rcases (hf a).run p' q' hR' with ⟨heq', hW, hR''⟩ | hE
      · exact .inl ⟨heq', fun b hb => hW b hb (hV a rfl), hR''⟩
      · exact .inr hE
    · have hleft := (hf a).left p' q' hE
      exact .inr ((hf b).right _ q' hleft)
  left p q hE := by
    have hleft := hx.left p q hE
    rw [bind_apply]
    generalize x p = r at hleft ⊢
    rcases r with ⟨_ | a, p'⟩
    · exact hleft
    · exact (hf a).left p' q hleft
  right p q hE := by
    have hright := hx.right p q hE
    rw [bind_apply]
    generalize y q = t at hright ⊢
    rcases t with ⟨_ | b, q'⟩
    · exact hright
    · exact (hf b).right p q' hright

theorem repeatWithin {more : Parser → Bool} {step step' : σ → Parse σ} {V : σ → Prop}
    (hmore : ∀ p q, R p q → more p = more q) (hstep : ∀ s, Sim R E (fun s' => V s → V s') (step s) (step' s)) (n : Nat)
    (s : σ) :
    Sim R E (fun s' => V s → V s') (Parse.repeatWithin more step n s) (Parse.repeatWithin more step' n s) := by
  induction n generalizing s with
  | zero => exact pure id
  | succ n ih =>
    -- A round and the rounds behind it are two steps, one after the other.
    have hgo : Sim R E (fun s' => V s → V s') (step s >>= Parse.repeatWithin more step n)
        (step' s >>= Parse.repeatWithin more step' n) :=
      (hstep s).bind fun s₁ => (ih s₁).mono fun s' h hs hV => h (hs hV)
    have hunfold : ∀ (step : σ → Parse σ) (p : Parser), Parse.repeatWithin more step (n + 1) s p =
        if more p then (step s >>= Parse.repeatWithin more step n) p else (some s, p) := by
      intro step p
      rfl
    constructor
    · intro p q hR
      rw [hunfold, hunfold, hmore p q hR]
      split
      · exact hgo.run p q hR
      · exact .inl ⟨rfl, fun s' hs' hV => Option.some.inj hs' ▸ hV, hR⟩
    · intro p q hE
      rw [hunfold]
      split
      · exact hgo.left p q hE
      · exact hE
    · intro p q hE
      rw [hunfold]
      split
      · exact hgo.right p q hE
      · exact hE

theorem view (f : Parser → α) (hf : ∀ p q, R p q → f p = f q) :
    Sim R E (fun _ => True) (Parse.view f) (Parse.view f) where
  run p q hR := .inl ⟨congrArg some (hf p q hR), fun _ _ => trivial, hR⟩
  left _ _ hE := hE
  right _ _ hE := hE

section Steps

variable (hL : Locked R E)

include hL

theorem current : Sim R E (fun _ => True) Parse.current Parse.current :=
  view _ hL.current_eq

theorem currentIs (k : Kind) : Sim R E (fun _ => True) (Parse.currentIs k) (Parse.currentIs k) :=
  view _ fun p q hR => by rw [hL.current_eq p q hR]

theorem peekIs (k : Kind) : Sim R E (fun _ => True) (Parse.peekIs k) (Parse.peekIs k) :=
  view _ fun p q hR => by rw [hL.peek_eq p q hR]

theorem advance : Sim R E (fun _ => True) Parse.advance Parse.advance where
  run p q hR := (hL.advance p q hR).imp_left fun hR' => ⟨rfl, fun _ _ => trivial, hR'⟩
  left := hL.advance_left
  right := hL.advance_right

theorem report {d : Diagnostic} (hd : d.Ordinary) :
    Sim R E (fun _ => True) (Parse.report d) (Parse.report d) where
  run p q hR := .inl ⟨rfl, fun _ _ => trivial, hL.report d hd p q hR⟩
  left := hL.report_left d hd
  right := hL.report_right d hd

theorem expect (k : Kind) : Sim R E (fun _ => True) (Parse.expect k) (Parse.expect k) where
  run p q hR := by
    have hpeek := hL.peek_eq p q hR
    rcases expect_cases k p with ⟨hp, hxp⟩ | ⟨hp, hxp⟩ <;> rcases expect_cases k q with ⟨hq, hxq⟩ | ⟨hq, hxq⟩ <;>
      rw [hxp, hxq]
    · exact (hL.advance p q hR).imp_left fun hR' => ⟨rfl, fun _ _ => trivial, hR'⟩
    · exact absurd (hpeek ▸ hp) hq
    · exact absurd (hpeek ▸ hq) hp
    · rw [hpeek]
      exact .inl ⟨rfl, fun _ _ => trivial, hL.report _ ordinary_unexpectedToken p q hR⟩
  left p q hE := by
    rcases expect_cases k p with ⟨-, h⟩ | ⟨-, h⟩ <;> rw [h]
    · exact hL.advance_left p q hE
    · exact hL.report_left _ ordinary_unexpectedToken p q hE
  right p q hE := by
    rcases expect_cases k q with ⟨-, h⟩ | ⟨-, h⟩ <;> rw [h]
    · exact hL.advance_right p q hE
    · exact hL.report_right _ ordinary_unexpectedToken p q hE

theorem repeatWhile {more : Parser → Bool} {step step' : σ → Parse σ} {V : σ → Prop}
    (hmore : ∀ p q, R p q → more p = more q) (hstep : ∀ s, Sim R E (fun s' => V s → V s') (step s) (step' s)) (s : σ) :
    Sim R E (fun s' => V s → V s') (Parse.repeatWhile more step s) (Parse.repeatWhile more step' s) where
  run p q hR := by
    unfold Parse.repeatWhile
    rw [hL.left_eq p q hR]
    exact (repeatWithin hmore hstep q.left s).run p q hR
  left p q hE := (repeatWithin hmore hstep p.left s).left p q hE
  right p q hE := (repeatWithin hmore hstep q.left s).right p q hE

end Steps

/-! A single run -/

/-- The same state twice, of which `I` holds. -/
def Same (I : Parser → Prop) (p q : Parser) : Prop :=
  p = q ∧ I p

def Never (_ _ : Parser) : Prop :=
  False

theorem locked_same {I : Parser → Prop} (hadvance : ∀ p, I p → I p.advance)
    (hreport : ∀ d : Diagnostic, d.Ordinary → ∀ p, I p → I (p.report d)) : Locked (Same I) Never where
  current_eq _ _ h := h.1 ▸ rfl
  peek_eq _ _ h := h.1 ▸ rfl
  left_eq _ _ h := h.1 ▸ rfl
  advance p _ h := .inl ⟨h.1 ▸ rfl, hadvance p h.2⟩
  report d hd p _ h := ⟨h.1 ▸ rfl, hreport d hd p h.2⟩
  advance_left _ _ h := h
  advance_right _ _ h := h
  report_left _ _ _ _ h := h
  report_right _ _ _ _ h := h

/-- Runs that stay in the same state are one run. -/
theorem sim_same_iff_eq {I : Parser → Prop} {V : α → Prop} {x y : Parse α} :
    Sim (Same I) Never V x y ↔ ∀ p, I p → x p = y p ∧ (∀ a, (x p).1 = some a → V a) ∧ I (x p).2 := by
  constructor
  · intro h p hp
    rcases h.run p p ⟨rfl, hp⟩ with ⟨heq, hV, hsame, hI⟩ | hE
    · exact ⟨Prod.ext heq hsame, hV, hI⟩
    · exact hE.elim
  · intro h
    refine ⟨fun p q hpq => ?_, fun _ _ hE => hE, fun _ _ hE => hE⟩
    obtain ⟨rfl, hp⟩ := hpq
    obtain ⟨heq, hV, hI⟩ := h p hp
    exact .inl ⟨congrArg Prod.fst heq, hV, congrArg Prod.snd heq, hI⟩

theorem sim_same_iff {I : Parser → Prop} {V : α → Prop} {x : Parse α} :
    Sim (Same I) Never V x x ↔ ∀ p, I p → (∀ a, (x p).1 = some a → V a) ∧ I (x p).2 :=
  sim_same_iff_eq.trans ⟨fun h p hp => (h p hp).2, fun h p hp => ⟨rfl, h p hp⟩⟩

end Sim

end Parse

end FrontEnd
