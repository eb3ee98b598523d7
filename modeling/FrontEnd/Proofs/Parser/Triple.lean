import FrontEnd.Proofs.Parser.Step

/-!
What holds where a step ends, given what holds where it begins: of the value that it returns, or of the state that it
fails in. There is one rule for each way of putting steps together.
-/

namespace FrontEnd.Parse

variable {α β σ : Type}

/-- From where `I` holds the step gets to where `J` holds of its value, or fails where `K` holds. -/
def Triple (I : Parser → Prop) (x : Parse α) (J : α → Parser → Prop) (K : Parser → Prop) : Prop :=
  ∀ p, I p → (∀ a, (x p).1 = some a → J a (x p).2) ∧ ((x p).1 = none → K (x p).2)

namespace Triple

variable {I I' K K' : Parser → Prop} {J J' : α → Parser → Prop} {M : β → Parser → Prop}

theorem pre {x : Parse α} (h : Triple I x J K) (hI : ∀ p, I' p → I p) : Triple I' x J K :=
  fun p hp => h p (hI p hp)

theorem post {x : Parse α} (h : Triple I x J K) (hJ : ∀ a p, J a p → J' a p) : Triple I x J' K :=
  fun p hp => ⟨fun a ha => hJ a _ ((h p hp).1 a ha), (h p hp).2⟩

theorem failing {x : Parse α} (h : Triple I x J K) (hK : ∀ p, K p → K' p) : Triple I x J K' :=
  fun p hp => ⟨(h p hp).1, fun ha => hK _ ((h p hp).2 ha)⟩

/-- Whichever way the step ends. -/
theorem ends {x : Parse α} (h : Triple I x J K) (hJ : ∀ a p, J a p → K p) {p : Parser} (hp : I p) : K (x p).2 := by
  obtain ⟨hsome, hnone⟩ := h p hp
  cases ha : (x p).1 with
  | none => exact hnone ha
  | some a => exact hJ a _ (hsome a ha)

theorem pure {a : α} (h : ∀ p, I p → J a p) : Triple I (Pure.pure a) J K := by
  intro p hp
  refine ⟨fun b hb => ?_, fun hb => nomatch hb⟩
  obtain rfl := Option.some.inj hb
  exact h p hp

theorem fail (h : ∀ p, I p → K p) : Triple I Parse.fail J K :=
  fun p hp => ⟨fun _ ha => (nomatch ha), fun _ => h p hp⟩

theorem ofOption {o : Option α} (hsome : ∀ a, o = some a → ∀ p, I p → J a p) (hnone : o = none → ∀ p, I p → K p) :
    Triple I (Parse.ofOption o) J K :=
  fun p hp => ⟨fun a ha => hsome a ha p hp, fun ha => hnone ha p hp⟩

theorem bind {x : Parse β} {f : β → Parse α} (hx : Triple I x M K) (hf : ∀ b, Triple (M b) (f b) J K) :
    Triple I (x >>= f) J K := by
  intro p hp
  obtain ⟨hsome, hnone⟩ := hx p hp
  rw [bind_apply]
  rcases hr : x p with ⟨_ | b, q⟩ <;> rw [hr] at hsome hnone
  · exact ⟨fun _ ha => (nomatch ha), fun _ => hnone rfl⟩
  · exact hf b q (hsome b rfl)

/-- Behind a failure it goes on from where the step has failed. -/
theorem attempt {x : Parse β} {M : Option β → Parser → Prop} (hx : Triple I x (fun b => M (some b)) (M none)) :
    Triple I (Parse.attempt x) M K := by
  intro p hp
  obtain ⟨hsome, hnone⟩ := hx p hp
  refine ⟨fun o ho => ?_, fun ho => nomatch ho⟩
  obtain rfl : (x p).1 = o := Option.some.inj ho
  show M (x p).1 (x p).2
  cases hr : (x p).1 with
  | none => exact hnone hr
  | some b => exact hsome b hr

theorem view (f : Parser → β) : Triple I (Parse.view f) (fun b p => I p ∧ f p = b) K := by
  intro p hp
  exact ⟨fun b hb => ⟨hp, Option.some.inj hb⟩, fun hb => nomatch hb⟩

theorem modify {f : Parser → Parser} (h : ∀ p, I p → I' (f p)) : Triple I (Parse.modify f) (fun _ => I') K :=
  fun p hp => ⟨fun _ _ => h p hp, fun hb => nomatch hb⟩

/-- The next step may look at the token that the parser is on. -/
theorem current_bind {f : Token → Parse α} (hf : ∀ t, Triple (fun p => I p ∧ p.current = t) (f t) J K) :
    Triple I (Parse.current >>= f) J K :=
  (view Parser.current).bind hf

/-- Which token that is may make no difference. -/
theorem current_bind_any {f : Token → Parse α} (hf : ∀ t, Triple I (f t) J K) : Triple I (Parse.current >>= f) J K :=
  current_bind fun t => (hf t).pre fun _ h => h.1

theorem peekIs_bind {kind : Kind} {f : Bool → Parse α} (hf : ∀ b, Triple I (f b) J K) :
    Triple I (Parse.peekIs kind >>= f) J K :=
  (view _).bind fun b => (hf b).pre fun _ h => h.1

theorem expect {kind : Kind} (hadvance : ∀ p, I p → p.peek.kind = kind → I' p.advance)
    (hreport : ∀ p, I p → K (p.report ⟨.unexpectedToken kind p.peek.kind p.peek.value, p.peek.span.start⟩)) :
    Triple I (Parse.expect kind) (fun _ => I') K := by
  intro p hp
  rcases expect_cases kind p with ⟨hkind, hx⟩ | ⟨-, hx⟩ <;> rw [hx]
  · exact ⟨fun _ _ => hadvance p hp hkind, fun hb => nomatch hb⟩
  · exact ⟨fun _ hb => (nomatch hb), fun _ => hreport p hp⟩

/-- It is invariant over all rounds of the loop, each of which begins where `more` holds. -/
theorem repeatWhile_of_more {more : Parser → Bool} {step : σ → Parse σ} {J : σ → Parser → Prop}
    (hstep : ∀ s, Triple (fun p => J s p ∧ more p = true) (step s) J K) (s : σ) :
    Triple (J s) (Parse.repeatWhile more step s) J K := by
  have hrounds : ∀ n s, Triple (J s) (repeatWithin more step n s) J K := by
    intro n
    induction n with
    | zero => exact fun s => pure fun _ h => h
    | succ n ih =>
      intro s p hp
      rcases repeatWithin_cases more step n s p with ⟨-, hr⟩ | ⟨s₁, q, hmore, hs, hr⟩ | ⟨q, hmore, hs, hr⟩ <;> rw [hr]
      · refine ⟨fun s' hs' => ?_, fun hb => nomatch hb⟩
        obtain rfl := Option.some.inj hs'
        exact hp
      · have hsome := (hstep s p ⟨hp, hmore⟩).1
        rw [hs] at hsome
        exact ih s₁ q (hsome s₁ rfl)
      · have hnone := (hstep s p ⟨hp, hmore⟩).2
        rw [hs] at hnone
        exact ⟨fun _ hb => (nomatch hb), fun _ => hnone rfl⟩
  exact fun p hp => hrounds p.left s p hp

theorem repeatWhile {more : Parser → Bool} {step : σ → Parse σ} {J : σ → Parser → Prop}
    (hstep : ∀ s, Triple (J s) (step s) J K) (s : σ) : Triple (J s) (Parse.repeatWhile more step s) J K :=
  repeatWhile_of_more (fun s => (hstep s).pre fun _ h => h.1) s

theorem descend (hdeeper : ∀ p, I p → I' p.deeper) (hgone : ∀ p, I p → K p)
    (hgaveUp : ∀ p, I p → p.overflowed = false → K p.gaveUp) : Triple I Parse.descend (fun _ => I') K := by
  intro p hp
  rcases descend_cases p with ⟨-, h⟩ | ⟨-, -, h⟩ | ⟨ho, -, h⟩ <;> rw [h]
  · exact ⟨fun _ hb => (nomatch hb), fun _ => hgone p hp⟩
  · exact ⟨fun _ _ => hdeeper p hp, fun hb => nomatch hb⟩
  · exact ⟨fun _ hb => (nomatch hb), fun _ => hgaveUp p hp ho⟩

theorem nested {x : Parse α} (hx : Triple I x J K) (hJ : ∀ a depth p, J a p → J a (p.unwind depth))
    (hK : ∀ depth p, K p → K (p.unwind depth)) : Triple I (Parse.nested x) J K := by
  intro p hp
  obtain ⟨hsome, hnone⟩ := hx p hp
  exact ⟨fun a ha => hJ a p.depth _ (hsome a ha), fun ha => hK p.depth _ (hnone ha)⟩

end Triple

end FrontEnd.Parse
