import ShmSocket.Lib.StepMachine

/-! Refinement. A specification says, as a relation, which event may lead from which state to
which; a machine refines it when everything its runs show is a trace of the specification. -/
namespace StepMachine
variable {σ α τ ε : Type*}

structure Spec (τ ε : Type*) where
  init : τ → Prop
  step : τ → ε → τ → Prop

namespace Spec
variable (S : Spec τ ε)

/-- The events of a run of the specification, in order. -/
inductive Trace : τ → List ε → τ → Prop
  | nil (t : τ) : Trace t [] t
  | snoc {t t' t'' : τ} {es : List ε} {e : ε} (h : Trace t es t') (hs : S.step t' e t'') :
      Trace t (es ++ [e]) t''

variable {S}

/-- What every step of the specification keeps holds at the end of a trace. -/
theorem Trace.invariant {P : τ → Prop} (hP : ∀ t e t', P t → S.step t e t' → P t') {t t' : τ}
    {es : List ε} (h : S.Trace t es t') (ht : P t) : P t' := by
  induction h with
  | nil => exact ht
  | snoc h hs ih => exact hP _ _ _ ih hs

end Spec

/-- The same runs, with the events that their steps show. -/
def shown (M : StepMachine σ α) (event : σ → α → ε) : StepMachine (σ × List ε) α where
  init x := M.init x.1 ∧ x.2 = []
  step x a := (M.step x.1 a).map fun s' => (s', x.2 ++ [event x.1 a])

/-- Forward simulation by a function, under an invariant of the machine. -/
theorem Reachable.refines {M : StepMachine σ α} {C : σ → α → Prop} {S : Spec τ ε}
    {event : σ → α → ε} {P : σ → Prop} (abstr : σ → τ) (h0 : ∀ s, M.init s → P s)
    (hinit : ∀ s, M.init s → S.init (abstr s))
    (hP : ∀ s a s', P s → C s a → M.step s a = some s' →
      P s' ∧ S.step (abstr s) (event s a) (abstr s'))
    {x : σ × List ε} (h : (M.shown event).Reachable (fun x a => C x.1 a) x) :
    ∃ t₀, S.init t₀ ∧ S.Trace t₀ x.2 (abstr x.1) := by
  have hall := h.invariant (P := fun x => P x.1 ∧ ∃ t₀, S.init t₀ ∧ S.Trace t₀ x.2 (abstr x.1))
    ?_ ?_
  · exact hall.2
  · rintro ⟨s, es⟩ ⟨hs, hes⟩
    refine ⟨h0 s hs, abstr s, hinit s hs, ?_⟩
    rw [show es = [] from hes]
    exact .nil _
  · rintro ⟨s, es⟩ a x' ⟨hp, t₀, ht₀, htrace⟩ hc hs
    obtain ⟨s', hstep, rfl⟩ := Option.map_eq_some_iff.mp hs
    obtain ⟨hp', hshow⟩ := hP s a s' hp hc hstep
    exact ⟨hp', t₀, ht₀, htrace.snoc hshow⟩

end StepMachine
