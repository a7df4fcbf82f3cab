import ShmSocket.Lib.StepMachine
import Mathlib.Logic.Function.Basic

/-! Linearizability by named instructions. Beside a machine whose threads make calls runs
an abstract object: each call takes effect on the object at one instruction of its own,
chosen by `effect`, and has to return what the object answered there. -/
namespace StepMachine
variable {σ α τ κ ω : Type*}

theorem run_append (O : StepMachine κ ω) (q : κ) (as bs : List ω) :
    O.run q (as ++ bs) = (O.run q as).bind fun q' => O.run q' bs := by
  induction as generalizing q with
  | nil => rfl
  | cons a as ih =>
    simp only [List.cons_append, run]
    cases O.step q a with
    | none => rfl
    | some q' => exact ih q'

/-- Which instruction of a call is its effect, and what the finished calls answered. An
operation of the object carries its answer. -/
structure Instrument (σ α τ κ ω : Type*) where
  thread : α → τ
  /-- The label starts a call. -/
  begins : α → Bool
  effect : σ → κ → α → Option ω
  answers : σ → List ω

/-- A state of the machine with the state of the object, the operations so far in the order
of their effects, and the operation of each thread's call once it took effect. -/
structure Observed (σ τ κ ω : Type*) where
  state : σ
  spec : κ
  history : List ω
  promise : τ → Option ω

variable [DecidableEq τ]

/-- The machine and the object side by side. A step is missing where the object refuses
the operation of its effect. -/
def observed (M : StepMachine σ α) (O : StepMachine κ ω) (I : Instrument σ α τ κ ω) :
    StepMachine (Observed σ τ κ ω) α where
  init x := M.init x.state ∧ O.init x.spec ∧ x.history = [] ∧ x.promise = fun _ => none
  step x a := (M.step x.state a).bind fun s' =>
    match I.effect x.state x.spec a with
    | none => some { x with
        state := s'
        promise := if I.begins a then Function.update x.promise (I.thread a) none
          else x.promise }
    | some op => (O.step x.spec op).map fun q' =>
        ⟨s', q', x.history ++ [op], Function.update x.promise (I.thread a) (some op)⟩

variable {M : StepMachine σ α} {O : StepMachine κ ω} {I : Instrument σ α τ κ ω}
  {C : σ → α → Prop} {x x' : Observed σ τ κ ω} {a : α}

theorem observed_silent {s' : σ} (hs : M.step x.state a = some s')
    (he : I.effect x.state x.spec a = none) :
    (observed M O I).step x a = some { x with
      state := s'
      promise := if I.begins a then Function.update x.promise (I.thread a) none
        else x.promise } := by
  simp only [observed, hs, he, Option.bind_some]

theorem observed_effect {s' : σ} {op : ω} {q' : κ} (hs : M.step x.state a = some s')
    (he : I.effect x.state x.spec a = some op) (hq : O.step x.spec op = some q') :
    (observed M O I).step x a = some
      ⟨s', q', x.history ++ [op], Function.update x.promise (I.thread a) (some op)⟩ := by
  simp only [observed, hs, he, hq, Option.bind_some, Option.map_some]

/-- A step beside the object is a step of the machine. -/
theorem state_of_observed (h : (observed M O I).step x a = some x') :
    M.step x.state a = some x'.state := by
  obtain ⟨s', hs, hrest⟩ := Option.bind_eq_some_iff.mp h
  rw [hs]
  cases he : I.effect x.state x.spec a with
  | none =>
    simp only [he, Option.some.injEq] at hrest
    rw [← hrest]
  | some op =>
    simp only [he] at hrest
    obtain ⟨q', -, rfl⟩ := Option.map_eq_some_iff.mp hrest
    rfl

theorem promise_of_effect {op : ω} (h : (observed M O I).step x a = some x')
    (he : I.effect x.state x.spec a = some op) : x'.promise (I.thread a) = some op := by
  obtain ⟨s', -, hrest⟩ := Option.bind_eq_some_iff.mp h
  simp only [he] at hrest
  obtain ⟨q', -, rfl⟩ := Option.map_eq_some_iff.mp hrest
  exact Function.update_self _ _ _

theorem promise_of_silent (h : (observed M O I).step x a = some x')
    (he : I.effect x.state x.spec a = none) (hb : I.begins a = false) :
    x'.promise = x.promise := by
  obtain ⟨s', -, hrest⟩ := Option.bind_eq_some_iff.mp h
  simp only [he, hb, Option.some.injEq] at hrest
  rw [← hrest]
  rfl

/-- The history is one of the object, from its initial state to the one beside the machine. -/
theorem Reachable.history_legal {D : Observed σ τ κ ω → α → Prop}
    (h : (observed M O I).Reachable D x) :
    ∃ q₀, O.init q₀ ∧ O.run q₀ x.history = some x.spec := by
  refine h.invariant (P := fun x => ∃ q₀, O.init q₀ ∧ O.run q₀ x.history = some x.spec) ?_ ?_
  · rintro x ⟨-, hq, hh, -⟩
    exact ⟨x.spec, hq, by rw [hh]; rfl⟩
  · rintro x a x' ⟨q₀, hq, hrun⟩ - hs
    refine ⟨q₀, hq, ?_⟩
    obtain ⟨s', -, hrest⟩ := Option.bind_eq_some_iff.mp hs
    cases he : I.effect x.state x.spec a with
    | none =>
      simp only [he, Option.some.injEq] at hrest
      rw [← hrest, hrun]
    | some op =>
      simp only [he] at hrest
      obtain ⟨q', hop, rfl⟩ := Option.map_eq_some_iff.mp hrest
      have hone : O.run x.spec [op] = (O.step x.spec op).bind some := rfl
      rw [run_append, hrun, Option.bind_some, hone, hop, Option.bind_some]

/-- The next step of the machine is one beside the object, a call takes effect at most once,
and a call that returns answers what the object did at its effect. -/
structure Linearized (M : StepMachine σ α) (O : StepMachine κ ω) (I : Instrument σ α τ κ ω)
    (C : σ → α → Prop) (x : Observed σ τ κ ω) : Prop where
  follows : ∀ a s', C x.state a → M.step x.state a = some s' →
    ∃ x', (observed M O I).step x a = some x' ∧ x'.state = s'
  once : ∀ a s' op, C x.state a → M.step x.state a = some s' →
    I.effect x.state x.spec a = some op → x.promise (I.thread a) = none
  answers : ∀ a x', C x.state a → (observed M O I).step x a = some x' →
    I.answers x'.state = I.answers x.state ∨
    ∃ op, x'.promise (I.thread a) = some op ∧
      I.answers x'.state = I.answers x.state ++ [op]

/-- The conditions of a run of the machine, beside the object. -/
def Beside (C : σ → α → Prop) (x : Observed σ τ κ ω) (a : α) : Prop := C x.state a

/-- Every run of the machine is one beside the object, when an invariant keeps the two in
step. -/
theorem Reachable.observed {P : Observed σ τ κ ω → Prop}
    (h0 : ∀ s, M.init s → ∃ x, (observed M O I).init x ∧ x.state = s ∧ P x)
    (hP : ∀ x a s', P x → C x.state a → M.step x.state a = some s' →
      ∃ x', (StepMachine.observed M O I).step x a = some x' ∧ x'.state = s' ∧ P x')
    {s : σ} (h : M.Reachable C s) :
    ∃ x, (StepMachine.observed M O I).Reachable (Beside C) x ∧ x.state = s ∧ P x := by
  refine h.invariant (P := fun s => ∃ x, (StepMachine.observed M O I).Reachable (Beside C) x ∧
    x.state = s ∧ P x) ?_ ?_
  · intro s hs
    obtain ⟨x, hx, he, hp⟩ := h0 s hs
    exact ⟨x, .init hx, he, hp⟩
  · rintro s a s' ⟨x, hx, rfl, hp⟩ hc hs
    obtain ⟨x', hstep, he, hp'⟩ := hP x a s' hp hc hs
    exact ⟨x', hx.step hc hstep, he, hp'⟩

end StepMachine
