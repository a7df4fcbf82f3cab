import Mathlib.Logic.Relation

/-! Machines with labelled deterministic steps, and their runs. A run may be
restricted by a condition on the state before each step and on its label. -/
structure StepMachine (σ α : Type*) where
  init : σ → Prop
  step : σ → α → Option σ

namespace StepMachine
variable {σ α : Type*} (M : StepMachine σ α) {C D : σ → α → Prop}

/-- One step whose state and label meet `C`. -/
def Next (C : σ → α → Prop) (s s' : σ) : Prop := ∃ a, C s a ∧ M.step s a = some s'

/-- A run all of whose steps meet `C`. -/
def Steps (C : σ → α → Prop) : σ → σ → Prop := Relation.ReflTransGen (M.Next C)

/-- The states of the runs from an initial state whose steps all meet `C`. -/
def Reachable (C : σ → α → Prop) (s : σ) : Prop := ∃ s₀, M.init s₀ ∧ M.Steps C s₀ s

/-- The condition every step meets. -/
def Any : σ → α → Prop := fun _ _ => True

/-- Follow a schedule of labels. -/
def run : σ → List α → Option σ
  | s, [] => some s
  | s, a :: as => (M.step s a).bind fun s' => run s' as

variable {M}

theorem Steps.preserves {P : σ → Prop}
    (hP : ∀ s a s', P s → C s a → M.step s a = some s' → P s') {s s' : σ}
    (h : M.Steps C s s') (hs : P s) : P s' := by
  induction h with
  | refl => exact hs
  | tail _ hn ih =>
    obtain ⟨a, hc, ha⟩ := hn
    exact hP _ a _ ih hc ha

theorem Steps.trans {s s' s'' : σ} (h : M.Steps C s s') (h' : M.Steps C s' s'') :
    M.Steps C s s'' := Relation.ReflTransGen.trans h h'

theorem Steps.single {s s' : σ} {a : α} (hc : C s a) (h : M.step s a = some s') :
    M.Steps C s s' := Relation.ReflTransGen.single ⟨a, hc, h⟩

theorem Steps.mono (hCD : ∀ s a, C s a → D s a) {s s' : σ} (h : M.Steps C s s') :
    M.Steps D s s' :=
  Relation.ReflTransGen.mono (fun _ _ ⟨a, hc, ha⟩ => ⟨a, hCD _ _ hc, ha⟩) _ _ h

/-- What holds initially and is preserved by each step holds in every reachable state. -/
theorem Reachable.invariant {P : σ → Prop} (h0 : ∀ s, M.init s → P s)
    (hP : ∀ s a s', P s → C s a → M.step s a = some s' → P s') {s : σ}
    (h : M.Reachable C s) : P s := by
  obtain ⟨s₀, hi, hs⟩ := h
  exact hs.preserves hP (h0 s₀ hi)

theorem Reachable.steps {s s' : σ} (h : M.Reachable C s) (h' : M.Steps C s s') :
    M.Reachable C s' := by
  obtain ⟨s₀, hi, hs⟩ := h
  exact ⟨s₀, hi, hs.trans h'⟩

theorem Reachable.init {s : σ} (h : M.init s) : M.Reachable C s :=
  ⟨s, h, Relation.ReflTransGen.refl⟩

theorem Reachable.step {s s' : σ} {a : α} (h : M.Reachable C s) (hc : C s a)
    (hs : M.step s a = some s') : M.Reachable C s' := h.steps (Steps.single hc hs)

theorem Reachable.mono (hCD : ∀ s a, C s a → D s a) {s : σ} (h : M.Reachable C s) :
    M.Reachable D s := by
  obtain ⟨s₀, hi, hs⟩ := h
  exact ⟨s₀, hi, hs.mono hCD⟩

/-- A run meets every condition that an invariant of the run guarantees. -/
theorem Reachable.strengthen {P : σ → Prop} (h0 : ∀ s, M.init s → P s)
    (hP : ∀ s a s', P s → C s a → M.step s a = some s' → P s')
    (hD : ∀ s a, P s → C s a → D s a) {s : σ} (h : M.Reachable C s) : M.Reachable D s := by
  have hboth := h.invariant (P := fun s => P s ∧ M.Reachable D s)
    (fun s hi => ⟨h0 s hi, .init hi⟩)
    (fun s a s' hs hc ha => ⟨hP s a s' hs.1 hc ha, hs.2.step (hD s a hs.1 hc) ha⟩)
  exact hboth.2

theorem steps_of_run {s s' : σ} {as : List α} (h : M.run s as = some s')
    (hC : ∀ a ∈ as, ∀ s, C s a) : M.Steps C s s' := by
  induction as generalizing s with
  | nil =>
    cases h
    exact Relation.ReflTransGen.refl
  | cons a as ih =>
    obtain ⟨s₁, ha, hr⟩ := Option.bind_eq_some_iff.mp h
    have hrest := ih hr fun b hb => hC b (List.mem_cons_of_mem _ hb)
    exact (Steps.single (hC a List.mem_cons_self s) ha).trans hrest

/-- A schedule can be run to see what it reaches. -/
theorem Reachable.run {s : σ} {l : List α} {P : σ → Bool} (h : M.Reachable C s)
    (hC : ∀ a ∈ l, ∀ s, C s a) (hP : (M.run s l).any P = true) :
    ∃ s', M.Reachable C s' ∧ P s' = true := by
  cases hr : M.run s l with
  | none =>
    rw [hr] at hP
    cases hP
  | some s' =>
    rw [hr] at hP
    exact ⟨s', h.steps (steps_of_run hr hC), hP⟩

theorem reachable_of_run {s : σ} {l : List α} {P : σ → Bool} (h0 : M.init s)
    (hP : (M.run s l).any P = true) : ∃ s', M.Reachable Any s' ∧ P s' = true :=
  (Reachable.init h0).run (fun _ _ _ => trivial) hP

/-- The steps that pass a test. -/
def guarded (M : StepMachine σ α) (c : σ → α → Bool) : StepMachine σ α where
  init := M.init
  step s a := if c s a then M.step s a else none

/-- A schedule can be run with the conditions of its steps tested on the way. -/
theorem reachable_of_guarded {c : σ → α → Bool} (hc : ∀ s a, c s a = true → C s a) {s : σ}
    {l : List α} {P : σ → Bool} (h0 : M.init s) (hP : ((M.guarded c).run s l).any P = true) :
    ∃ s', M.Reachable C s' ∧ P s' = true := by
  obtain ⟨s', hr, hs'⟩ := reachable_of_run (M := M.guarded c) h0 hP
  have hinit : ∀ s, (M.guarded c).init s → M.Reachable C s := fun _ h => .init h
  have hstep : ∀ s a s', M.Reachable C s → (M.guarded c).step s a = some s' →
      M.Reachable C s' := by
    intro s a s' h hs
    obtain ⟨htest, hs⟩ := Option.ite_none_right_eq_some.mp hs
    exact h.step (hc s a htest) hs
  exact ⟨s', hr.invariant hinit fun s a s' h _ hs => hstep s a s' h hs, hs'⟩

/-- The same runs, with the labels so far, the last one first. -/
def traced (M : StepMachine σ α) : StepMachine (σ × List α) α where
  init x := M.init x.1 ∧ x.2 = []
  step x a := (M.step x.1 a).map fun s' => (s', a :: x.2)

theorem Reachable.of_traced {E : σ × List α → α → Prop} {x : σ × List α}
    (h : M.traced.Reachable E x) : M.Reachable Any x.1 := by
  refine h.invariant (P := fun x => M.Reachable Any x.1) ?_ ?_
  · rintro x ⟨h0, -⟩
    exact .init h0
  · rintro x a x' hx - hs
    obtain ⟨s', hstep, rfl⟩ := Option.map_eq_some_iff.mp hs
    exact hx.step trivial hstep

end StepMachine
