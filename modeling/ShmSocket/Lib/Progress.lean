import ShmSocket.Lib.StepMachine
import Mathlib.Algebra.BigOperators.Group.Finset.Basic
import Mathlib.Algebra.Order.BigOperators.Group.Finset
import Mathlib.Data.Prod.Lex
import Mathlib.Order.WellFounded
import Mathlib.Tactic

/-! Progress of the runs of a machine: infinite runs that serve every label of a set again
and again, and finite runs whose length a potential bounds. -/
namespace StepMachine
variable {σ α : Type*} {M : StepMachine σ α} {C : σ → α → Prop}

/-- An infinite run under a schedule. A label that has no step leaves the state as it is. -/
structure Run (M : StepMachine σ α) where
  state : ℕ → σ
  label : ℕ → α
  next : ∀ n, state (n + 1) = (M.step (state n) (label n)).getD (state n)

namespace Run
variable (R : M.Run)

/-- All steps meet `C`. -/
def Meets (C : σ → α → Prop) : Prop := ∀ n, C (R.state n) (R.label n)

/-- Every label of `L` is scheduled again and again. -/
def Fair (L : Set α) : Prop := ∀ a ∈ L, ∀ n, ∃ m, n ≤ m ∧ R.label m = a

variable {R}

/-- The states along a schedule from `s`. -/
def states (M : StepMachine σ α) (s : σ) (label : ℕ → α) : ℕ → σ
  | 0 => s
  | n + 1 => (M.step (states M s label n) (label n)).getD (states M s label n)

/-- The run that follows a schedule from `s`. -/
def follow (M : StepMachine σ α) (s : σ) (label : ℕ → α) : M.Run :=
  ⟨states M s label, label, fun _ => rfl⟩

theorem state_succ {n : ℕ} {s' : σ} (hs : M.step (R.state n) (R.label n) = some s') :
    R.state (n + 1) = s' := by
  rw [R.next, hs, Option.getD_some]

theorem state_stay {n : ℕ} (hs : M.step (R.state n) (R.label n) = none) :
    R.state (n + 1) = R.state n := by
  rw [R.next, hs, Option.getD_none]

theorem invariant {P : σ → Prop} (hP : ∀ s a s', P s → C s a → M.step s a = some s' → P s')
    (hC : R.Meets C) (h0 : P (R.state 0)) (n : ℕ) : P (R.state n) := by
  induction n with
  | zero => exact h0
  | succ n ih =>
    cases hs : M.step (R.state n) (R.label n) with
    | none => exact state_stay hs ▸ ih
    | some s' => exact state_succ hs ▸ hP _ _ _ ih (hC n) hs

/-- Between a state and a later different one some step changes the state. -/
theorem exists_change {n m : ℕ} (hnm : n ≤ m) (hne : R.state m ≠ R.state n) :
    ∃ k, n ≤ k ∧ k < m ∧ R.state k = R.state n ∧ R.state (k + 1) ≠ R.state k := by
  induction m, hnm using Nat.le_induction with
  | base => exact absurd rfl hne
  | succ m hm ih =>
    by_cases he : R.state m = R.state n
    · exact ⟨m, hm, by omega, he, fun h => hne (h.trans he)⟩
    · obtain ⟨k, hk, hlt, hrest⟩ := ih he
      exact ⟨k, hk, by omega, hrest⟩

/-- A fair run reaches its goal if a step that changes the state lowers the rank, and before
the goal some label of the fair set changes the state. -/
theorem reaches {ρ : Type*} [LT ρ] [WellFoundedLT ρ] {L : Set α} {I G : σ → Prop}
    (rank : σ → ρ) (hC : R.Meets C) (hfair : R.Fair L) (hI : ∀ n, I (R.state n))
    (hdrop : ∀ s a s', I s → C s a → M.step s a = some s' → s' = s ∨ rank s' < rank s)
    (hlive : ∀ s, I s → ¬ G s → ∃ a ∈ L, ∃ s', M.step s a = some s' ∧ s' ≠ s) :
    ∃ n, G (R.state n) := by
  have hmain : ∀ x : ρ, ∀ n, rank (R.state n) = x → ∃ m, G (R.state m) := by
    intro x
    induction x using WellFoundedLT.induction with
    | ind x ih =>
      intro n hx
      by_cases hg : G (R.state n)
      · exact ⟨n, hg⟩
      obtain ⟨a, ha, s', hs, hne⟩ := hlive _ (hI n) hg
      obtain ⟨m, hnm, hm⟩ := hfair a ha n
      -- by the time `a` is served, the state has changed
      have hchange : ∃ k, R.state k = R.state n ∧ R.state (k + 1) ≠ R.state k := by
        by_cases he : R.state m = R.state n
        · refine ⟨m, he, ?_⟩
          rw [R.next, hm, he, hs]
          exact hne
        · obtain ⟨k, -, -, hk⟩ := exists_change hnm he
          exact ⟨k, hk⟩
      obtain ⟨k, hk, hk'⟩ := hchange
      have hlower : rank (R.state (k + 1)) < x := by
        rw [← hx, ← hk]
        cases hstep : M.step (R.state k) (R.label k) with
        | none => exact absurd (state_stay hstep) hk'
        | some s'' =>
          rw [state_succ hstep] at hk' ⊢
          exact (hdrop _ _ _ (hI k) (hC k) hstep).resolve_left hk'
      exact ih _ hlower (k + 1) rfl
  exact hmain _ 0 rfl

/-- The run from its state `n` on. -/
def later (R : M.Run) (n : ℕ) : M.Run :=
  ⟨fun k => R.state (n + k), fun k => R.label (n + k), fun k => R.next (n + k)⟩

theorem Fair.later {L : Set α} (h : R.Fair L) (n : ℕ) : (R.later n).Fair L := by
  intro a ha k
  obtain ⟨m, hm, hlabel⟩ := h a ha (n + k)
  refine ⟨m - n, by omega, ?_⟩
  change R.label (n + (m - n)) = a
  rw [Nat.add_sub_cancel' (by omega), hlabel]

/-- A run that serves `a` again and again reaches its goal if on the way no step raises the
rank and each step `a` lowers it. -/
theorem reaches_by {ρ : Type*} [Preorder ρ] [WellFoundedLT ρ] {a : α} {I G : σ → Prop}
    (rank : σ → ρ) (hC : R.Meets C) (hfair : R.Fair {a}) (hI : ∀ n, I (R.state n))
    (hle : ∀ s b s', I s → C s b → M.step s b = some s' → G s' ∨ rank s' ≤ rank s)
    (hlt : ∀ s, I s → ∃ s', M.step s a = some s' ∧ (G s' ∨ rank s' < rank s)) :
    ∃ n, G (R.state n) := by
  have hway : ∀ n k, n ≤ k →
      (∃ m, G (R.state m)) ∨ rank (R.state k) ≤ rank (R.state n) := by
    intro n k hk
    induction k, hk using Nat.le_induction with
    | base => exact .inr le_rfl
    | succ k _ ih =>
      rcases ih with hg | hrank
      · exact .inl hg
      cases hs : M.step (R.state k) (R.label k) with
      | none => exact .inr (state_stay hs ▸ hrank)
      | some s' =>
        rcases hle _ _ _ (hI k) (hC k) hs with hg | hrank'
        · exact .inl ⟨k + 1, state_succ hs ▸ hg⟩
        · exact .inr (state_succ hs ▸ hrank'.trans hrank)
  have hmain : ∀ x : ρ, ∀ n, rank (R.state n) = x → ∃ m, G (R.state m) := by
    intro x
    induction x using WellFoundedLT.induction with
    | ind x ih =>
      intro n hx
      obtain ⟨m, hnm, hm⟩ := hfair a rfl n
      rcases hway n m hnm with hg | hrank
      · exact hg
      obtain ⟨s', hs, hlower⟩ := hlt _ (hI m)
      have hnext : R.state (m + 1) = s' := state_succ (hm ▸ hs)
      rcases hlower with hg | hlower
      · exact ⟨m + 1, hnext ▸ hg⟩
      · exact ih _ (hx ▸ (hnext ▸ hlower).trans_le hrank) (m + 1) rfl
  exact hmain _ 0 rfl

end Run

/-- A run has at most `c` labels that meet `p` for each that does not, when a label of the
first kind lowers a potential and one of the second raises it by at most `c`. -/
theorem run_countP_le {P : σ → Prop} {D : α → Prop} {p : α → Bool} (pot : σ → ℕ) (c : ℕ)
    (hP : ∀ s a s', P s → D a → M.step s a = some s' → P s')
    (hpot : ∀ s a s', P s → D a → M.step s a = some s' →
      if p a then pot s' < pot s else pot s' ≤ pot s + c)
    {s s' : σ} {as : List α} (h : M.run s as = some s') (hs : P s) (hD : ∀ a ∈ as, D a) :
    as.countP p + pot s' ≤ pot s + c * as.countP (fun a => !p a) := by
  induction as generalizing s with
  | nil =>
    cases h
    simp
  | cons a as ih =>
    obtain ⟨s₁, ha, hr⟩ := Option.bind_eq_some_iff.mp h
    have hDa := hD a List.mem_cons_self
    have hrest := ih hr (hP _ _ _ hs hDa ha) fun b hb => hD b (List.mem_cons_of_mem _ hb)
    have hfirst := hpot _ _ _ hs hDa ha
    rw [List.countP_cons, List.countP_cons]
    cases hp : p a with
    | true =>
      simp only [hp, if_true, Bool.not_true, Bool.false_eq_true, if_false, Nat.add_zero]
        at hfirst ⊢
      omega
    | false =>
      simp only [hp, Bool.false_eq_true, if_false, Bool.not_false, if_true, Nat.add_zero,
        Nat.mul_add, Nat.mul_one] at hfirst ⊢
      omega

/-- One summand drops and the others do not grow. -/
theorem sum_lt_of_one {ι : Type*} {T : Finset ι} {t : ι} {f g : ι → ℕ} (ht : t ∈ T)
    (hlt : f t < g t) (hle : ∀ u ∈ T, u ≠ t → f u ≤ g u) : ∑ u ∈ T, f u < ∑ u ∈ T, g u := by
  refine Finset.sum_lt_sum (fun u hu => ?_) ⟨t, ht, hlt⟩
  by_cases he : u = t
  · rw [he]
    exact hlt.le
  · exact hle u hu he

end StepMachine
