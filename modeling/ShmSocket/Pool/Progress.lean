import ShmSocket.Pool.Concurrent
import ShmSocket.Lib.Progress

/-! `Channel::get` and `Channel::release` are lock-free: a swap fails only because another
call's swap succeeded, and a bound on all steps of all calls follows. -/
namespace ShmSocket.Channel
open StepMachine
variable {s s' : Sys} {p q : Pid} {i : ℕ} {a : Act} {T : Finset Pid}

/-- The steps a call has left while the head of the list is `head`. An attempt that has
loaded another head pays for the attempt after it. -/
def Call.left (head : ℕ) : Call → ℕ
  | .idle => 0
  | .getHead | .releaseHead _ => 3
  | .getLink ret => 2 + if head = ret then 0 else 3
  | .getSwap ret _ => 1 + if head = ret then 0 else 3
  | .releaseStore _ old => 2 + if head = old then 0 else 3
  | .releaseSwap _ old => 1 + if head = old then 0 else 3

/-- Another head costs a call one more attempt. -/
theorem Call.left_le (head head' : ℕ) (c : Call) : c.left head' ≤ c.left head + 3 := by
  cases c <;> simp only [Call.left] <;> (try split_ifs) <;> omega

def Call.busy (c : Call) : ℕ := if c = .idle then 0 else 1

/-- The steps a call has left and, among `k` processes, the attempts that its success will
cost the others. -/
def Call.cost (k head : ℕ) (c : Call) : ℕ := c.left head + 3 * (k - 1) * c.busy

def potential (T : Finset Pid) (s : Sys) : ℕ :=
  ∑ p ∈ T, (s.call p).cost T.card (s.address 0)

/-- No index in use is 0, the cell of the head, and only processes of `T` are in a call. -/
structure Sound (T : Finset Pid) (s : Sys) : Prop where
  held : ∀ p, 0 ∉ s.held p
  releasing : ∀ p, (s.call p).releasing ≠ some 0
  within : ∀ p ∉ T, s.call p = .idle

def Act.pid : Act → Pid
  | .get p | .release p _ | .exec p => p

def Act.isExec : Act → Bool
  | .exec _ => true
  | _ => false

/-- All that a step can be. A swap that succeeds ends its call. -/
inductive Move (s : Sys) : Act → Sys → Prop
  | start {a : Act} {c : Call} (ha : a.isExec = false) (hp : s.call a.pid = .idle)
      (hleft : c.left (s.address 0) = 3)
      (hrel : ∀ i, c.releasing = some i → i ∈ s.held a.pid) : Move s a (s.setCall a.pid c)
  | next {p : Pid} {c : Call} (hp : s.call p ≠ .idle) (hc : c ≠ .idle)
      (hleft : c.left (s.address 0) < (s.call p).left (s.address 0))
      (hrel : c.releasing = (s.call p).releasing) : Move s (.exec p) (s.setCall p c)
  | store {p : Pid} {i old : ℕ} (hp : s.call p = .releaseStore i old) :
      Move s (.exec p) (s.stored p i old)
  | got {p : Pid} {ret newNext : ℕ} (hp : s.call p = .getSwap ret newNext)
      (hhead : s.address 0 = ret) : Move s (.exec p) (s.got p ret newNext)
  | released {p : Pid} {i old : ℕ} (hp : s.call p = .releaseSwap i old)
      (hhead : s.address 0 = old) : Move s (.exec p) (s.released p i)

theorem step_cases (h : s.step a = some s') : Move s a s' := by
  cases a with
  | get p =>
    obtain ⟨hp, rfl⟩ : s.call p = .idle ∧ s.setCall p .getHead = s' := by
      simpa [Sys.step] using h
    exact .start rfl hp rfl fun _ hi => by cases hi
  | release p i =>
    obtain ⟨⟨hp, hi⟩, rfl⟩ : (s.call p = .idle ∧ i ∈ s.held p) ∧
        s.setCall p (.releaseHead i) = s' := by simpa [Sys.step] using h
    refine .start rfl hp rfl fun j hj => ?_
    cases hj
    exact hi
  | exec p =>
    have hnext : ∀ {c : Call}, s.call p ≠ .idle → c ≠ .idle →
        c.left (s.address 0) < (s.call p).left (s.address 0) →
        c.releasing = (s.call p).releasing → s' = s.setCall p c → Move s (.exec p) s' := by
      rintro c h1 h2 h3 h4 rfl
      exact .next h1 h2 h3 h4
    simp only [Sys.step, Sys.exec] at h
    cases hp : s.call p with
    | idle => simp [hp] at h
    | getHead =>
      simp only [hp, Option.some.injEq] at h
      apply hnext _ _ _ _ h.symm <;> simp [hp, Call.left, Call.releasing]
    | getLink ret =>
      simp only [hp, Option.some.injEq] at h
      apply hnext _ _ _ _ h.symm <;> simp [hp, Call.left, Call.releasing]
    | getSwap ret newNext =>
      simp only [hp] at h
      split at h
      · next hhead =>
        cases h
        exact .got hp hhead
      · next hhead =>
        apply hnext _ _ _ _ (Option.some.inj h).symm <;>
          simp [hp, Call.left, Call.releasing, hhead]
    | releaseHead i =>
      simp only [hp, Option.some.injEq] at h
      apply hnext _ _ _ _ h.symm <;> simp [hp, Call.left, Call.releasing]
    | releaseStore i old =>
      simp only [hp, Option.some.injEq] at h
      exact h ▸ .store hp
    | releaseSwap i old =>
      simp only [hp] at h
      split at h
      · next hhead =>
        cases h
        exact .released hp hhead
      · next hhead =>
        apply hnext _ _ _ _ (Option.some.inj h).symm <;>
          simp [hp, Call.left, Call.releasing, hhead]

/-- What a step of `p` does to the potential, when it costs each other call at most `d`. -/
theorem potential_change {c : Call} {d : ℕ} (hp : p ∈ T)
    (hcall : s'.call = Function.update s.call p c)
    (hd : ∀ q, (s.call q).left (s'.address 0) ≤ (s.call q).left (s.address 0) + d) :
    potential T s' + (s.call p).cost T.card (s.address 0) ≤
      potential T s + c.cost T.card (s'.address 0) + d * (T.card - 1) := by
  have hsplit : ∀ f : Pid → ℕ, ∑ q ∈ T, f q = f p + ∑ q ∈ T.erase p, f q := fun f =>
    (Finset.add_sum_erase T f hp).symm
  have hothers : ∑ q ∈ T.erase p, (s'.call q).cost T.card (s'.address 0) ≤
      ∑ q ∈ T.erase p, ((s.call q).cost T.card (s.address 0) + d) := by
    apply Finset.sum_le_sum
    intro q hq
    have hq' := hd q
    rw [hcall, Function.update_of_ne (Finset.ne_of_mem_erase hq)]
    unfold Call.cost
    omega
  rw [Finset.sum_add_distrib, Finset.sum_const, Finset.card_erase_of_mem hp, smul_eq_mul,
    Nat.mul_comm] at hothers
  unfold potential
  rw [hsplit, hsplit fun q => (s.call q).cost T.card (s.address 0), hcall, Function.update_self,
    ← hcall]
  omega

theorem Sound.mem (h : Sound T s) (hp : s.call p ≠ .idle) : p ∈ T := by
  by_contra hnot
  exact hp (h.within p hnot)

/-- A successful swap costs each other call at most one more attempt. -/
theorem potential_swap {c : Call} (hp : p ∈ T) (hc : s.call p = c)
    (hcall : s'.call = Function.update s.call p .idle) (hleft : c.left (s.address 0) = 1)
    (hbusy : c.busy = 1) : potential T s' < potential T s := by
  have hle := potential_change hp hcall fun q => Call.left_le _ _ _
  have hold : c.cost T.card (s.address 0) = 1 + 3 * (T.card - 1) := by
    rw [Call.cost, hleft, hbusy, Nat.mul_one]
  have hnew : Call.idle.cost T.card (s'.address 0) = 0 := rfl
  rw [hc, hold, hnew] at hle
  omega

/-- A step of a call that leaves the head alone. -/
theorem potential_next {c : Call} (hp : p ∈ T)
    (hcall : s'.call = Function.update s.call p c) (hhead : s'.address 0 = s.address 0)
    (hleft : c.left (s.address 0) < (s.call p).left (s.address 0))
    (hbusy : c.busy = (s.call p).busy) : potential T s' < potential T s := by
  have hle := potential_change (d := 0) hp hcall fun q => (by rw [hhead, Nat.add_zero])
  simp only [Call.cost, hhead, hbusy] at hle
  omega

/-- A call starts with three steps to do, and a step of a call brings all calls together
nearer to their ends. -/
theorem Sound.potential_step (h : Sound T s) (ha : a.pid ∈ T) (hs : s.step a = some s') :
    if a.isExec then potential T s' < potential T s
    else potential T s' ≤ potential T s + 3 * T.card := by
  have hcard : 0 < T.card := Finset.card_pos.mpr ⟨_, ha⟩
  cases step_cases hs with
  | @start a c hexec hp hleft hrel =>
    have hcall : (s.setCall a.pid c).call = Function.update s.call a.pid c := rfl
    have hle := potential_change (d := 0) ha hcall fun q => le_rfl
    have hbusy : c.busy = 1 := by
      refine if_neg ?_
      rintro rfl
      simp [Call.left] at hleft
    have hadd : (s.setCall a.pid c).address 0 = s.address 0 := rfl
    rw [hexec, if_neg (by decide)]
    simp only [Call.cost, hp, hadd, hleft, hbusy] at hle
    omega
  | @next p c hp hc hleft hrel =>
    refine potential_next (p := p) ha rfl rfl hleft ?_
    unfold Call.busy
    rw [if_neg hp, if_neg hc]
  | @store p i old hp =>
    have hi : 0 ≠ i := by
      rintro rfl
      exact h.releasing p (by rw [hp]; rfl)
    refine potential_next (p := p) ha rfl (Function.update_of_ne hi _ _) ?_ ?_
    · simp [hp, Call.left]
    · simp [hp, Call.busy]
  | @got p ret newNext hp hhead =>
    exact potential_swap (p := p) ha hp rfl (by simp [Call.left, hhead]) (by simp [Call.busy])
  | @released p i old hp hhead =>
    exact potential_swap (p := p) ha hp rfl (by simp [Call.left, hhead]) (by simp [Call.busy])

/-- A call changes only its own place. -/
theorem Sound.of_call {c : Call} (h : Sound T s) (hp : p ∈ T)
    (hcall : s'.call = Function.update s.call p c) (hheld : ∀ q, 0 ∉ s'.held q)
    (hrel : c.releasing ≠ some 0) : Sound T s' where
  held := hheld
  releasing := by
    intro q
    rw [hcall]
    by_cases hq : q = p
    · rw [hq, Function.update_self]
      exact hrel
    · rw [Function.update_of_ne hq]
      exact h.releasing q
  within := by
    intro q hq
    have hne : q ≠ p := by
      rintro rfl
      exact hq hp
    rw [hcall, Function.update_of_ne hne]
    exact h.within q hq

theorem Sound.step (h : Sound T s) (ha : a.pid ∈ T) (hs : s.step a = some s') :
    Sound T s' := by
  cases step_cases hs with
  | @start a c hexec hp hleft hrel =>
    exact h.of_call ha rfl h.held fun hz => h.held _ (hrel 0 hz)
  | @next p c hp hc hleft hrel =>
    exact h.of_call ha rfl h.held (hrel ▸ h.releasing p)
  | @store p i old hp =>
    have hrel := h.releasing p
    rw [hp] at hrel
    exact h.of_call ha rfl h.held hrel
  | @got p ret newNext hp hhead =>
    refine h.of_call ha rfl (fun q hq => ?_) (by simp [Call.releasing])
    by_cases hz : ret = 0
    · have hheld : (s.got p ret newNext).held = s.held := if_pos hz
      exact h.held q (hheld ▸ hq)
    · rcases (s.mem_held_got newNext hz).mp hq with hold | ⟨-, hz'⟩
      · exact h.held q hold
      · exact hz hz'.symm
  | @released p i old hp hhead =>
    exact h.of_call ha rfl (fun q hq => h.held q ((s.mem_held_released i).mp hq).1)
      (by simp [Call.releasing])

/-- Among `k` processes all calls together take at most `3 * k` steps a call, in every
interleaving, also when an index is handed out twice. -/
theorem exec_count_le {T : Finset Pid} {s s' : Sys} {as : List Act} (h0 : machine.init s)
    (hrun : machine.run s as = some s') (hT : ∀ a ∈ as, a.pid ∈ T) :
    as.countP Act.isExec ≤ 3 * T.card * as.countP fun a => !a.isExec := by
  obtain ⟨content, rfl⟩ := h0
  have hsound : Sound T ⟨content.init, fun _ => .idle, fun _ => ∅⟩ :=
    ⟨fun _ => Finset.notMem_empty _, fun _ => by simp [Call.releasing], fun _ _ => rfl⟩
  have hzero : potential T ⟨content.init, fun _ => .idle, fun _ => ∅⟩ = 0 :=
    Finset.sum_eq_zero fun _ _ => rfl
  have hle := run_countP_le (M := machine) (P := Sound T) (D := fun a => a.pid ∈ T)
    (p := Act.isExec) (potential T) (3 * T.card) (fun _ _ _ h ha hs => h.step ha hs)
    (fun _ _ _ h ha hs => h.potential_step ha hs) hrun hsound hT
  omega

/-- Processes 0 and 1 load the same head; 0 swaps, and 1 has to start over. -/
def contended : List Act :=
  [.get 0, .get 1, .exec 0, .exec 1, .exec 0, .exec 1, .exec 0, .exec 1, .exec 1, .exec 1,
    .exec 1]

theorem exec_count_le_contended : contended.countP Act.isExec = 9 ∧
    contended.countP Act.isExec ≤ 3 * 2 * contended.countP fun a => !a.isExec := by
  have hrun : machine.run fresh contended = some _ := rfl
  exact ⟨by decide, exec_count_le (T := {0, 1}) ⟨_, rfl⟩ hrun (by decide)⟩

end ShmSocket.Channel
