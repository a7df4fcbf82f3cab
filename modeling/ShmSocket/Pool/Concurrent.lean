import ShmSocket.CInt
import ShmSocket.Pool.Channel
import ShmSocket.Lib.StepMachine
import Mathlib.Data.Finset.Insert

/-! Any number of processes inside `Channel::get` and `Channel::release` on one
channel, one load, store or compare-and-swap at a time. `get` validates only the head
by its swap: an index is handed out twice exactly through a `get` whose link of the
head index has changed since it was loaded. -/
namespace ShmSocket.Channel
open StepMachine

/-- Where a process is, with the locals loaded so far. -/
inductive Call where
  | idle
  | getHead
  | getLink (ret : ℕ)
  | getSwap (ret newNext : ℕ)
  | releaseHead (index : ℕ)
  | releaseStore (index oldNext : ℕ)
  | releaseSwap (index oldNext : ℕ)
  deriving DecidableEq

/-- The index a call is about to put back. -/
def Call.releasing : Call → Option ℕ
  | .releaseHead index | .releaseStore index _ | .releaseSwap index _ => some index
  | _ => none

/-- `held p` is what `p` got and has not finished putting back. -/
structure Sys where
  address : Address
  call : Pid → Call
  held : Pid → Finset ℕ

/-- A process calls `get` or `release`, or takes its next step. -/
inductive Act where
  | get (p : Pid)
  | release (p : Pid) (index : ℕ)
  | exec (p : Pid)

namespace Sys

def setCall (s : Sys) (p : Pid) (c : Call) : Sys :=
  { s with call := Function.update s.call p c }

/-- The store of `release`. -/
def stored (s : Sys) (p : Pid) (index oldNext : ℕ) : Sys where
  address := Function.update s.address index oldNext
  call := Function.update s.call p (.releaseSwap index oldNext)
  held := s.held

/-- A successful swap of `get`; 0 says that the list was empty. -/
def got (s : Sys) (p : Pid) (ret newNext : ℕ) : Sys where
  address := Function.update s.address 0 newNext
  call := Function.update s.call p .idle
  held := if ret = 0 then s.held else Function.update s.held p (insert ret (s.held p))

/-- A successful swap of `release`. -/
def released (s : Sys) (p : Pid) (index : ℕ) : Sys where
  address := Function.update s.address 0 index
  call := Function.update s.call p .idle
  held := Function.update s.held p ((s.held p).erase index)

/-- The next step of a call. -/
def exec (s : Sys) (p : Pid) : Option Sys :=
  match s.call p with
  | .idle => none
  | .getHead => some (s.setCall p (.getLink (s.address 0)))
  | .getLink ret => some (s.setCall p (.getSwap ret (s.address ret)))
  | .getSwap ret newNext =>
      if s.address 0 = ret then some (s.got p ret newNext)
      else some (s.setCall p .getHead) -- goto retry
  | .releaseHead index => some (s.setCall p (.releaseStore index (s.address 0)))
  | .releaseStore index oldNext => some (s.stored p index oldNext)
  | .releaseSwap index oldNext =>
      if s.address 0 = oldNext then some (s.released p index)
      else some (s.setCall p (.releaseHead index)) -- goto retry

/-- A process calls `release` only with an index it holds. -/
def step (s : Sys) : Act → Option Sys
  | .get p => if s.call p = .idle then some (s.setCall p .getHead) else none
  | .release p index =>
      if s.call p = .idle ∧ index ∈ s.held p then some (s.setCall p (.releaseHead index))
      else none
  | .exec p => s.exec p

end Sys

/-- The channel after its constructor ran on a segment with any content. -/
def machine : StepMachine Sys Act where
  init s := ∃ a : Address, s = ⟨a.init, fun _ => .idle, fun _ => ∅⟩
  step := Sys.step

/-- When a `get` swaps, the link of the head index is the one it loaded. -/
def LinkCurrent (s : Sys) : Act → Prop
  | .exec p => ∀ ret newNext, s.call p = .getSwap ret newNext → s.address 0 = ret →
      s.address ret = newNext
  | _ => True

/-- What the locals of a call say about the channel. -/
def CallOk (s : Sys) (p : Pid) : Prop :=
  (∀ i, (s.call p).releasing = some i → i ∈ s.held p) ∧
  (∀ i old, s.call p = .releaseSwap i old → s.address i = old)

/-- The free list and the held indices partition the indices of the channel. -/
structure Partitioned (s : Sys) (l : List ℕ) : Prop where
  list : FreeList s.address l
  exclusive : ∀ p q i, i ∈ s.held p → i ∈ s.held q → p = q
  free : ∀ i, i ∈ l ↔ 1 ≤ i ∧ i ≤ channelSize ∧ ∀ p, i ∉ s.held p
  range : ∀ p, ∀ i ∈ s.held p, 1 ≤ i ∧ i ≤ channelSize
  calls : ∀ p, CallOk s p

variable {s s' : Sys} {l : List ℕ} {p q : Pid} {i : ℕ} {a : Act}

theorem Sys.mem_held_got (s : Sys) {j : ℕ} (newNext : ℕ) (hi : i ≠ 0) :
    j ∈ (s.got p i newNext).held q ↔ j ∈ s.held q ∨ q = p ∧ j = i := by
  have hheld : (s.got p i newNext).held = Function.update s.held p (insert i (s.held p)) :=
    if_neg hi
  rw [hheld]
  by_cases hq : q = p
  · subst hq
    rw [Function.update_self, Finset.mem_insert]
    tauto
  · rw [Function.update_of_ne hq]
    tauto

theorem Sys.mem_held_released (s : Sys) {j : ℕ} (i : ℕ) :
    j ∈ (s.released p i).held q ↔ j ∈ s.held q ∧ (q = p → j ≠ i) := by
  have hheld : (s.released p i).held = Function.update s.held p ((s.held p).erase i) := rfl
  rw [hheld]
  by_cases hq : q = p
  · subst hq
    rw [Function.update_self, Finset.mem_erase]
    tauto
  · rw [Function.update_of_ne hq]
    tauto

theorem CallOk.idle (h : s.call p = .idle) : CallOk s p := by
  unfold CallOk
  rw [h]
  exact ⟨fun _ hc => (by cases hc), fun _ _ hc => (by cases hc)⟩

/-- A step of another process keeps a call valid if it leaves the cells of the indices
held here alone. -/
theorem CallOk.frame (h : CallOk s q) (hcall : s'.call q = s.call q)
    (hheld : ∀ i ∈ s.held q, i ∈ s'.held q)
    (haddr : ∀ i ∈ s.held q, s'.address i = s.address i) : CallOk s' q := by
  unfold CallOk
  rw [hcall]
  refine ⟨fun i hi => hheld i (h.1 i hi), fun i old hc => ?_⟩
  have hi : i ∈ s.held q := h.1 i (by rw [hc]; rfl)
  rw [haddr i hi]
  exact h.2 i old hc

namespace Partitioned

theorem not_mem (h : Partitioned s l) (hi : i ∈ s.held p) : i ∉ l :=
  fun hl => ((h.free i).mp hl).2.2 p hi

theorem ne_zero (h : Partitioned s l) (hi : i ∈ s.held p) : i ≠ 0 := by
  have := (h.range p i hi).1
  omega

theorem start (a : Address) :
    Partitioned ⟨a.init, fun _ => .idle, fun _ => ∅⟩ (List.range' 1 channelSize) where
  list := init_freeList a
  exclusive := fun _ _ _ hi => absurd hi (Finset.notMem_empty _)
  free := by
    intro i
    have hmem : i ∈ List.range' 1 channelSize ↔ 1 ≤ i ∧ i < 1 + channelSize := List.mem_range'_1
    simp only [hmem, Finset.notMem_empty, not_false_eq_true, implies_true, and_true]
    omega
  range := fun _ _ hi => absurd hi (Finset.notMem_empty _)
  calls := fun _ => .idle rfl

/-- Loads, failed swaps and new calls. -/
theorem setCall {c : Call} (h : Partitioned s l) (hc : ∀ i, c.releasing = some i → i ∈ s.held p)
    (hold : ∀ i old, c = .releaseSwap i old → s.address i = old) :
    Partitioned (s.setCall p c) l where
  list := h.list
  exclusive := h.exclusive
  free := h.free
  range := h.range
  calls := by
    intro q
    by_cases hq : q = p
    · subst hq
      have hcall : (s.setCall q c).call q = c := Function.update_self _ _ _
      unfold CallOk
      rw [hcall]
      exact ⟨hc, hold⟩
    · exact (h.calls q).frame (Function.update_of_ne hq _ _) (fun _ hi => hi) fun _ _ => rfl

/-- A call that puts nothing back. -/
theorem setQuiet {c : Call} (h : Partitioned s l) (hc : c.releasing = none) :
    Partitioned (s.setCall p c) l := by
  refine h.setCall (fun i hi => ?_) fun i old he => ?_
  · rw [hc] at hi
    cases hi
  · rw [he] at hc
    cases hc

/-- The store of `release` goes to a cell of its caller. -/
theorem stored {old : ℕ} (h : Partitioned s l) (hi : i ∈ s.held p) :
    Partitioned (s.stored p i old) l where
  list := by
    refine ⟨?_, h.list.le⟩
    change LinkedCells.Linked _ 0 (Function.update s.address i old 0) l
    rw [Function.update_of_ne (h.ne_zero hi).symm]
    exact h.list.linked.update (h.not_mem hi) old
  exclusive := h.exclusive
  free := h.free
  range := h.range
  calls := by
    intro q
    by_cases hq : q = p
    · subst hq
      have hcall : (s.stored q i old).call q = .releaseSwap i old := Function.update_self _ _ _
      unfold CallOk
      rw [hcall]
      refine ⟨fun j hj => ?_, fun j old' hj => ?_⟩
      · cases hj
        exact hi
      · cases hj
        exact Function.update_self _ _ _
    · refine (h.calls q).frame (Function.update_of_ne hq _ _) (fun _ hj => hj) fun j hj => ?_
      have hne : j ≠ i := by
        rintro rfl
        exact hq (h.exclusive q p j hj hi)
      exact Function.update_of_ne hne _ _

/-- A successful swap of `get` on an empty list changes nothing. -/
theorem got_nil (h : Partitioned s []) : Partitioned (s.got p 0 (s.address 0)) [] := by
  have haddr : Function.update s.address 0 (s.address 0) = s.address :=
    Function.update_eq_self 0 s.address
  have hgot : s.got p 0 (s.address 0) = s.setCall p .idle := by
    rw [Sys.got, Sys.setCall, haddr, if_pos rfl]
  rw [hgot]
  exact h.setQuiet rfl

/-- A successful swap of `get` with the current link takes the first index. -/
theorem got_cons (h : Partitioned s (i :: l)) :
    Partitioned (s.got p i (s.address i)) l := by
  have hi0 : i ≠ 0 := (h.list.pos List.mem_cons_self).ne'
  have hfree := (h.free i).mp List.mem_cons_self
  have hnot : i ∉ l := (List.nodup_cons.mp h.list.nodup).1
  have hheld := fun q j => s.mem_held_got (s.address i) (q := q) (p := p) (j := j) hi0
  constructor
  · have hlist := h.list.get_cons.2
    rw [channelGet, h.list.linked.1] at hlist
    exact hlist
  · intro q q' j hj hj'
    rw [hheld] at hj hj'
    rcases hj with hj | ⟨rfl, rfl⟩ <;> rcases hj' with hj' | ⟨rfl, hj'⟩
    · exact h.exclusive q q' j hj hj'
    · exact absurd (hj' ▸ hj) (hfree.2.2 q)
    · exact absurd hj' (hfree.2.2 q')
    · rfl
  · intro j
    simp only [hheld, not_or, not_and]
    constructor
    · intro hj
      have hne : j ≠ i := fun he => hnot (he ▸ hj)
      have hold := (h.free j).mp (List.mem_cons_of_mem _ hj)
      exact ⟨hold.1, hold.2.1, fun q => ⟨hold.2.2 q, fun _ => hne⟩⟩
    · rintro ⟨h1, h2, hall⟩
      have hj := (h.free j).mpr ⟨h1, h2, fun q => (hall q).1⟩
      rcases List.mem_cons.mp hj with he | hj
      · exact absurd he ((hall p).2 rfl)
      · exact hj
  · intro q j hj
    rw [hheld] at hj
    rcases hj with hj | ⟨-, rfl⟩
    · exact h.range q j hj
    · exact ⟨hfree.1, hfree.2.1⟩
  · intro q
    by_cases hq : q = p
    · subst hq
      exact .idle (Function.update_self _ _ _)
    · refine (h.calls q).frame (Function.update_of_ne hq _ _)
        (fun j hj => (hheld q j).mpr (.inl hj)) fun j hj => ?_
      exact Function.update_of_ne (h.ne_zero hj) _ _

/-- A successful swap of `release` puts the index in front of the list. -/
theorem released (h : Partitioned s l) (hi : i ∈ s.held p) (hlink : s.address i = s.address 0) :
    Partitioned (s.released p i) (i :: l) := by
  have hnot := h.not_mem hi
  have hrange := h.range p i hi
  have hheld := fun q j => s.mem_held_released (q := q) (p := p) (j := j) i
  constructor
  · have hsame : Function.update s.address i (s.address 0) = s.address := by
      rw [← hlink, Function.update_eq_self]
    have hlist := h.list.release hnot hrange.1 hrange.2
    rw [channelRelease, hsame] at hlist
    exact hlist
  · intro q q' j hj hj'
    exact h.exclusive q q' j ((hheld q j).mp hj).1 ((hheld q' j).mp hj').1
  · intro j
    simp only [hheld, List.mem_cons]
    constructor
    · rintro (rfl | hj)
      · refine ⟨hrange.1, hrange.2, fun q hq => ?_⟩
        exact hq.2 (h.exclusive q p j hq.1 hi) rfl
      · have hold := (h.free j).mp hj
        exact ⟨hold.1, hold.2.1, fun q hq => hold.2.2 q hq.1⟩
    · rintro ⟨h1, h2, hall⟩
      by_cases hj : j = i
      · exact .inl hj
      · exact .inr ((h.free j).mpr ⟨h1, h2, fun q hq => hall q ⟨hq, fun _ => hj⟩⟩)
  · exact fun q j hj => h.range q j ((hheld q j).mp hj).1
  · intro q
    by_cases hq : q = p
    · subst hq
      exact .idle (Function.update_self _ _ _)
    · refine (h.calls q).frame (Function.update_of_ne hq _ _)
        (fun j hj => (hheld q j).mpr ⟨hj, fun he => absurd he hq⟩) fun j hj => ?_
      exact Function.update_of_ne (h.ne_zero hj) _ _

/-- Every step keeps the partition: a call takes or puts back an index in its
successful swap, and a `get` that swaps has the current link. -/
theorem step (h : Partitioned s l) (hc : LinkCurrent s a) (hs : s.step a = some s') :
    ∃ l', Partitioned s' l' := by
  cases a with
  | get p =>
    obtain ⟨-, rfl⟩ : s.call p = .idle ∧ s.setCall p .getHead = s' := by simpa [Sys.step] using hs
    exact ⟨l, h.setQuiet rfl⟩
  | release p i =>
    obtain ⟨⟨-, hi⟩, rfl⟩ : (s.call p = .idle ∧ i ∈ s.held p) ∧
        s.setCall p (.releaseHead i) = s' := by simpa [Sys.step] using hs
    refine ⟨l, h.setCall (fun j hj => ?_) fun _ _ hc => by cases hc⟩
    cases hj
    exact hi
  | exec p =>
    have hcall := h.calls p
    unfold CallOk at hcall
    simp only [Sys.step, Sys.exec] at hs
    cases hp : s.call p with
    | idle => simp [hp] at hs
    | getHead =>
      simp only [hp, Option.some.injEq] at hs
      subst hs
      exact ⟨l, h.setQuiet rfl⟩
    | getLink ret =>
      simp only [hp, Option.some.injEq] at hs
      subst hs
      exact ⟨l, h.setQuiet rfl⟩
    | getSwap ret newNext =>
      simp only [hp] at hs
      split at hs
      · next hhead =>
        cases hs
        obtain rfl := hc ret newNext hp hhead
        cases l with
        | nil =>
          have h0 : s.address 0 = 0 := h.list.linked
          obtain rfl : ret = 0 := hhead.symm.trans h0
          exact ⟨[], h.got_nil⟩
        | cons i l =>
          obtain rfl : ret = i := hhead.symm.trans h.list.linked.1
          exact ⟨l, h.got_cons⟩
      · cases hs
        exact ⟨l, h.setQuiet rfl⟩
    | releaseHead i =>
      simp only [hp, Option.some.injEq] at hs
      subst hs
      refine ⟨l, h.setCall (fun j hj => ?_) fun _ _ hc => by cases hc⟩
      cases hj
      exact hcall.1 i (by rw [hp]; rfl)
    | releaseStore i old =>
      simp only [hp, Option.some.injEq] at hs
      subst hs
      exact ⟨l, h.stored (hcall.1 i (by rw [hp]; rfl))⟩
    | releaseSwap i old =>
      have hi := hcall.1 i (by rw [hp]; rfl)
      simp only [hp] at hs
      split at hs
      · next hhead =>
        cases hs
        exact ⟨i :: l, h.released hi ((hcall.2 i old hp).trans hhead.symm)⟩
      · cases hs
        refine ⟨l, h.setCall (fun j hj => ?_) fun _ _ hc => by cases hc⟩
        cases hj
        exact hi

end Partitioned

/-- No index has two holders, the list from the head is acyclic, ends in 0 and has no
held index, and between calls it has every other index of the channel. -/
structure SingleHolder (s : Sys) : Prop where
  exclusive : ∀ p q i, i ∈ s.held p → i ∈ s.held q → p = q
  list : ∃ l, FreeList s.address l ∧ l.Nodup ∧ (∀ p, ∀ i ∈ s.held p, i ∉ l) ∧
    ((∀ p, s.call p = .idle) →
      ∀ i, i ∈ l ↔ 1 ≤ i ∧ i ≤ channelSize ∧ ∀ p, i ∉ s.held p)

/-- Every index has one holder as long as no `get` swaps with a link that has changed
since it was loaded. -/
theorem single_holder {s : Sys} (h : machine.Reachable LinkCurrent s) : SingleHolder s := by
  have hpart : ∃ l, Partitioned s l := by
    refine h.invariant (P := fun s => ∃ l, Partitioned s l) ?_ ?_
    · rintro s ⟨a, rfl⟩
      exact ⟨_, .start a⟩
    · rintro s a s' ⟨l, hl⟩ hc hs
      exact hl.step hc hs
  obtain ⟨l, hl⟩ := hpart
  exact ⟨hl.exclusive, l, hl.list, hl.list.nodup, fun _ _ hi => hl.not_mem hi, fun _ => hl.free⟩

theorem setCall_setCall (s : Sys) (p : Pid) (c c' : Call) :
    (s.setCall p c).setCall p c' = s.setCall p c' := by
  simp only [Sys.setCall, Function.update_idem]

theorem setCall_got (s : Sys) (p : Pid) (c : Call) (ret newNext : ℕ) :
    (s.setCall p c).got p ret newNext = s.got p ret newNext := by
  simp only [Sys.setCall, Sys.got, Function.update_idem]

theorem setCall_stored (s : Sys) (p : Pid) (c : Call) (i old : ℕ) :
    (s.setCall p c).stored p i old = s.stored p i old := by
  simp only [Sys.setCall, Sys.stored, Function.update_idem]

theorem setCall_call (s : Sys) (p : Pid) (c : Call) : (s.setCall p c).call p = c :=
  Function.update_self _ _ _

/-- A step of a call that is not at the swap of `get`. -/
theorem exec_steps {c : Call} (hc : s.call p = c) (hswap : ∀ ret newNext, c ≠ .getSwap ret newNext)
    (hs : s.exec p = some s') : machine.Steps LinkCurrent s s' :=
  Steps.single (a := .exec p) (fun ret newNext hg => absurd (hc.symm.trans hg) (hswap ret newNext))
    hs

/-- The two loads of a `get`. -/
theorem get_loads (h : s.call p = .idle) :
    machine.Steps LinkCurrent s
      (s.setCall p (.getSwap (s.address 0) (s.address (s.address 0)))) := by
  have h1 : machine.Steps LinkCurrent s (s.setCall p .getHead) :=
    Steps.single (a := .get p) trivial (if_pos h)
  have h2 : machine.Steps LinkCurrent (s.setCall p .getHead)
      (s.setCall p (.getLink (s.address 0))) := by
    refine exec_steps (setCall_call s p _) (by simp) ?_
    simp only [Sys.exec, setCall_call, setCall_setCall]
    rfl
  refine h1.trans (h2.trans (exec_steps (setCall_call s p _) (by simp) ?_))
  simp only [Sys.exec, setCall_call, setCall_setCall]
  rfl

/-- A `get` that runs alone is `channelGet`. -/
theorem solo_get (h : s.call p = .idle) :
    machine.Steps LinkCurrent s (s.got p (s.address 0) (s.address (s.address 0))) := by
  refine (get_loads h).trans (Steps.single (a := .exec p) ?_ ?_)
  · intro ret newNext hc _
    rw [setCall_call] at hc
    cases hc
    rfl
  · simp only [machine, Sys.step, Sys.exec, setCall_call, setCall_got]
    exact if_pos rfl

/-- The channel that a `get` running alone leaves. -/
theorem got_address (s : Sys) (p : Pid) :
    (s.got p (s.address 0) (s.address (s.address 0))).address = (channelGet s.address).2 := rfl

/-- `release` run alone. -/
def Sys.putBack (s : Sys) (p : Pid) (index : ℕ) : Sys :=
  (s.stored p index (s.address 0)).released p index

/-- The channel that a `release` running alone leaves. -/
theorem putBack_address (s : Sys) (p : Pid) (index : ℕ) :
    (s.putBack p index).address = channelRelease s.address index := rfl

/-- A `release` that runs alone is `channelRelease`. -/
theorem solo_release (h : s.call p = .idle) (hi : i ∈ s.held p) (hi0 : i ≠ 0) :
    machine.Steps LinkCurrent s (s.putBack p i) := by
  have h1 : machine.Steps LinkCurrent s (s.setCall p (.releaseHead i)) :=
    Steps.single (a := .release p i) trivial (if_pos ⟨h, hi⟩)
  have h2 : machine.Steps LinkCurrent (s.setCall p (.releaseHead i))
      (s.setCall p (.releaseStore i (s.address 0))) := by
    refine exec_steps (setCall_call s p _) (by simp) ?_
    simp only [Sys.exec, setCall_call, setCall_setCall]
    rfl
  have h3 : machine.Steps LinkCurrent (s.setCall p (.releaseStore i (s.address 0)))
      (s.stored p i (s.address 0)) := by
    refine exec_steps (setCall_call s p _) (by simp) ?_
    simp only [Sys.exec, setCall_call]
    rw [setCall_stored]
  have hstored : (s.stored p i (s.address 0)).call p = .releaseSwap i (s.address 0) :=
    Function.update_self _ _ _
  have hhead : (s.stored p i (s.address 0)).address 0 = s.address 0 :=
    Function.update_of_ne hi0.symm _ _
  refine h1.trans (h2.trans (h3.trans (exec_steps hstored (by simp) ?_)))
  simp only [Sys.exec, hstored]
  exact if_pos hhead

/-- The state after the constructor ran on a fresh segment. -/
def fresh : Sys := ⟨freshChannel, fun _ => .idle, fun _ => ∅⟩

/-- Process 0 gets the first index and puts it back, and process 1 gets it. -/
def handover : Sys := ((fresh.got 0 1 2).putBack 0 1).got 1 1 2

theorem handover_reachable : machine.Reachable LinkCurrent handover := by
  have h1 : machine.Steps LinkCurrent fresh (fresh.got 0 1 2) := solo_get rfl
  have h2 : machine.Steps LinkCurrent (fresh.got 0 1 2) ((fresh.got 0 1 2).putBack 0 1) :=
    solo_release rfl (by decide) (by decide)
  have h3 : machine.Steps LinkCurrent ((fresh.got 0 1 2).putBack 0 1) handover := solo_get rfl
  exact ⟨fresh, ⟨_, rfl⟩, h1.trans (h2.trans h3)⟩

theorem single_holder_handover : 1 ∈ handover.held 1 ∧ SingleHolder handover :=
  ⟨by decide, single_holder handover_reachable⟩

/-- Process 0 has loaded head 1 and link 2 when process 1 gets 1 and 2 and puts 1 back:
the head is 1 again, the swap of process 0 succeeds, and the list starts at the held
index 2. -/
theorem held_on_list : ¬ ∀ s, machine.Reachable Any s → SingleHolder s := by
  intro hall
  let s1 := fresh.setCall 0 (.getSwap 1 2)
  let s2 := (s1.got 1 1 2).got 1 2 3
  let s3 := s2.putBack 1 1
  have h1 : machine.Steps LinkCurrent fresh s1 := get_loads rfl
  have h2 : machine.Steps LinkCurrent s1 (s1.got 1 1 2) := solo_get rfl
  have h3 : machine.Steps LinkCurrent (s1.got 1 1 2) s2 := solo_get rfl
  have h4 : machine.Steps LinkCurrent s2 s3 := solo_release rfl (by decide) (by decide)
  have h5 : machine.Steps Any s3 (s3.got 0 1 2) := Steps.single (a := .exec 0) trivial rfl
  have hrun := (h1.trans (h2.trans (h3.trans h4))).mono (D := Any) fun _ _ _ => trivial
  obtain ⟨l, hl, -, hheld, -⟩ := (hall _ ⟨fresh, ⟨_, rfl⟩, hrun.trans h5⟩).list
  have hmem : 2 ∈ l := by
    cases l with
    | nil =>
      have hhead : (s3.got 0 1 2).address 0 = 0 := hl.linked
      exact absurd hhead (by decide)
    | cons i l =>
      obtain rfl : 2 = i := hl.linked.1
      exact List.mem_cons_self
  exact hheld 1 2 (by decide) hmem

end ShmSocket.Channel
