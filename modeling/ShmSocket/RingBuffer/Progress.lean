import ShmSocket.RingBuffer.Commit
import ShmSocket.RingBuffer.Stream
import ShmSocket.Lib.Progress

/-! The calls in progress return: a spin on `oldtail` waits for a reservation whose writer
can step, a failed swap is paid for by the call whose swap succeeded, and every other step
brings its call nearer to its end. -/
namespace ShmSocket.RingBuffer
open StepMachine
variable {s s' : Sys} {t u : Tid} {a : Act} {T : Finset Tid}

/-- The one successful swap on `tail` or `head` of a call is still to come. -/
def Thread.pending : Thread → ℕ
  | .writing .loadHead _ | .writing .loadTail _ | .writing .loadOldtail _
  | .writing .casTail _ | .reading _ _ => 1
  | _ => 0

/-- The steps a call has left while `head` and `tail` stay. An attempt whose loaded word
is out of date pays for the attempt after it. -/
def Thread.left (head tail : ℕ) : Thread → ℕ
  | .idle => 0
  | .writing .loadHead _ => 4
  | .writing .loadTail _ => 3
  | .writing .loadOldtail f => 2 + if tail = f.tail then 0 else 5
  | .writing .casTail f => 1 + if tail = f.tail then 0 else 5
  | .writing (.copy k) f => 2 + (f.len - k)
  | .writing .casOldtail _ => 1
  | .reading .loadHead f => f.len + 4
  | .reading .loadOldtail f => f.len + 3 + if head = f.head then 0 else f.len + 4
  | .reading .copy f => f.len - f.out.length + 2 + if head = f.head then 0 else f.len + 4
  | .reading .casHead f => 1 + if head = f.head then 0 else f.len + 4

/-- First the swaps to come, then the steps left. -/
def work (T : Finset Tid) (s : Sys) : ℕ ×ₗ ℕ :=
  toLex (∑ t ∈ T, (s.thread t).pending, ∑ t ∈ T, (s.thread t).left s.ring.head s.ring.tail)

/-- A call makes its successful swap, or returns before it. -/
theorem work_lt_of_pending {th : Thread} (ht : t ∈ T)
    (hth : s'.thread = Function.update s.thread t th)
    (hlt : th.pending < (s.thread t).pending) : work T s' < work T s := by
  apply Prod.Lex.left
  apply sum_lt_of_one ht
  · rw [hth, Function.update_self]
    exact hlt
  · intro u _ hu
    rw [hth, Function.update_of_ne hu]

/-- A call takes a step that leaves `head` and `tail` alone. -/
theorem work_lt_of_left {th : Thread} (ht : t ∈ T)
    (hth : s'.thread = Function.update s.thread t th) (hhead : s'.ring.head = s.ring.head)
    (htail : s'.ring.tail = s.ring.tail) (hpend : th.pending ≤ (s.thread t).pending)
    (hlt : th.left s.ring.head s.ring.tail < (s.thread t).left s.ring.head s.ring.tail) :
    work T s' < work T s := by
  by_cases hp : th.pending < (s.thread t).pending
  · exact work_lt_of_pending ht hth hp
  have hsame : ∀ u, (s'.thread u).pending = (s.thread u).pending := by
    intro u
    by_cases hu : u = t
    · rw [hu, hth, Function.update_self]
      omega
    · rw [hth, Function.update_of_ne hu]
  unfold work
  simp only [hsame, hhead, htail]
  apply Prod.Lex.right
  apply sum_lt_of_one ht
  · rw [hth, Function.update_self]
    exact hlt
  · intro u _ hu
    rw [hth, Function.update_of_ne hu]

theorem work_stepWrite {pc : WritePc} {f : WriteFrame} (ht : t ∈ T)
    (hpc : s.thread t = .writing pc f) :
    (pc = .casOldtail ∧ s.ring.oldtail ≠ f.tail) ∨ work T (s.stepWrite t pc f) < work T s := by
  cases pc with
  | loadHead =>
    right
    refine work_lt_of_left ht rfl rfl rfl ?_ ?_ <;> simp [hpc, Thread.pending, Thread.left]
  | loadTail =>
    right
    refine work_lt_of_left ht rfl rfl rfl ?_ ?_ <;> simp [hpc, Thread.pending, Thread.left]
  | loadOldtail =>
    right
    simp only [Sys.stepWrite]
    split_ifs
    · refine work_lt_of_pending ht rfl ?_
      simp [hpc, Thread.pending]
    · refine work_lt_of_left ht rfl rfl rfl ?_ ?_ <;> simp [hpc, Thread.pending, Thread.left]
  | casTail =>
    right
    by_cases hcas : s.ring.tail = f.tail
    · simp only [Sys.stepWrite, if_pos hcas]
      refine work_lt_of_pending ht rfl ?_
      simp [hpc, Thread.pending]
    · simp only [Sys.stepWrite, if_neg hcas]
      refine work_lt_of_left ht rfl rfl rfl ?_ ?_
      · simp [hpc, Thread.pending]
      · simp [hpc, Thread.left, hcas]
  | copy k =>
    right
    refine work_lt_of_left ht rfl rfl rfl ?_ ?_
    · split_ifs <;> simp [hpc, Thread.pending]
    · split_ifs <;> simp only [hpc, Thread.left] <;> omega
  | casOldtail =>
    by_cases hcas : s.ring.oldtail = f.tail
    · right
      simp only [Sys.stepWrite, if_pos hcas]
      refine work_lt_of_left ht rfl rfl rfl ?_ ?_ <;> simp [hpc, Thread.pending, Thread.left]
    · exact .inl ⟨rfl, hcas⟩

theorem work_stepRead {pc : ReadPc} {f : ReadFrame} (ht : t ∈ T)
    (hpc : s.thread t = .reading pc f) : work T (s.stepRead t pc f) < work T s := by
  cases pc with
  | loadHead =>
    refine work_lt_of_left ht rfl rfl rfl ?_ ?_ <;> simp [hpc, Thread.pending, Thread.left]
  | loadOldtail =>
    simp only [Sys.stepRead]
    split_ifs
    · refine work_lt_of_pending ht rfl ?_
      simp [hpc, Thread.pending]
    · refine work_lt_of_left ht rfl rfl rfl ?_ ?_
      · simp [hpc, Thread.pending]
      · simp only [hpc, Thread.left, List.length_nil]
        split_ifs <;> omega
  | copy =>
    refine work_lt_of_left ht rfl rfl rfl ?_ ?_
    · split_ifs <;> simp [hpc, Thread.pending]
    · simp only [hpc, List.length_append, List.length_singleton]
      split_ifs <;> simp only [Thread.left, List.length_append, List.length_singleton] <;>
        split_ifs <;> omega
  | casHead =>
    by_cases hcas : s.ring.head = f.head
    · simp only [Sys.stepRead, if_pos hcas]
      refine work_lt_of_pending ht rfl ?_
      simp [hpc, Thread.pending]
    · simp only [Sys.stepRead, if_neg hcas]
      refine work_lt_of_left ht rfl rfl rfl ?_ ?_
      · simp [hpc, Thread.pending]
      · simp [hpc, Thread.left, hcas]

/-- Only threads of `T` are inside a call. -/
def Within (T : Finset Tid) (s : Sys) : Prop := ∀ t ∉ T, s.thread t = .idle

theorem Within.of_step {th : Thread} (h : Within T s)
    (hth : s'.thread = Function.update s.thread t th) : Within (insert t T) s' := by
  intro u hu
  rw [Finset.mem_insert, not_or] at hu
  rw [hth, Function.update_of_ne hu.1]
  exact h u hu.2

theorem Within.step (h : Within T s) (hs : s.step a = some s') : ∃ T', Within T' s' := by
  cases step_cases hs with
  | write => exact ⟨_, h.of_step rfl⟩
  | read => exact ⟨_, h.of_step rfl⟩
  | writing ht =>
    obtain ⟨th, hth, -⟩ := stepWrite_thread s _ _ _ ht
    exact ⟨_, h.of_step hth⟩
  | reading =>
    obtain ⟨th, hth, -⟩ := stepRead_thread s _ _ _
    exact ⟨_, h.of_step hth⟩

/-- Finitely many calls are in progress. -/
theorem exists_within {C : Sys → Act → Prop} (h : machine.Reachable C s) :
    ∃ T, Within T s ∧ ∀ t ∈ T, s.thread t ≠ .idle := by
  classical
  obtain ⟨T, hT⟩ : ∃ T, Within T s := by
    refine h.invariant (P := fun s => ∃ T, Within T s) ?_ ?_
    · rintro s ⟨content, rfl⟩
      exact ⟨∅, fun _ _ => rfl⟩
    · rintro s a s' ⟨T, hT⟩ - hs
      exact hT.step hs
  refine ⟨T.filter fun t => s.thread t ≠ .idle, fun t ht => ?_, fun t ht => ?_⟩
  · by_contra hbusy
    have hmem : t ∈ T := by
      by_contra hnot
      exact hbusy (hT t hnot)
    exact ht (Finset.mem_filter.mpr ⟨hmem, hbusy⟩)
  · exact (Finset.mem_filter.mp ht).2

/-- A step of a call keeps to the calls in progress. -/
theorem Within.exec (h : Within T s) (hs : s.step (.exec t) = some s') :
    t ∈ T ∧ Within T s' := by
  have ht : t ∈ T := by
    by_contra hnot
    simp [Sys.step, h t hnot] at hs
  refine ⟨ht, ?_⟩
  have hsame : ∀ th, s'.thread = Function.update s.thread t th → Within T s' := by
    intro th hth
    rw [← Finset.insert_eq_of_mem ht]
    exact h.of_step hth
  cases step_cases hs with
  | writing hpc =>
    obtain ⟨th, hth, -⟩ := stepWrite_thread s _ _ _ hpc
    exact hsame th hth
  | reading =>
    obtain ⟨th, hth, -⟩ := stepRead_thread s _ _ _
    exact hsame th hth

/-- Each step of a call lowers the work, but for a spin on `oldtail`. -/
theorem work_exec (ht : t ∈ T) (hs : s.step (.exec t) = some s') :
    (s' = s ∧ ∃ f, s.thread t = .writing .casOldtail f ∧ s.ring.oldtail ≠ f.tail) ∨
      work T s' < work T s := by
  cases step_cases hs with
  | @writing _ pc f hpc =>
    rcases work_stepWrite ht hpc with ⟨rfl, hne⟩ | hlt
    · left
      refine ⟨?_, f, hpc, hne⟩
      simp only [Sys.stepWrite, if_neg hne]
    · exact .inr hlt
  | reading hpc => exact .inr (work_stepRead ht hpc)

/-- While a call is in progress, some call can step without spinning: a spin waits for
the reservation at the end of the published bytes. -/
theorem exists_nonspinning (hi : Inv s) (hcov : Covered s) (ht : s.thread t ≠ .idle) :
    ∃ u, s.thread u ≠ .idle ∧
      ∀ f, s.thread u = .writing .casOldtail f → s.ring.oldtail = f.tail := by
  by_cases hspin : ∃ f, s.thread t = .writing .casOldtail f
  · obtain ⟨f, hf⟩ := hspin
    have hr := spinning_reserves hi hf
    have hpos := hr.pos
    have hun := hr.unpublished
    have hacc := hr.accepted
    obtain ⟨u, hu⟩ := hcov s.published le_rfl (by omega)
    refine ⟨u, ?_, ?_⟩
    · intro hidle
      rw [hidle] at hu
      exact hu
    · intro g hg
      have hrg := spinning_reserves hi hg
      rw [hg] at hu
      have hle : g.tailAt ≤ s.published := hu.1
      rw [hi.oldtail, hrg.image, le_antisymm hrg.unpublished hle]
  · exact ⟨t, ht, fun f hf => absurd ⟨f, hf⟩ hspin⟩

theorem exec_of_busy (ht : s.thread t ≠ .idle) : ∃ s', s.step (.exec t) = some s' := by
  cases hpc : s.thread t with
  | idle => exact absurd hpc ht
  | writing pc f => exact ⟨s.stepWrite t pc f, by simp [Sys.step, hpc]⟩
  | reading pc f => exact ⟨s.stepRead t pc f, by simp [Sys.step, hpc]⟩

/-- The steps on which the invariant of the ring survives. -/
def Bounded (s : Sys) (a : Act) : Prop := NotLapped s a ∧ NotTurned s a

/-- What every state of a run without new calls meets. -/
structure Draining (T : Finset Tid) (s : Sys) : Prop where
  inv : Inv s
  covered : Covered s
  within : Within T s

/-- A step of a call in progress. -/
def Serves (s : Sys) (a : Act) : Prop := Bounded s a ∧ ∃ t, a = .exec t

theorem Draining.step (h : Draining T s) (hc : Serves s a) (hs : s.step a = some s') :
    Draining T s' := by
  obtain ⟨⟨hl, ht⟩, t, rfl⟩ := hc
  exact ⟨h.inv.step hl ht hs, h.covered.step h.inv hs, (h.within.exec hs).2⟩

theorem Draining.live (h : Draining T s) (hbusy : ¬ ∀ t, s.thread t = .idle) :
    ∃ t ∈ T, ∃ s', s.step (.exec t) = some s' ∧ s' ≠ s := by
  obtain ⟨t, ht⟩ := not_forall.mp hbusy
  obtain ⟨u, hu, hnospin⟩ := exists_nonspinning h.inv h.covered ht
  obtain ⟨s', hs⟩ := exec_of_busy hu
  refine ⟨u, (h.within.exec hs).1, s', hs, ?_⟩
  rcases work_exec (h.within.exec hs).1 hs with ⟨-, f, hf, hne⟩ | hlt
  · exact absurd (hnospin f hf) hne
  · rintro rfl
    exact lt_irrefl _ hlt

/-- With nothing reserved and unpublished the ring is settled. -/
theorem settled_of_idle (hi : Inv s) (hcov : Covered s) (hidle : ∀ t, s.thread t = .idle) :
    s.ring.Settled := by
  have hp : s.published = s.accepted.length := by
    by_contra hne
    have hres := hi.reserved
    obtain ⟨t, ht⟩ := hcov s.published le_rfl (by omega)
    rw [hidle t] at ht
    exact ht
  refine ⟨?_, ?_, ?_⟩
  · rw [hi.head]
    exact Nat.mod_lt _ shmDataSize_pos
  · rw [hi.tail]
    exact Nat.mod_lt _ shmDataSize_pos
  · rw [hi.oldtail, hi.tail, hp]

theorem covered_of_reachable (h : machine.Reachable Bounded s) : Inv s ∧ Covered s := by
  refine h.invariant (P := fun s => Inv s ∧ Covered s) ?_ ?_
  · rintro s ⟨content, rfl⟩
    exact ⟨.start content, fun q _ hq => absurd hq (Nat.not_lt_zero q)⟩
  · rintro s a s' ⟨hi, hcov⟩ ⟨hl, ht⟩ hs
    exact ⟨hi.step hl ht hs, hcov.step hi hs⟩

/-- The steps of the calls in progress in `s`. -/
def Sys.serving (s : Sys) : Set Act := {a | ∃ t, s.thread t ≠ .idle ∧ a = .exec t}

/-- In every fair run without new calls all calls in progress return and leave the ring
settled, whoever spins on `oldtail` and however often swaps fail. -/
theorem calls_return {R : machine.Run} (h : machine.Reachable Bounded (R.state 0))
    (hserves : R.Meets Serves) (hfair : R.Fair (R.state 0).serving) :
    ∃ n, (∀ t, (R.state n).thread t = .idle) ∧ (R.state n).ring.Settled := by
  obtain ⟨T, hT, hbusy⟩ := exists_within h
  obtain ⟨hi, hcov⟩ := covered_of_reachable h
  have hdrain : ∀ n, Draining T (R.state n) :=
    R.invariant (fun _ _ _ hd hc hs => hd.step hc hs) hserves ⟨hi, hcov, hT⟩
  obtain ⟨n, hn⟩ := R.reaches (G := fun s => ∀ t, s.thread t = .idle) (work T) hserves hfair
    hdrain
    (fun s a s' hd hc hs => by
      obtain ⟨-, t, rfl⟩ := hc
      exact (work_exec (hd.within.exec hs).1 hs).imp And.left id)
    (fun s hd hnot => by
      obtain ⟨t, ht, hlive⟩ := hd.live hnot
      exact ⟨_, ⟨t, hbusy t ht, rfl⟩, hlive⟩)
  exact ⟨n, hn, settled_of_idle (hdrain n).inv (hdrain n).covered hn⟩

/-- Thread 0 is about to write two bytes and thread 1 to read five. -/
def writeRead : Sys :=
  ((Sys.start fun _ => 0).setThread 0 (.writing .loadHead ⟨[1, 2], 2, 0, 0, 0, 0, 0⟩)).setThread 1
    (.reading .loadHead ⟨5, 5, 0, 0, [], 0, 0⟩)

theorem writeRead_reachable : machine.Reachable (OneToOne 0 1) writeRead := by
  have h0 : machine.Reachable (OneToOne 0 1) (Sys.start fun _ => 0) := .init ⟨_, rfl⟩
  have h1 := h0.step (a := Act.write 0 [1, 2]) ⟨rfl, trivial⟩ rfl
  exact h1.step (a := Act.read 1 5) ⟨trivial, rfl⟩ rfl

/-- The two threads in turn. -/
def inTurn : machine.Run := .follow machine writeRead fun n => .exec (n % 2)

theorem inTurn_serves : inTurn.Meets Serves := by
  intro n
  have hst : Stream 0 1 (inTurn.state n) :=
    inTurn.invariant (C := OneToOne 0 1) (fun _ _ _ hp ho hs => hp.step ho hs)
      (fun _ => ⟨trivial, trivial⟩) (.of_reachable writeRead_reachable) n
  exact ⟨⟨hst.writer.notLapped _, hst.reader.notTurned _⟩, n % 2, rfl⟩

theorem inTurn_fair : inTurn.Fair writeRead.serving := by
  rintro a ⟨t, ht, rfl⟩ n
  have hlt : t = 0 ∨ t = 1 := by
    by_contra hnot
    rw [not_or] at hnot
    apply ht
    simp only [writeRead, Sys.setThread]
    rw [Function.update_of_ne hnot.2, Function.update_of_ne hnot.1]
    rfl
  rcases hlt with rfl | rfl
  · exact ⟨2 * n, by omega, congrArg Act.exec (by omega : 2 * n % 2 = 0)⟩
  · exact ⟨2 * n + 1, by omega, congrArg Act.exec (by omega : (2 * n + 1) % 2 = 1)⟩

theorem calls_return_inTurn : ∃ n, (∀ t, (inTurn.state n).thread t = .idle) ∧
    (inTurn.state n).ring.Settled :=
  calls_return ((reachable_exact (fun _ _ _ => trivial) writeRead_reachable).mono
    fun _ _ h => h.2) inTurn_serves inTurn_fair

end ShmSocket.RingBuffer
