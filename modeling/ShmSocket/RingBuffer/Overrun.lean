import ShmSocket.RingBuffer.Stream

/-! Several writers and one reader. The free space comes from a `head` load and a
`tail` load at different moments, and only `tail` is validated by the swap: the ring
overruns exactly through a writer whose head `tail` has lapped in between. -/
namespace ShmSocket.RingBuffer
open CircularWindow StepMachine
variable {s s' : Sys} {r : Tid} {a : Act}

/-- The reserved and unread bytes fit, a copy goes to no other such byte, and a ring
with unread bytes does not look empty. -/
structure WithinCapacity (s : Sys) : Prop where
  consumed : s.delivered.length ≤ s.accepted.length
  bound : s.accepted.length - s.delivered.length ≤ shmDataSize - 1
  copies : ∀ t k f, s.thread t = .writing (.copy k) f →
    ∀ q, s.delivered.length ≤ q → q < s.accepted.length →
      q % shmDataSize = copyOffset f.tail f.len k → q = f.tailAt + k
  unread : s.delivered.length < s.accepted.length → s.ring.head ≠ s.ring.tail
  published : s.delivered.length < s.published → s.ring.head ≠ s.ring.oldtail

theorem Inv.withinCapacity (h : Inv s) : WithinCapacity s where
  consumed := h.consumed.trans h.reserved
  bound := by
    have := h.room
    omega
  copies := by
    intro t k f ht q hq hq' he
    have hok : ThreadOk s (s.thread t) := h.threads t
    rw [ht] at hok
    obtain ⟨hr, hk⟩ := hok
    have hroom := h.room
    have hcons := h.consumed
    have hun := hr.unpublished
    have hacc := hr.accepted
    rw [hr.image, copyOffset_mod (by omega) hk] at he
    exact eq_of_mod_eq hq (by omega) (by omega) (by omega) he
  unread := by
    intro hlt he
    have hroom := h.room
    rw [h.head, h.tail] at he
    have := eq_of_mod_eq le_rfl (by omega) hlt.le hroom he
    omega
  published := by
    intro hlt he
    have hroom := h.room
    have hres := h.reserved
    rw [h.head, h.oldtail] at he
    have := eq_of_mod_eq le_rfl (by omega) hlt.le (by omega) he
    omega

def ManyToOne (r : Tid) (_ : Sys) (a : Act) : Prop := OneReader r a

/-- With any number of writers the ring stays within capacity as long as no swap on
`tail` succeeds after `tail` has lapped the head its attempt loaded. -/
theorem no_overrun {r : Tid} {s : Sys}
    (h : machine.Reachable (fun s a => ManyToOne r s a ∧ NotLapped s a) s) :
    WithinCapacity s := by
  have hinv : Inv s ∧ SoleReader r s := by
    refine h.invariant (P := fun s => Inv s ∧ SoleReader r s) ?_ ?_
    · rintro s ⟨content, rfl⟩
      exact ⟨.start content, .start r content⟩
    · rintro s a s' ⟨hi, hr⟩ ⟨ho, hl⟩ hs
      exact ⟨hi.step hl (hr.notTurned a) hs, hr.step hi ho hs⟩
  exact hinv.1.withinCapacity

instance (r : Tid) (s : Sys) (a : Act) : Decidable (ManyToOne r s a) := by
  unfold ManyToOne
  infer_instance

/-- Two writers have reserved, and the second one waits for the first one to publish. -/
theorem no_overrun_twoWriters : ∃ s : Sys, s.accepted = [1, 2, 3] ∧ s.published = 0 ∧
    WithinCapacity s := by
  obtain ⟨s, hr, hs⟩ := StepMachine.reachable_of_guarded (M := machine)
    (C := fun s a => ManyToOne 1 s a ∧ NotLapped s a) (fun _ _ => of_decide_eq_true)
    (l := twoReservations) (P := fun s => decide (s.accepted = [1, 2, 3] ∧ s.published = 0))
    (s := .start fun _ => 0) ⟨_, rfl⟩ (by decide +kernel)
  obtain ⟨haccepted, hpublished⟩ := of_decide_eq_true hs
  exact ⟨s, haccepted, hpublished, no_overrun hr⟩

/-- A writer that loaded `head = 0` for one byte goes on in a state with `tail = 0`:
it finds the ring empty and reserves. -/
theorem stale_reserve {C : Sys → Act → Prop} {t : Tid} {f : WriteFrame}
    (hC : ∀ s, C s (.exec t)) (ht : s.thread t = .writing .loadTail f) (hhead : f.head = 0)
    (hlen : f.len = 1) (hin : 1 ≤ f.input.length) (htail : s.ring.tail = 0) :
    ∃ s', machine.Steps C s s' ∧ s'.accepted.length = s.accepted.length + 1 ∧
      s'.delivered = s.delivered := by
  have hsize : writeSize 0 0 = shmDataSize - 1 := by simp [writeSize]
  have hone : min (shmDataSize - 1) 1 = 1 := by
    have := shmDataSize_eq
    omega
  have h1 := exec_write (hC _) ht
  have h2 := exec_write (hC _) (setThread_thread s t (.writing .loadOldtail
    { f with tail := s.ring.tail, tailAt := s.accepted.length }))
  simp only [Sys.stepWrite, setThread_setThread, setThread_ring, hhead, hlen, htail, hsize, hone,
    one_ne_zero, if_false] at h1 h2
  have h3 := exec_write (hC _) (setThread_thread s t (.writing .casTail
    ⟨f.input, 1, 0, 0, s.ring.oldtail, f.headAt, s.accepted.length⟩))
  simp only [Sys.stepWrite, setThread_ring, htail, if_true] at h3
  refine ⟨_, h1.trans (h2.trans h3), ?_, rfl⟩
  change (s.accepted ++ f.input.take 1).length = _
  rw [List.length_append, List.length_take, Nat.min_eq_left hin]

/-- From an empty ring with `head = 0`, a writer and the reader bring `tail` once
round the ring while the head moves by one byte. -/
theorem tail_turn {C : Sys → Act → Prop} {w r : Tid} (hw : ∀ s, C s (.exec w))
    (hw' : ∀ s input, C s (.write w input)) (hr : ∀ s, C s (.exec r))
    (hr' : ∀ s len, C s (.read r len)) (hwi : s.thread w = .idle) (hri : s.thread r = .idle)
    (hs : s.ring.Settled) (hhead : s.ring.head = 0) (hq : s.ring.queue.length = 0) :
    ∃ s', machine.Steps C s s' ∧ s'.thread = s.thread ∧ s'.ring.tail = 0 ∧
      s'.accepted.length = s.accepted.length + shmDataSize ∧
      s'.delivered.length = s.delivered.length + 1 := by
  have hN := shmDataSize_eq
  obtain ⟨fill, hfill⟩ : ∃ l : List Byte, l.length = shmDataSize - 1 :=
    ⟨List.replicate _ 0, List.length_replicate⟩
  have hs1 := wrote_settled hs fill
  have hs2 := got_settled hs1 1
  have hs3 := wrote_settled hs2 [0]
  have hq1 := wrote_queue_length hs fill
  have hq2 := got_queue_length hs1 1
  have hq3 := wrote_queue_length hs2 [0]
  have hhead2 := got_head hs1 1
  have htail3 := hs3.tail_eq
  have hacc := wrote_accepted_length s fill
  have hacc3 := wrote_accepted_length ((s.wrote fill).got 1) [0]
  have hdel2 := got_delivered_length (s.wrote fill) 1
  simp only [wrote_head, wrote_delivered, got_accepted, List.length_singleton] at *
  rw [hq, hfill] at hq1 hacc
  have h1 : machine.Steps C s (s.wrote fill) := solo_write hw (hw' _ _) hwi hs
  have h2 : machine.Steps C (s.wrote fill) ((s.wrote fill).got 1) :=
    solo_read hr (hr' _ _) hri hs1
  have h3 : machine.Steps C ((s.wrote fill).got 1) (((s.wrote fill).got 1).wrote [0]) :=
    solo_write hw (hw' _ _) hwi hs2
  refine ⟨_, h1.trans (h2.trans h3), rfl, ?_, by omega, hdel2.trans (by omega)⟩
  rw [htail3, hhead2, hhead, Nat.mod_add_mod]
  have hturn : 0 + min 1 (s.wrote fill).ring.queue.length +
      (((s.wrote fill).got 1).wrote [0]).ring.queue.length = shmDataSize := by omega
  rw [hturn, Nat.mod_self]

/-- Writer 1 has loaded the head when writer 2 fills the ring, the reader takes one
byte and writer 2 adds one: `tail` is back at the offset of the head, the stale head
makes the full ring look empty, and writer 1 reserves one byte too many. -/
theorem overrun : ¬ ∀ r s, machine.Reachable (ManyToOne r) s → WithinCapacity s := by
  intro hall
  let f : WriteFrame := ⟨[1], 1, 0, 0, 0, 0, 0⟩
  let s0 := Sys.start fun _ => 0
  let s1 := s0.setThread 1 (.writing .loadTail f)
  have h1 : machine.Steps (ManyToOne 0) s0 s1 := by
    have hcall : machine.Steps (ManyToOne 0) s0 (s0.setThread 1 (.writing .loadHead f)) :=
      Steps.single (a := .write 1 [1]) trivial rfl
    have hload := exec_write (C := ManyToOne 0) trivial
      (setThread_thread s0 1 (.writing .loadHead f))
    rw [Sys.stepWrite, setThread_setThread] at hload
    exact hcall.trans hload
  obtain ⟨s2, h2, hth, htail, hacc, hdel⟩ := tail_turn (s := s1) (C := ManyToOne 0) (w := 2)
    (r := 0) (fun _ => trivial) (fun _ _ => trivial) (fun _ => trivial) (fun _ _ => rfl) rfl rfl
    (start_settled _) rfl rfl
  obtain ⟨s3, h3, hacc3, hdel3⟩ := stale_reserve (s := s2) (t := 1) (f := f) (C := ManyToOne 0)
    (fun _ => trivial) (by rw [hth]; rfl) rfl rfl le_rfl htail
  have hbound := (hall 0 s3 ⟨s0, ⟨_, rfl⟩, h1.trans (h2.trans h3)⟩).bound
  rw [hacc3, hdel3, hacc, hdel] at hbound
  change 0 + shmDataSize + 1 - (0 + 1) ≤ shmDataSize - 1 at hbound
  have hpos := shmDataSize_pos
  omega

end ShmSocket.RingBuffer
