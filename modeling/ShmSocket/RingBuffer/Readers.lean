import ShmSocket.RingBuffer.Stream

/-! One writer and several readers. A reader copies before its swap, and the swap
compares a head taken modulo the ring size: bytes are delivered twice exactly through
a reader that was stalled for a whole turn of the head. -/
namespace ShmSocket.RingBuffer
open StepMachine
variable {s s' : Sys} {w : Tid} {a : Act}

def OneToMany (w : Tid) (_ : Sys) (a : Act) : Prop := OneWriter w a

/-- The reads, in the order of their swaps, return the accepted bytes in order, each
once, and the head stays behind `oldtail`. -/
structure ExactlyOnce (s : Sys) : Prop where
  returned : s.returned <+: s.written
  written : s.written <+: s.accepted
  behind : s.returned.length ≤ s.published
  distance : readSize s.ring.head s.ring.oldtail = s.published - s.returned.length

/-- With any number of readers every byte is delivered once and in order, as long as
no swap on `head` succeeds after the head has gone round the ring since its load. -/
theorem exactly_once {w : Tid} {s : Sys}
    (h : machine.Reachable (fun s a => OneToMany w s a ∧ NotTurned s a) s) : ExactlyOnce s := by
  have hinv : Inv s ∧ SoleWriter w s ∧ WrittenOk s := by
    refine h.invariant (P := fun s => Inv s ∧ SoleWriter w s ∧ WrittenOk s) ?_ ?_
    · rintro s ⟨content, rfl⟩
      exact ⟨.start content, .start w content, rfl⟩
    · rintro s a s' ⟨hi, hw, hlog⟩ ⟨ho, ht⟩ hs
      exact ⟨hi.step (hw.notLapped a) ht hs, hw.step hi ho hs, hlog.step hi hs⟩
  obtain ⟨hi, -, hlog⟩ := hinv
  have hret := returned_eq h
  have hcons := hi.consumed
  have hres := hi.reserved
  have hroom := hi.room
  constructor
  · rw [hret, hlog]
    exact List.prefix_take_iff.mpr ⟨hi.stream, hcons⟩
  · rw [hlog]
    exact List.take_prefix _ _
  · rw [hret]
    exact hcons
  · rw [hret, hi.head, hi.oldtail, readSize_mod hcons (by omega)]

instance (w : Tid) (s : Sys) (a : Act) : Decidable (OneToMany w s a) := by
  unfold OneToMany
  infer_instance

/-- Reader 1 has copied a byte that reader 2 takes first; its swap fails, and its next
attempt gets the byte after that. -/
def twoReaders : List Act :=
  schedule [(.write 0 [5, 6], 7), (.read 1 1, 3), (.read 2 1, 4), (.exec 1, 4)]

theorem exactly_once_twoReaders : ∃ s : Sys, s.returned = [5, 6] ∧ ExactlyOnce s := by
  obtain ⟨s, hr, hs⟩ := reachable_of_guarded (M := machine)
    (C := fun s a => OneToMany 0 s a ∧ NotTurned s a) (fun _ _ => of_decide_eq_true)
    (l := twoReaders) (P := fun s => decide (s.returned = [5, 6])) (s := .start fun _ => 0)
    ⟨_, rfl⟩ (by decide +kernel)
  exact ⟨s, of_decide_eq_true hs, exactly_once hr⟩

/-- A reader that copied one byte at offset 0 swaps when the head is back at 0. -/
theorem stale_swap {C : Sys → Act → Prop} {t : Tid} {f : ReadFrame} (hC : C s (.exec t))
    (ht : s.thread t = .reading .casHead f) (hhead : s.ring.head = f.head) :
    ∃ s', machine.Steps C s s' ∧ s'.delivered = s.delivered ++ f.out ∧
      s'.accepted = s.accepted := by
  have h1 := exec_read hC ht
  simp only [Sys.stepRead, if_pos hhead] at h1
  exact ⟨_, h1, rfl, rfl⟩

/-- From an empty ring with `head = 1`, the writer and another reader bring the head
to 0, and the writer adds the byte `b`. -/
theorem head_turn {C : Sys → Act → Prop} {w r : Tid} (hw : ∀ s, C s (.exec w))
    (hw' : ∀ s input, C s (.write w input)) (hr : ∀ s, C s (.exec r))
    (hr' : ∀ s len, C s (.read r len)) (hwi : s.thread w = .idle) (hri : s.thread r = .idle)
    (hs : s.ring.Settled) (hhead : s.ring.head = 1) (hq : s.ring.queue.length = 0) (b : Byte) :
    ∃ s', machine.Steps C s s' ∧ s'.thread = s.thread ∧ s'.ring.head = 0 ∧
      s'.delivered.length = s.delivered.length + (shmDataSize - 1) ∧
      s'.accepted[s.accepted.length + (shmDataSize - 1)]? = some b := by
  have hN := shmDataSize_eq
  obtain ⟨fill, hfill⟩ : ∃ l : List Byte, l.length = shmDataSize - 1 :=
    ⟨List.replicate _ 0, List.length_replicate⟩
  have hs1 := wrote_settled hs fill
  have hs2 := got_settled hs1 (shmDataSize - 1)
  have hq1 := wrote_queue_length hs fill
  have hq2 := got_queue_length hs1 (shmDataSize - 1)
  have hhead2 := got_head hs1 (shmDataSize - 1)
  have hacc := wrote_accepted_length s fill
  have hdel2 := got_delivered_length (s.wrote fill) (shmDataSize - 1)
  simp only [wrote_head, wrote_delivered] at *
  rw [hq, hfill] at hq1 hacc
  rw [hhead, hq1] at hhead2
  have h1 : machine.Steps C s (s.wrote fill) := solo_write hw (hw' _ _) hwi hs
  have h2 : machine.Steps C (s.wrote fill) ((s.wrote fill).got (shmDataSize - 1)) :=
    solo_read hr (hr' _ _) hri hs1
  have h3 : machine.Steps C ((s.wrote fill).got (shmDataSize - 1))
      (((s.wrote fill).got (shmDataSize - 1)).wrote [b]) := solo_write hw (hw' _ _) hwi hs2
  refine ⟨_, h1.trans (h2.trans h3), rfl, ?_, hdel2.trans (by omega), ?_⟩
  · rw [wrote_head, hhead2]
    have hturn : 1 + min (shmDataSize - 1)
        (0 + min (shmDataSize - 1) (shmDataSize - 1 - 0)) = shmDataSize := by omega
    rw [hturn, Nat.mod_self]
  · have hone : min [b].length
        (shmDataSize - 1 - ((s.wrote fill).got (shmDataSize - 1)).ring.queue.length) = 1 := by
      rw [List.length_singleton]
      omega
    change ((s.wrote fill).accepted ++ [b].take (min [b].length
      (shmDataSize - 1 - ((s.wrote fill).got (shmDataSize - 1)).ring.queue.length)))[_]? = some b
    rw [hone, List.getElem?_append_right (by omega)]
    have hz : s.accepted.length + (shmDataSize - 1) - (s.wrote fill).accepted.length = 0 := by omega
    rw [hz]
    rfl

/-- Reader 1 has copied the first byte when reader 2 takes it and follows the writer
round the ring: the head is back at offset 0, the swap of reader 1 succeeds, and the
stale byte is delivered in place of a new one. -/
theorem redelivery : ¬ ∀ w s, machine.Reachable (OneToMany w) s → ExactlyOnce s := by
  intro hall
  have hN := shmDataSize_eq
  have hC : ∀ (t : Tid) (s : Sys), OneToMany 0 s (.exec t) := fun _ _ => trivial
  let s0 := Sys.start fun _ => 0
  have hs0 : s0.ring.Settled := start_settled _
  have hs1 := wrote_settled hs0 [0]
  have hq1 := wrote_queue_length hs0 [0]
  have hacc1 := wrote_accepted_length s0 [0]
  have h1 : machine.Steps (OneToMany 0) s0 (s0.wrote [0]) := solo_write (hC 0) rfl rfl hs0
  rw [start_queue, List.length_nil, List.length_singleton] at hq1 hacc1
  have hone : min 1 (s0.wrote [0]).ring.queue.length = 1 := by omega
  have h2 := read_until_swap (hC 1) (show OneToMany 0 (s0.wrote [0]) (.read 1 1) from trivial)
    rfl hs1 (by omega)
  rw [hone] at h2
  obtain ⟨b, hb⟩ : ∃ b, (s0.wrote [0]).ring.queue.take 1 = [b] := by
    apply List.length_eq_one_iff.mp
    rw [List.length_take, hone]
  rw [hb] at h2
  generalize hf : (⟨1, 1, (s0.wrote [0]).ring.head, (s0.wrote [0]).ring.oldtail, [b],
    (s0.wrote [0]).delivered.length, (s0.wrote [0]).published⟩ : ReadFrame) = f at h2
  have hs2 : ((s0.wrote [0]).setThread 1 (.reading .casHead f)).ring.Settled := hs1
  have hq2 := got_queue_length hs2 1
  have hhead2 := got_head hs2 1
  have hdel2 := got_delivered_length ((s0.wrote [0]).setThread 1 (.reading .casHead f)) 1
  rw [setThread_ring, hone] at hq2 hhead2 hdel2
  have h3 := solo_read (hC 2) (show OneToMany 0 _ (.read 2 1) from trivial) rfl hs2
  obtain ⟨s4, h4, hth, hhead, hdel, hnew⟩ := head_turn (w := 0) (r := 2) (hC 0) (fun _ _ => rfl)
    (hC 2) (fun _ _ => trivial) rfl rfl (got_settled hs2 1)
    (hhead2.trans (Nat.mod_eq_of_lt (by rw [hN]; decide))) (by rw [hq2]; omega) (b + 1)
  obtain ⟨s5, h5, hdel5, hacc5⟩ := stale_swap (hC 1 s4) (f := f) (by rw [hth]; rfl)
    (by rw [hhead, ← hf]; rfl)
  have hreach : machine.Reachable (OneToMany 0) s5 :=
    ⟨s0, ⟨_, rfl⟩, h1.trans (h2.trans (h3.trans (h4.trans h5)))⟩
  have honce := hall 0 s5 hreach
  have hpre := honce.returned.trans honce.written
  rw [returned_eq hreach, hdel5, hacc5] at hpre
  obtain ⟨rest, hrest⟩ := hpre
  have hlen : s4.delivered.length = (s0.wrote [0]).accepted.length + (shmDataSize - 1) := by
    rw [hdel, hdel2, hacc1]
    rfl
  have hold : s4.accepted[s4.delivered.length]? = some b := by
    rw [← hrest, ← hf, List.append_assoc, List.getElem?_append_right le_rfl, Nat.sub_self]
    rfl
  rw [hlen] at hold
  have hsame : some b = some (b + 1) := hold.symm.trans hnew
  have hne : b ≠ b + 1 := by grind
  exact hne (Option.some.inj hsame)

end ShmSocket.RingBuffer
