import ShmSocket.RingBuffer.Preservation
import ShmSocket.RingBuffer.Sequential

/-! A call that runs from its first step to its last without interruption does what
`rbWrite` and `rbRead` compute. -/
namespace ShmSocket.RingBuffer
open CircularWindow StepMachine
variable {C : Sys → Act → Prop} {s : Sys} {t : Tid}

@[simp] theorem setThread_thread (s : Sys) (t : Tid) (th : Thread) :
    (s.setThread t th).thread t = th := Function.update_self ..

@[simp] theorem setThread_ring (s : Sys) (t : Tid) (th : Thread) :
    (s.setThread t th).ring = s.ring := rfl

@[simp] theorem setThread_accepted (s : Sys) (t : Tid) (th : Thread) :
    (s.setThread t th).accepted = s.accepted := rfl

@[simp] theorem setThread_published (s : Sys) (t : Tid) (th : Thread) :
    (s.setThread t th).published = s.published := rfl

@[simp] theorem setThread_delivered (s : Sys) (t : Tid) (th : Thread) :
    (s.setThread t th).delivered = s.delivered := rfl

@[simp] theorem setThread_setThread (s : Sys) (t : Tid) (th th' : Thread) :
    (s.setThread t th).setThread t th' = s.setThread t th' := by
  simp only [Sys.setThread, Function.update_idem]

theorem setThread_same {th : Thread} (ht : s.thread t = th) : s.setThread t th = s := by
  rw [← ht]
  simp only [Sys.setThread, Function.update_eq_self]

theorem exec_write (hC : C s (.exec t)) {pc : WritePc} {f : WriteFrame}
    (ht : s.thread t = .writing pc f) : machine.Steps C s (s.stepWrite t pc f) :=
  Steps.single hC (by simp only [machine, Sys.step, ht])

theorem exec_read (hC : C s (.exec t)) {pc : ReadPc} {f : ReadFrame}
    (ht : s.thread t = .reading pc f) : machine.Steps C s (s.stepRead t pc f) :=
  Steps.single hC (by simp only [machine, Sys.step, ht])

def Sys.setContent (s : Sys) (content : ℕ → Byte) : Sys :=
  { s with ring := { s.ring with content := content } }

theorem copyOffset_inj {pos len j k : ℕ} (hpos : pos < shmDataSize) (hlen : len < shmDataSize)
    (hj : j < len) (hk : k < len) (h : copyOffset pos len j = copyOffset pos len k) : j = k := by
  rw [copyOffset_eq hpos hlen hj, copyOffset_eq hpos hlen hk] at h
  have := eq_of_mod_eq (a := pos) (by omega) (by omega) (by omega) (by omega) h
  omega

/-- The copy loop of `rb_write`, from byte `k` on. -/
theorem copy_loop (hC : ∀ s, C s (.exec t)) (f : WriteFrame) (htail : f.tail < shmDataSize)
    (hlen : f.len < shmDataSize) (d : ℕ) (s : Sys) (k : ℕ) (hd : k + d + 1 = f.len)
    (ht : s.thread t = .writing (.copy k) f) :
    ∃ content, machine.Steps C s ((s.setContent content).setThread t (.writing .casOldtail f)) ∧
      (∀ j, k ≤ j → j < f.len → content (copyOffset f.tail f.len j) = f.input.getD j 0) ∧
      ∀ o, (∀ j, k ≤ j → j < f.len → o ≠ copyOffset f.tail f.len j) →
        content o = s.ring.content o := by
  induction d generalizing s k with
  | zero =>
    have hstep := exec_write (hC _) ht
    simp only [Sys.stepWrite, if_neg (by omega : ¬ k + 1 < f.len)] at hstep
    refine ⟨_, hstep, ?_, ?_⟩
    · intro j hj hj'
      obtain rfl : j = k := by omega
      exact Function.update_self ..
    · intro o ho
      exact Function.update_of_ne (ho k le_rfl (by omega)) ..
  | succ d ih =>
    have hstep := exec_write (hC _) ht
    simp only [Sys.stepWrite, if_pos (by omega : k + 1 < f.len)] at hstep
    obtain ⟨content, hrest, hat, hoff⟩ := ih _ (k + 1) (by omega) (setThread_thread _ t _)
    refine ⟨content, hstep.trans ?_, ?_, ?_⟩
    · convert hrest using 1
      exact (setThread_setThread (s.setContent content) t _ _).symm
    · intro j hj hj'
      by_cases he : j = k
      · subst he
        rw [hoff]
        · exact Function.update_self ..
        · intro i hi hi' heq
          have := copyOffset_inj htail hlen hj' hi' heq
          omega
      · exact hat j (by omega) hj'
    · intro o ho
      rw [hoff o fun j hj hj' => ho j (by omega) hj']
      exact Function.update_of_ne (ho k le_rfl (by omega)) ..

/-- The copy loop of `rb_write` stores what its `memcpy` calls store. -/
theorem copy_loop_all (hC : ∀ s, C s (.exec t)) (f : WriteFrame) (htail : f.tail < shmDataSize)
    (hlen : f.len < shmDataSize) (hpos : 0 < f.len) (ht : s.thread t = .writing (.copy 0) f) :
    machine.Steps C s ((s.setContent (copyIn s.ring.content f.tail f.len
      fun i => f.input.getD i 0)).setThread t (.writing .casOldtail f)) := by
  obtain ⟨content, hs, hat, hoff⟩ := copy_loop hC f htail hlen (f.len - 1) s 0 (by omega) ht
  have he : content = copyIn s.ring.content f.tail f.len fun i => f.input.getD i 0 := by
    funext o
    by_cases ho : ∃ j < f.len, o = (f.tail + j) % shmDataSize
    · obtain ⟨j, hj, rfl⟩ := ho
      rw [copyIn_at _ _ htail hlen hj, ← copyOffset_eq htail hlen hj]
      exact hat j (Nat.zero_le _) hj
    · push Not at ho
      rw [copyIn_off _ _ htail hlen ho]
      apply hoff
      intro j _ hj
      rw [copyOffset_eq htail hlen hj]
      exact ho j hj
  rw [← he]
  exact hs

/-- The copy loop of `rb_read`. -/
theorem read_loop (hC : ∀ s, C s (.exec t)) (d : ℕ) (s : Sys) (f : ReadFrame)
    (hhead : f.head < shmDataSize) (hlen : f.len < shmDataSize) (hd : f.out.length + d + 1 = f.len)
    (ht : s.thread t = .reading .copy f) :
    machine.Steps C s (s.setThread t (.reading .casHead { f with
      out := f.out ++ window shmDataSize s.ring.content (f.head + f.out.length) (d + 1) })) := by
  induction d generalizing s f with
  | zero =>
    have hstep := exec_read (hC _) ht
    simp only [Sys.stepRead, List.length_append, List.length_singleton,
      if_neg (by omega : ¬ f.out.length + 1 < f.len)] at hstep
    convert hstep using 5
    rw [copyOffset_eq hhead hlen (by omega)]
    rfl
  | succ d ih =>
    have hstep := exec_read (hC _) ht
    simp only [Sys.stepRead, List.length_append, List.length_singleton,
      if_pos (by omega : f.out.length + 1 < f.len)] at hstep
    have hrest := ih (s.setThread t _) { f with
      out := f.out ++ [s.ring.content (copyOffset f.head f.len f.out.length)] } hhead hlen
      (by
        change (f.out ++ [_]).length + d + 1 = f.len
        rw [List.length_append, List.length_singleton]
        omega) (setThread_thread s t _)
    refine hstep.trans ?_
    convert hrest using 1
    rw [setThread_setThread]
    have hwin := window_append (n := shmDataSize) s.ring.content (f.head + f.out.length) 1 (d + 1)
    rw [Nat.add_comm 1] at hwin
    simp only [List.append_assoc, List.length_append, List.length_singleton]
    rw [hwin, copyOffset_eq hhead hlen (by omega)]
    rfl

/-- The state after an uninterrupted `rb_write` of `input`. -/
def Sys.wrote (s : Sys) (input : List Byte) : Sys :=
  let n := min input.length (shmDataSize - 1 - s.ring.queue.length)
  { s with
    ring := s.ring.pushed n fun i => input.getD i 0
    accepted := s.accepted ++ input.take n
    published := s.published + n
    log := s.log ++ [.wrote ⟨input, n, s.ring.head, s.ring.tail, s.ring.oldtail,
      s.delivered.length, s.accepted.length⟩ n] }

/-- The state after an uninterrupted `rb_read` of at most `len` bytes. -/
def Sys.got (s : Sys) (len : ℕ) : Sys :=
  let n := min len s.ring.queue.length
  { s with
    ring := s.ring.popped n
    delivered := s.delivered ++ s.ring.queue.take n
    log := s.log ++ [.got ⟨len, n, s.ring.head, s.ring.oldtail, s.ring.queue.take n,
      s.delivered.length, s.published⟩ (s.ring.queue.take n)] }

/-- The three loads of `rb_write` and the clamping that follows them. -/
theorem write_loads {input : List Byte} (hC : ∀ s, C s (.exec t)) (hC' : C s (.write t input))
    (ht : s.thread t = .idle) (hr : s.ring.Settled) :
    machine.Steps C s (
      let g : WriteFrame := ⟨input, min input.length (shmDataSize - 1 - s.ring.queue.length),
        s.ring.head, s.ring.tail, s.ring.oldtail, s.delivered.length, s.accepted.length⟩
      if g.len = 0 then s.ret t (.wrote g 0) else s.setThread t (.writing .casTail g)) := by
  have hcall : machine.Steps C s (s.setThread t (.writing .loadHead
      ⟨input, input.length, 0, 0, 0, 0, 0⟩)) :=
    Steps.single hC' (by simp only [machine, Sys.step, ht])
  refine hcall.trans ?_
  refine (exec_write (hC _) (setThread_thread s t _)).trans ?_
  simp only [Sys.stepWrite, setThread_setThread, setThread_ring, setThread_delivered]
  refine (exec_write (hC _) (setThread_thread s t _)).trans ?_
  simp only [Sys.stepWrite, setThread_setThread, setThread_ring, setThread_accepted]
  have hlast := exec_write (hC _) (setThread_thread s t (.writing .loadOldtail
    ⟨input, input.length, s.ring.head, s.ring.tail, 0, s.delivered.length, s.accepted.length⟩))
  simp only [Sys.stepWrite, setThread_setThread, setThread_ring, hr.writeSize_eq,
    Sys.ret, Nat.min_comm (shmDataSize - 1 - s.ring.queue.length)] at hlast
  exact hlast

/-- A call of `rb_write` that no other thread interrupts computes `rbWrite`. -/
theorem solo_write {input : List Byte} (hC : ∀ s, C s (.exec t)) (hC' : C s (.write t input))
    (ht : s.thread t = .idle) (hr : s.ring.Settled) : machine.Steps C s (s.wrote input) := by
  have hN := shmDataSize_eq
  have hlt := hr.queue_lt
  have hloads := write_loads hC hC' ht hr
  generalize hn : min input.length (shmDataSize - 1 - s.ring.queue.length) = n at hloads
  simp only at hloads
  have hsame : s.setThread t .idle = s := setThread_same ht
  have hsame' : Function.update s.thread t .idle = s.thread := by
    rw [← ht, Function.update_eq_self]
  have hdone : s.wrote input = { s with
      ring := s.ring.pushed n fun i => input.getD i 0
      accepted := s.accepted ++ input.take n
      published := s.published + n
      log := s.log ++ [.wrote ⟨input, n, s.ring.head, s.ring.tail, s.ring.oldtail,
        s.delivered.length, s.accepted.length⟩ n] } := by simp only [Sys.wrote, hn]
  rw [hdone]
  split_ifs at hloads with hz
  · subst hz
    convert hloads using 1
    simp only [Sys.ret, hsame, hr.pushed_zero, List.take_zero, List.append_nil, Nat.add_zero]
  · refine hloads.trans ?_
    refine (exec_write (hC _) (setThread_thread s t _)).trans ?_
    simp only [Sys.stepWrite, setThread_ring, if_true]
    refine (copy_loop_all hC _ hr.tail (by change n < _; omega) (by change 0 < n; omega)
      (setThread_thread _ t _)).trans ?_
    refine (exec_write (hC _) (setThread_thread _ t _)).trans ?_
    simp only [Sys.stepWrite, setThread_ring, Sys.setContent, hr.oldtail, if_true]
    simp only [Sys.ret, Sys.setThread, Function.update_idem, hsame', Ring.pushed]
    exact Relation.ReflTransGen.refl

/-- The two loads of `rb_read` and the clamping that follows them. -/
theorem read_loads {len : ℕ} (hC : ∀ s, C s (.exec t)) (hC' : C s (.read t len))
    (ht : s.thread t = .idle) (hr : s.ring.Settled) :
    machine.Steps C s (
      let g : ReadFrame := ⟨len, min len s.ring.queue.length, s.ring.head, s.ring.oldtail, [],
        s.delivered.length, s.published⟩
      if g.len = 0 then s.ret t (.got g []) else s.setThread t (.reading .copy g)) := by
  have hsize : readSize s.ring.head s.ring.oldtail = s.ring.queue.length := by
    rw [hr.oldtail, hr.queue_length]
  have hcall : machine.Steps C s (s.setThread t (.reading .loadHead ⟨len, len, 0, 0, [], 0, 0⟩)) :=
    Steps.single hC' (by simp only [machine, Sys.step, ht])
  refine hcall.trans ?_
  refine (exec_read (hC _) (setThread_thread s t _)).trans ?_
  simp only [Sys.stepRead, setThread_setThread, setThread_ring, setThread_delivered]
  have hlast := exec_read (hC _) (setThread_thread s t (.reading .loadOldtail
    ⟨len, len, s.ring.head, 0, [], s.delivered.length, 0⟩))
  simp only [Sys.stepRead, setThread_setThread, setThread_ring, setThread_published, hsize, Sys.ret,
    Nat.min_comm s.ring.queue.length] at hlast
  exact hlast

/-- A reader up to its swap. -/
theorem read_until_swap {len : ℕ} (hC : ∀ s, C s (.exec t)) (hC' : C s (.read t len))
    (ht : s.thread t = .idle) (hr : s.ring.Settled) (hpos : 0 < min len s.ring.queue.length) :
    machine.Steps C s (s.setThread t (.reading .casHead
      ⟨len, min len s.ring.queue.length, s.ring.head, s.ring.oldtail,
        s.ring.queue.take (min len s.ring.queue.length), s.delivered.length, s.published⟩)) := by
  have hlt := hr.queue_lt
  have hloads := read_loads hC hC' ht hr
  generalize hn : min len s.ring.queue.length = n at hloads hpos
  have hbytes : window shmDataSize s.ring.content s.ring.head n = s.ring.queue.take n := by
    rw [hr.queue_eq, window_take _ _ (by omega)]
  have hloop := read_loop hC (n - 1) _ ⟨len, n, s.ring.head, s.ring.oldtail, [],
    s.delivered.length, s.published⟩ hr.head (by change n < _; omega)
    (by change 0 + (n - 1) + 1 = n; omega) (setThread_thread s t _)
  simp only [setThread_setThread, setThread_ring, List.nil_append, List.length_nil, Nat.add_zero,
    Nat.sub_add_cancel hpos, hbytes] at hloop
  simp only [if_neg hpos.ne'] at hloads
  exact hloads.trans hloop

/-- A call of `rb_read` that no other thread interrupts computes `rbRead`. -/
theorem solo_read {len : ℕ} (hC : ∀ s, C s (.exec t)) (hC' : C s (.read t len))
    (ht : s.thread t = .idle) (hr : s.ring.Settled) : machine.Steps C s (s.got len) := by
  have hsame : Function.update s.thread t .idle = s.thread := by
    rw [← ht, Function.update_eq_self]
  rcases Nat.eq_zero_or_pos (min len s.ring.queue.length) with hz | hpos
  · have hloads := read_loads hC hC' ht hr
    simp only [hz, if_true, Sys.ret, Sys.setThread, hsame] at hloads
    simp only [Sys.got, hz, hr.popped_zero, List.take_zero, List.append_nil]
    exact hloads
  · refine (read_until_swap hC hC' ht hr hpos).trans ?_
    refine (exec_read (hC _) (setThread_thread s t _)).trans ?_
    simp only [Sys.stepRead, setThread_ring, if_true]
    simp only [Sys.ret, Sys.setThread, Function.update_idem, hsame, Sys.got, Ring.popped]
    exact Relation.ReflTransGen.refl

@[simp] theorem wrote_head (s : Sys) (input : List Byte) :
    (s.wrote input).ring.head = s.ring.head := rfl

@[simp] theorem wrote_delivered (s : Sys) (input : List Byte) :
    (s.wrote input).delivered = s.delivered := rfl

@[simp] theorem got_accepted (s : Sys) (len : ℕ) : (s.got len).accepted = s.accepted := rfl

theorem wrote_settled (hr : s.ring.Settled) (input : List Byte) :
    (s.wrote input).ring.Settled := by
  have hlt := hr.queue_lt
  exact hr.pushed_settled (by omega) _

theorem wrote_queue_length (hr : s.ring.Settled) (input : List Byte) :
    (s.wrote input).ring.queue.length =
      s.ring.queue.length + min input.length (shmDataSize - 1 - s.ring.queue.length) := by
  have hlt := hr.queue_lt
  simp only [Sys.wrote]
  rw [hr.pushed_queue (by omega), List.length_append, List.length_map, List.length_range]

theorem got_settled (hr : s.ring.Settled) (len : ℕ) : (s.got len).ring.Settled :=
  hr.popped_settled (Nat.min_le_right _ _)

theorem got_queue_length (hr : s.ring.Settled) (len : ℕ) :
    (s.got len).ring.queue.length = s.ring.queue.length - min len s.ring.queue.length := by
  simp only [Sys.got]
  rw [hr.popped_queue (Nat.min_le_right _ _), List.length_drop]

theorem wrote_accepted_length (s : Sys) (input : List Byte) :
    (s.wrote input).accepted.length =
      s.accepted.length + min input.length (shmDataSize - 1 - s.ring.queue.length) := by
  simp only [Sys.wrote, List.length_append, List.length_take]
  omega

theorem got_delivered_length (s : Sys) (len : ℕ) :
    (s.got len).delivered.length = s.delivered.length + min len s.ring.queue.length := by
  simp only [Sys.got, List.length_append, List.length_take]
  omega

theorem got_head (hr : s.ring.Settled) (len : ℕ) :
    (s.got len).ring.head = (s.ring.head + min len s.ring.queue.length) % shmDataSize :=
  hr.popped_head (Nat.min_le_right _ _)

theorem start_settled (content : ℕ → Byte) : (Sys.start content).ring.Settled :=
  ⟨shmDataSize_pos, shmDataSize_pos, rfl⟩

theorem start_queue (content : ℕ → Byte) : (Sys.start content).ring.queue = [] := rfl

end ShmSocket.RingBuffer
