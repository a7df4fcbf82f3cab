import ShmSocket.RingBuffer.History
import ShmSocket.RingBuffer.Solo

/-! One writer thread and one reader thread: the ring is a FIFO stream. -/
namespace ShmSocket.RingBuffer
variable {s s' : Sys} {r w : Tid} {a : Act}

/-- The occupancy a call computes from two header words. -/
def occupancy (head tail : ℕ) : ℕ := (tail + shmDataSize - head) % shmDataSize

theorem occupancy_mod {h t : ℕ} (hle : h ≤ t) (hlt : t < h + shmDataSize) :
    occupancy (h % shmDataSize) (t % shmDataSize) = t - h := by
  have hd := CircularWindow.distance_eq hle hlt
  have hh := Nat.mod_lt h shmDataSize_pos
  have ht := Nat.mod_lt t shmDataSize_pos
  unfold occupancy
  split_ifs at hd with hcase
  · have hturn : t % shmDataSize + shmDataSize - h % shmDataSize = (t - h) + shmDataSize := by omega
    rw [hturn, Nat.add_mod_right, Nat.mod_eq_of_lt (by omega)]
  · rw [hd, Nat.mod_eq_of_lt (by omega)]

def OneToOne (w r : Tid) (_ : Sys) (a : Act) : Prop := OneWriter w a ∧ OneReader r a

instance (w r : Tid) (s : Sys) (a : Act) : Decidable (OneToOne w r s a) := by
  unfold OneToOne
  infer_instance

/-- The invariant of the runs of one writer and one reader. -/
structure Stream (w r : Tid) (s : Sys) : Prop where
  inv : Inv s
  reader : SoleReader r s
  writer : SoleWriter w s
  written : WrittenOk s
  log : LogExact s

theorem Stream.step (h : Stream w r s) (ho : OneToOne w r s a) (hs : s.step a = some s') :
    Stream w r s' where
  inv := h.inv.step (h.writer.notLapped a) (h.reader.notTurned a) hs
  reader := h.reader.step h.inv ho.2 hs
  writer := h.writer.step h.inv ho.1 hs
  written := h.written.step h.inv hs
  log := h.log.step h.inv h.reader h.writer hs

theorem Stream.start (h : machine.init s) : Stream w r s := by
  obtain ⟨content, rfl⟩ := h
  refine ⟨.start content, .start r content, .start w content, rfl, ?_⟩
  rintro x ⟨⟩

theorem Stream.of_reachable (h : machine.Reachable (OneToOne w r) s) : Stream w r s :=
  h.invariant (fun _ => .start) fun _ _ _ hp ho hs => hp.step ho hs

/-- The runs of one writer and one reader never lap and never turn. -/
theorem reachable_exact {C : Sys → Act → Prop} (hC : ∀ s a, OneToOne w r s a → C s a)
    (h : machine.Reachable (OneToOne w r) s) :
    machine.Reachable (fun s a => C s a ∧ NotLapped s a ∧ NotTurned s a) s :=
  h.strengthen (P := Stream w r) (fun _ => .start) (fun _ _ _ hp ho hs => hp.step ho hs)
    fun s a hp ho => ⟨hC s a ho, hp.writer.notLapped a, hp.reader.notTurned a⟩

/-- No compare-and-swap that a call is about to make will fail. -/
def SwapsSucceed (s : Sys) : Prop :=
  ∀ t f, (s.thread t = .writing .casTail f → s.ring.tail = f.tail) ∧
    (s.thread t = .writing .casOldtail f → s.ring.oldtail = f.tail)

theorem Stream.writer_swaps (h : Stream w r s) : SwapsSucceed s := by
  intro t f
  have hat : ∀ pc, s.thread t = .writing pc f → WriterAt s (.writing pc f) := by
    intro pc ht
    obtain rfl := h.writer.1 t pc f ht
    exact ht ▸ h.writer.2
  constructor
  · intro ht
    obtain ⟨_, htl, hexact⟩ := hat _ ht
    rw [h.inv.tail, hexact.tail, htl]
  · intro ht
    obtain ⟨hp, _, hexact⟩ := hat _ ht
    rw [h.inv.oldtail, hexact.tail, hp]

theorem Stream.reader_swaps (h : Stream w r s) (t : Tid) (f : ReadFrame)
    (ht : s.thread t = .reading .casHead f) : s.ring.head = f.head := by
  obtain ⟨_, hcur, hexact⟩ := h.reader t _ f ht
  rw [h.inv.head, hexact.head, hcur]

theorem Stream.wrote (h : Stream w r s) {f : WriteFrame} {count : ℕ}
    (hl : Ret.wrote f count ∈ s.log) :
    count = min f.input.length (shmDataSize - 1 - occupancy f.head f.tail) ∧
      occupancy f.head f.tail = f.tailAt - f.headAt := by
  obtain ⟨he, hc⟩ : f.Exact ∧ count = f.len := h.log _ hl
  have hocc : occupancy f.head f.tail = f.tailAt - f.headAt := by
    rw [he.head, he.tail, occupancy_mod he.le he.lt]
  exact ⟨by rw [hc, hocc, he.len], hocc⟩

theorem Stream.got (h : Stream w r s) {f : ReadFrame} {bytes : List Byte}
    (hl : Ret.got f bytes ∈ s.log) :
    bytes.length = min f.req (occupancy f.head f.tail) ∧
      occupancy f.head f.tail = f.tailAt - f.headAt := by
  obtain ⟨he, hc⟩ : f.Exact ∧ bytes.length = f.len := h.log _ hl
  have hocc : occupancy f.head f.tail = f.tailAt - f.headAt := by
    rw [he.head, he.tail, occupancy_mod he.le he.lt]
  exact ⟨by rw [hc, hocc, he.len], hocc⟩

end ShmSocket.RingBuffer
