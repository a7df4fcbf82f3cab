import ShmSocket.RingBuffer.Naive

/-! The circular buffer of `workspace/ringbuffer.cpp` is a queue of `size - 1` bytes, for
every size: over any calls, the counts and all the bytes of the callers' buffers are those of
the queue. -/
namespace ShmSocket
open CircularWindow

/-- `createCircularBuffer`. The data is what `malloc` left there. -/
def createCircularBuffer (size : ℕ) (data : ℕ → Byte) : CircularBuffer where
  beginIdx := 0
  endIdx := 0
  size := size
  data := data

/-- The first bytes of `output` replaced by `bytes`. -/
def overlay (bytes : List Byte) (output : ℕ → Byte) : ℕ → Byte :=
  fun o => (bytes[o]?).getD (output o)

/-- A call on a queue of at most `cap` bytes. It moves as many as it asks for and the queue
has, or has room for. -/
def Transfer.onQueue (cap : ℕ) (q : List Byte) : Transfer → Result × List Byte
  | .read len output =>
      let n := min (sizeT len) q.length
      ((i32 n, overlay (q.take n) output), q.drop n)
  | .write len input =>
      let n := min (sizeT len) (cap - q.length)
      ((i32 n, input), q ++ (List.range n).map input)

def queueCalls (cap : ℕ) (q : List Byte) : List Transfer → List Result × List Byte
  | [] => ([], q)
  | t :: ts =>
      let (x, q) := t.onQueue cap q
      let (xs, q) := queueCalls cap q ts
      (x :: xs, q)

namespace CircularBuffer
variable {b : CircularBuffer} {q : List Byte}

/-- The bytes from `beginIdx` to `endIdx` are the queue, and one byte stays free. -/
structure Queued (b : CircularBuffer) (q : List Byte) : Prop where
  size : b.size < 2 ^ 64
  beginIdx : b.beginIdx < b.size
  room : q.length < b.size
  endIdx : b.endIdx = (b.beginIdx + q.length) % b.size
  bytes : window b.size b.data b.beginIdx q.length = q

theorem Queued.create {size : ℕ} (hpos : 0 < size) (hsize : size < 2 ^ 64) (data : ℕ → Byte) :
    (createCircularBuffer size data).Queued [] where
  size := hsize
  beginIdx := hpos
  room := hpos
  endIdx := (Nat.zero_mod size).symm
  bytes := rfl

theorem overlay_window (data output : ℕ → Byte) (size p n : ℕ) :
    memcpy output 0 (fun q => data (q % size)) p n = overlay (window size data p n) output := by
  funext o
  unfold memcpy overlay window
  by_cases ho : o < n
  · rw [if_pos (by omega), List.getElem?_map, List.getElem?_range ho]
    rfl
  · rw [if_neg (by omega), List.getElem?_eq_none (by simpa using not_lt.mp ho)]
    rfl

theorem Queued.read (h : b.Queued q) (len : ℤ) (output : ℕ → Byte) :
    ∃ b', b.call (.read len output) = ((Transfer.read len output).onQueue (b.size - 1) q |>.1, b') ∧
      b'.size = b.size ∧ b'.Queued ((Transfer.read len output).onQueue (b.size - 1) q).2 := by
  generalize hn : min (sizeT len) q.length = n
  have hle : n ≤ q.length := hn ▸ Nat.min_le_right _ _
  have hloop := readLoop_eq h.size b.data (sizeT len) b.beginIdx q.length h.room 0 output
  rw [← h.endIdx, Nat.mod_eq_of_lt h.beginIdx, hn, Nat.zero_add, overlay_window,
    ← window_take _ _ hle, h.bytes] at hloop
  refine ⟨{ b with beginIdx := (b.beginIdx + n) % b.size }, ?_, rfl, ?_⟩
  · simp only [call, CircularBuffer.read, hloop, Transfer.onQueue, hn]
  · simp only [Transfer.onQueue, hn]
    have hlen : (q.drop n).length = q.length - n := List.length_drop
    refine ⟨h.size, Nat.mod_lt _ (Nat.zero_lt_of_lt h.beginIdx), ?_, ?_, ?_⟩
    · rw [hlen]
      exact (Nat.sub_le _ _).trans_lt h.room
    · change b.endIdx = _
      rw [hlen, Nat.mod_add_mod, h.endIdx]
      congr 1
      omega
    · change window b.size b.data ((b.beginIdx + n) % b.size) _ = _
      rw [hlen, window_mod, ← window_drop _ _ hle, h.bytes]

theorem Queued.write (h : b.Queued q) (len : ℤ) (input : ℕ → Byte) :
    ∃ b', b.call (.write len input) = ((Transfer.write len input).onQueue (b.size - 1) q |>.1, b') ∧
      b'.size = b.size ∧ b'.Queued ((Transfer.write len input).onQueue (b.size - 1) q).2 := by
  have hroom := h.room
  have hbegin := h.beginIdx
  generalize hn : min (sizeT len) (b.size - 1 - q.length) = n
  have hle : q.length + n < b.size := by omega
  have hloop := writeLoop_eq h.size input (sizeT len) (b.beginIdx + q.length)
    (b.size - 1 - q.length) (by omega) 0 b.data
  -- one position after the room is the beginning again
  have hfull : (b.beginIdx + q.length + (b.size - 1 - q.length) + 1) % b.size = b.beginIdx := by
    have hturn : b.beginIdx + q.length + (b.size - 1 - q.length) + 1 = b.beginIdx + b.size := by
      omega
    rw [hturn, Nat.add_mod_right, Nat.mod_eq_of_lt hbegin]
  rw [hfull, ← h.endIdx, hn] at hloop
  simp only [Nat.zero_add] at hloop
  refine ⟨{ b with
    endIdx := (b.beginIdx + q.length + n) % b.size
    data := put b.size b.data (b.beginIdx + q.length) input n }, ?_, rfl, ?_⟩
  · simp only [call, CircularBuffer.write, hloop, Transfer.onQueue, hn]
  · simp only [Transfer.onQueue, hn]
    have hlen : (q ++ (List.range n).map input).length = q.length + n := by
      rw [List.length_append, List.length_map, List.length_range]
    refine ⟨h.size, hbegin, ?_, ?_, ?_⟩
    · rw [hlen]
      exact hle
    · change (b.beginIdx + q.length + n) % b.size = _
      rw [hlen, Nat.add_assoc]
    · change window b.size (put b.size b.data (b.beginIdx + q.length) input n) b.beginIdx _ = _
      rw [hlen, window_put _ _ _ hle.le, h.bytes]

theorem Queued.call (h : b.Queued q) (t : Transfer) :
    ∃ b', b.call t = ((t.onQueue (b.size - 1) q).1, b') ∧ b'.size = b.size ∧
      b'.Queued (t.onQueue (b.size - 1) q).2 := by
  cases t with
  | read len output => exact h.read len output
  | write len input => exact h.write len input

theorem Queued.calls (h : b.Queued q) (ts : List Transfer) :
    ∃ b', b.calls ts = ((queueCalls (b.size - 1) q ts).1, b') ∧
      b'.Queued (queueCalls (b.size - 1) q ts).2 := by
  induction ts generalizing b q with
  | nil => exact ⟨b, rfl, h⟩
  | cons t ts ih =>
    obtain ⟨b₁, hcall, hsize, h₁⟩ := h.call t
    obtain ⟨b₂, hcalls, h₂⟩ := ih h₁
    rw [hsize] at hcalls h₂
    refine ⟨b₂, ?_, h₂⟩
    simp only [CircularBuffer.calls, queueCalls, hcall, hcalls]

/-- Over every sequence of calls, of whatever lengths, a buffer that was created with `size`
bytes returns what a queue of `size - 1` bytes does, and the bytes between its indices are
that queue. -/
theorem bounded_queue {size : ℕ} (hpos : 0 < size) (hsize : size < 2 ^ 64) (data : ℕ → Byte)
    (ts : List Transfer) :
    ((createCircularBuffer size data).calls ts).1 = (queueCalls (size - 1) [] ts).1 ∧
      ((createCircularBuffer size data).calls ts).2.Queued (queueCalls (size - 1) [] ts).2 := by
  obtain ⟨b, hcalls, hq⟩ := (Queued.create hpos hsize data).calls ts
  rw [hcalls]
  exact ⟨rfl, hq⟩

/-- A full turn of a buffer of four bytes, and a negative length, which asks for everything. -/
theorem bounded_queue_turn :
    let input : ℕ → Byte := fun i => i.toUInt8
    ((createCircularBuffer 4 fun _ => 0).calls
      [.write 5 input, .read 2 input, .write 2 input, .read (-1) input]).1.map Prod.fst =
        [3, 2, 2, 3] := by
  intro input
  rw [(bounded_queue (by decide) (by decide) _ _).1]
  decide

end CircularBuffer
end ShmSocket
