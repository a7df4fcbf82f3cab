import ShmSocket.RingBuffer.Sequential

/-! The circular buffer of `workspace/ringbuffer.cpp`, which copies one byte at a time. A
ring that no other thread uses does the same, call by call. -/
namespace ShmSocket
open CircularWindow

structure CircularBuffer where
  beginIdx : ℕ
  endIdx : ℕ
  size : ℕ
  data : ℕ → Byte

/-- `(idx + 1) % size` in `uint64_t`. -/
def nextIdx (size idx : ℕ) : ℕ := sizeT (idx + 1 : ℕ) % size

/-- The loop of `read`, with `left` the part of `len` that is not read yet. It ends with
`begin`, `readSize` and the output buffer. -/
def readLoop (size endIdx : ℕ) (data : ℕ → Byte) :
    ℕ → ℕ → ℕ → (ℕ → Byte) → ℕ × ℕ × (ℕ → Byte)
  | 0, b, readSize, output => (b, readSize, output)
  | left + 1, b, readSize, output =>
      if b ≠ endIdx then
        readLoop size endIdx data left (nextIdx size b) (readSize + 1)
          (Function.update output readSize (data b))
      else (b, readSize, output)

/-- The loop of `write`, with `left` the part of `len` that is not written yet. It ends
with `end`, `writtenSize` and the data. -/
def writeLoop (size beginIdx : ℕ) (input : ℕ → Byte) :
    ℕ → ℕ → ℕ → (ℕ → Byte) → ℕ × ℕ × (ℕ → Byte)
  | 0, e, writtenSize, data => (e, writtenSize, data)
  | left + 1, e, writtenSize, data =>
      if nextIdx size e ≠ beginIdx then
        writeLoop size beginIdx input left (nextIdx size e) (writtenSize + 1)
          (Function.update data e (input writtenSize))
      else (e, writtenSize, data)

namespace CircularBuffer

/-- `read`: the count it returns, the buffer and the output buffer it leaves. -/
def read (b : CircularBuffer) (len : ℤ) (output : ℕ → Byte) :
    ℤ × CircularBuffer × (ℕ → Byte) :=
  let (beginIdx, readSize, output) :=
    readLoop b.size b.endIdx b.data (sizeT len) b.beginIdx 0 output
  (i32 readSize, { b with beginIdx }, output)

/-- `write`: the count it returns and the buffer it leaves. -/
def write (b : CircularBuffer) (len : ℤ) (input : ℕ → Byte) : ℤ × CircularBuffer :=
  let (endIdx, writtenSize, data) := writeLoop b.size b.beginIdx input (sizeT len) b.endIdx 0 b.data
  (i32 writtenSize, { b with endIdx, data })

end CircularBuffer

theorem nextIdx_eq {size idx : ℕ} (h : idx < size) (hsize : size < 2 ^ 64) :
    nextIdx size idx = (idx + 1) % size := by
  unfold nextIdx
  rw [sizeT_natCast (by omega)]

theorem nextIdx_mod {size : ℕ} (hpos : 0 < size) (hsize : size < 2 ^ 64) (p : ℕ) :
    nextIdx size (p % size) = (p + 1) % size := by
  rw [nextIdx_eq (Nat.mod_lt _ hpos) hsize, Nat.mod_add_mod]

section memcpy
variable (dst src : ℕ → Byte) (dstOff srcOff n : ℕ)

theorem memcpy_zero : memcpy dst dstOff src srcOff 0 = dst :=
  funext fun _ => if_neg (by omega)

/-- Byte by byte from the front. -/
theorem memcpy_succ : memcpy dst dstOff src srcOff (n + 1) =
    memcpy (Function.update dst dstOff (src srcOff)) (dstOff + 1) src (srcOff + 1) n := by
  funext o
  unfold memcpy
  by_cases ho : o = dstOff
  · rw [ho, if_pos (by omega), if_neg (by omega), Function.update_self, Nat.sub_self, Nat.add_zero]
  · rw [Function.update_of_ne ho]
    by_cases hin : dstOff ≤ o ∧ o < dstOff + (n + 1)
    · rw [if_pos hin, if_pos (by omega)]
      congr 1
      omega
    · rw [if_neg hin, if_neg (by omega)]

theorem memcpy_congr {dst src src' : ℕ → Byte} {dstOff srcOff n : ℕ}
    (h : ∀ i < n, src (srcOff + i) = src' (srcOff + i)) :
    memcpy dst dstOff src srcOff n = memcpy dst dstOff src' srcOff n := by
  funext o
  unfold memcpy
  by_cases hin : dstOff ≤ o ∧ o < dstOff + n
  · rw [if_pos hin, if_pos hin, h _ (by omega)]
  · rw [if_neg hin, if_neg hin]

end memcpy

/-- Both branches of the copy of `rb_read` are one copy round the ring. -/
theorem copyOut_eq (content output : ℕ → Byte) {head len : ℕ} (hh : head < shmDataSize)
    (hlen : len < shmDataSize) : copyOut content head len output =
      memcpy output 0 (fun q => content (q % shmDataSize)) head len := by
  funext o
  unfold memcpy
  by_cases ho : o < len
  · rw [if_pos (by omega), copyOut_at _ _ hh hlen ho, Nat.sub_zero]
  · rw [if_neg (by omega), copyOut_off _ _ hh hlen (not_lt.mp ho)]

section loops
variable {size : ℕ} (hsize : size < 2 ^ 64)
include hsize

/-- The loop of `read` from position `p` on, with `avail` bytes to come before the end. -/
theorem readLoop_eq (data : ℕ → Byte) (left p avail : ℕ) (havail : avail < size) (k : ℕ)
    (output : ℕ → Byte) :
    readLoop size ((p + avail) % size) data left (p % size) k output =
      ((p + min left avail) % size, k + min left avail,
        memcpy output k (fun q => data (q % size)) p (min left avail)) := by
  induction left generalizing p avail k output with
  | zero => rw [Nat.zero_min, memcpy_zero, readLoop, Nat.add_zero, Nat.add_zero]
  | succ left ih =>
    rw [readLoop]
    cases avail with
    | zero =>
      rw [Nat.add_zero, if_neg (not_not.mpr rfl), Nat.min_zero, memcpy_zero, Nat.add_zero,
        Nat.add_zero]
    | succ avail =>
      have hne : p % size ≠ (p + (avail + 1)) % size := by
        intro he
        have := eq_of_mod_eq (a := p) le_rfl (by omega) (by omega) (by omega) he
        omega
      have hnext := ih (p + 1) avail (by omega) (k + 1)
        (Function.update output k (data (p % size)))
      rw [Nat.add_assoc, Nat.add_comm 1 avail] at hnext
      rw [if_pos hne, nextIdx_mod (by omega) hsize, hnext, Nat.succ_min_succ, memcpy_succ,
        Nat.add_assoc, Nat.add_comm 1, Nat.add_assoc, Nat.add_comm 1]

/-- The loop of `write` from position `p` on, with room for `room` bytes. -/
theorem writeLoop_eq (input : ℕ → Byte) (left p room : ℕ) (hroom : room < size) (k : ℕ)
    (data : ℕ → Byte) :
    writeLoop size ((p + room + 1) % size) input left (p % size) k data =
      ((p + min left room) % size, k + min left room,
        put size data p (fun i => input (k + i)) (min left room)) := by
  induction left generalizing p room k data with
  | zero => rw [Nat.zero_min, put, writeLoop, Nat.add_zero, Nat.add_zero]
  | succ left ih =>
    rw [writeLoop, nextIdx_mod (by omega) hsize]
    cases room with
    | zero =>
      rw [Nat.add_zero, if_neg (not_not.mpr rfl), Nat.min_zero, put, Nat.add_zero, Nat.add_zero]
    | succ room =>
      have hne : (p + 1) % size ≠ (p + (room + 1) + 1) % size := by
        intro he
        have := eq_of_mod_eq (a := p + 1) le_rfl (by omega) (by omega) (by omega) he
        omega
      have hnext := ih (p + 1) room (by omega) (k + 1)
        (Function.update data (p % size) (input k))
      -- the first byte and the rest of the loop are one sequence of stores
      have hput := put_add (n := size) data p (fun i => input (k + i)) 1 (min left room)
      simp only [put, Nat.add_zero, ← Nat.add_assoc] at hput
      rw [Nat.add_comm 1] at hput
      rw [Nat.add_assoc p 1 room, Nat.add_comm 1 room] at hnext
      rw [if_pos hne, hnext, Nat.succ_min_succ, Nat.succ_eq_add_one, hput, Nat.add_assoc p 1,
        Nat.add_assoc k 1, Nat.add_comm 1]

end loops

/-- `rb_read` on a settled ring, with the whole output buffer. -/
theorem rbRead_memcpy {r : Ring} (h : r.Settled) (len : ℕ) (output : ℕ → Byte) :
    rbRead r len output = (((min len r.queue.length : ℕ) : ℤ), r.popped (min len r.queue.length),
      memcpy output 0 (fun q => r.content (q % shmDataSize)) r.head
        (min len r.queue.length)) := by
  have hlt := h.queue_lt
  have hsize : readSize r.head r.oldtail = r.queue.length := by rw [h.oldtail, h.queue_length]
  simp only [rbRead, clampLen_natCast, hsize]
  split_ifs with hz
  · rw [Int.natCast_eq_zero.mp hz, h.popped_zero, memcpy_zero]
    rfl
  · rw [copyOut_eq _ _ h.head (by omega)]
    rfl

/-- A ring that no other thread uses and a circular buffer of its size, with the same
indices and the same bytes. -/
structure Related (r : Ring) (b : CircularBuffer) : Prop where
  size : b.size = shmDataSize
  head : r.head = b.beginIdx
  tail : r.tail = b.endIdx
  oldtail : r.oldtail = b.endIdx
  beginIdx : b.beginIdx < b.size
  endIdx : b.endIdx < b.size
  content : ∀ o < shmDataSize, r.content o = b.data o

namespace Related
variable {r : Ring} {b : CircularBuffer}

theorem settled (h : Related r b) : r.Settled where
  head := by
    rw [h.head, ← h.size]
    exact h.beginIdx
  tail := by
    rw [h.tail, ← h.size]
    exact h.endIdx
  oldtail := h.oldtail.trans h.tail.symm

theorem read (h : Related r b) {len : ℕ} (hlen : len < 2 ^ 31) (output : ℕ → Byte) :
    ∃ n r' b' out, rbRead r len output = (n, r', out) ∧ b.read len output = (n, b', out) ∧
      Related r' b' := by
  have hN := shmDataSize_eq
  have hs := h.settled
  have hlt := hs.queue_lt
  have hsmall : min len r.queue.length < 2 ^ 31 := by omega
  have hloop := readLoop_eq (by rw [hN]; decide : shmDataSize < 2 ^ 64) b.data len
    r.head _ hlt 0 output
  rw [← hs.tail_eq, Nat.mod_eq_of_lt hs.head, Nat.zero_add] at hloop
  have hread : b.read len output = (((min len r.queue.length : ℕ) : ℤ),
      { b with beginIdx := (r.head + min len r.queue.length) % shmDataSize },
      memcpy output 0 (fun q => b.data (q % shmDataSize)) r.head (min len r.queue.length)) := by
    simp only [CircularBuffer.read, h.size, ← h.head, ← h.tail,
      sizeT_natCast (by omega : len < 2 ^ 64), hloop, i32_of_lt hsmall]
  have hbytes : memcpy output 0 (fun q => r.content (q % shmDataSize)) r.head
      (min len r.queue.length) =
      memcpy output 0 (fun q => b.data (q % shmDataSize)) r.head (min len r.queue.length) :=
    memcpy_congr fun i _ => h.content _ (Nat.mod_lt _ shmDataSize_pos)
  refine ⟨_, _, _, _, rbRead_memcpy hs len output, hbytes ▸ hread, ?_⟩
  have hle : min len r.queue.length ≤ r.queue.length := Nat.min_le_right _ _
  exact ⟨h.size, hs.popped_head hle, h.tail, h.oldtail,
    (Nat.mod_lt _ shmDataSize_pos).trans_eq h.size.symm, h.endIdx, h.content⟩

theorem write (h : Related r b) {len : ℕ} (hlen : len < 2 ^ 31) (input : ℕ → Byte) :
    ∃ n r' b', rbWrite r len input = some (n, r') ∧ b.write len input = (n, b') ∧
      Related r' b' := by
  have hN := shmDataSize_eq
  have hs := h.settled
  have hlt := hs.queue_lt
  have ht := hs.tail
  generalize hroom : shmDataSize - 1 - r.queue.length = room
  generalize hn : min len room = n
  have hloop := writeLoop_eq (by rw [hN]; decide : shmDataSize < 2 ^ 64) input len
    r.tail room (by omega) 0 b.data
  -- one position after the room is the head again
  have hfull : (r.tail + room + 1) % shmDataSize = r.head := by
    have hturn : r.head + r.queue.length + (room + 1) = r.head + shmDataSize := by omega
    rw [hs.tail_eq, Nat.add_assoc, Nat.mod_add_mod, hturn, Nat.add_mod_right,
      Nat.mod_eq_of_lt hs.head]
  rw [hfull, Nat.mod_eq_of_lt ht, hn] at hloop
  simp only [Nat.zero_add] at hloop
  have hwrite : b.write len input = ((n : ℤ), { b with
      endIdx := (r.tail + n) % shmDataSize
      data := put shmDataSize b.data r.tail input n }) := by
    simp only [CircularBuffer.write, h.size, ← h.head, ← h.tail,
      sizeT_natCast (by omega : len < 2 ^ 64), hloop, i32_of_lt (by omega : n < 2 ^ 31)]
  have hring := rbWrite_eq hs len input
  rw [hroom, hn] at hring
  have hadvance : advance r.tail n = (r.tail + n) % shmDataSize := advance_natCast (by omega)
  refine ⟨_, _, _, hring, hwrite, h.size, h.head, hadvance, hadvance, h.beginIdx,
    (Nat.mod_lt _ shmDataSize_pos).trans_eq h.size.symm, fun o ho => ?_⟩
  change copyIn r.content r.tail n input o = _
  rw [copyIn_eq _ _ ht (by omega)]
  exact put_agree h.content ho

end Related

/-- A call, with the length and the caller's buffer. -/
inductive Transfer where
  | read (len : ℤ) (output : ℕ → Byte)
  | write (len : ℤ) (input : ℕ → Byte)

/-- The length is an `int` that is not negative. -/
def Transfer.Valid : Transfer → Prop
  | .read len _ | .write len _ => 0 ≤ len ∧ len < 2 ^ 31

/-- The count that a call returns and the caller's buffer afterwards. -/
abbrev Result := ℤ × (ℕ → Byte)

def Ring.call (r : Ring) : Transfer → Option (Result × Ring)
  | .read len output =>
      (rbReadInt r len output).map fun (n, r, output) => ((n, output), r)
  | .write len input => (rbWrite r len input).map fun (n, r) => ((n, input), r)

def Ring.calls (r : Ring) : List Transfer → Option (List Result × Ring)
  | [] => some ([], r)
  | t :: ts => (r.call t).bind fun (x, r) => (r.calls ts).map fun (xs, r) => (x :: xs, r)

def CircularBuffer.call (b : CircularBuffer) : Transfer → Result × CircularBuffer
  | .read len output =>
      let (n, b, output) := b.read len output
      ((n, output), b)
  | .write len input =>
      let (n, b) := b.write len input
      ((n, input), b)

def CircularBuffer.calls (b : CircularBuffer) : List Transfer → List Result × CircularBuffer
  | [] => ([], b)
  | t :: ts =>
      let (x, b) := b.call t
      let (xs, b) := b.calls ts
      (x :: xs, b)

/-- The two give one and the same result and are related again. -/
def SameOutcome {α : Type*} (ring : Option (α × Ring)) (naive : α × CircularBuffer) : Prop :=
  ∃ r', ring = some (naive.1, r') ∧ Related r' naive.2

section calls
variable {r : Ring} {b : CircularBuffer}

theorem Related.call (h : Related r b) {t : Transfer} (ht : t.Valid) :
    SameOutcome (r.call t) (b.call t) := by
  cases t with
  | read len output =>
    obtain ⟨n, rfl⟩ := Int.eq_ofNat_of_zero_le ht.1
    obtain ⟨count, r', b', out, hring, hnaive, hrel⟩ := h.read (by exact_mod_cast ht.2) output
    refine ⟨r', ?_, ?_⟩
    · simp only [Ring.call, CircularBuffer.call, rbReadInt_natCast, hring, hnaive,
        Option.map_some]
    · simpa only [CircularBuffer.call, hnaive] using hrel
  | write len input =>
    obtain ⟨n, rfl⟩ := Int.eq_ofNat_of_zero_le ht.1
    obtain ⟨count, r', b', hring, hnaive, hrel⟩ := h.write (by exact_mod_cast ht.2) input
    refine ⟨r', ?_, ?_⟩
    · simp only [Ring.call, CircularBuffer.call, hring, hnaive, Option.map_some]
    · simpa only [CircularBuffer.call, hnaive] using hrel

theorem Related.calls (h : Related r b) {ts : List Transfer} (hts : ∀ t ∈ ts, t.Valid) :
    SameOutcome (r.calls ts) (b.calls ts) := by
  induction ts generalizing r b with
  | nil => exact ⟨r, rfl, h⟩
  | cons t ts ih =>
    obtain ⟨ht, hts⟩ := List.forall_mem_cons.mp hts
    obtain ⟨r₁, hring, hrel⟩ := h.call ht
    obtain ⟨r₂, hrings, hrels⟩ := ih hrel hts
    refine ⟨r₂, ?_, hrels⟩
    simp only [Ring.calls, CircularBuffer.calls, hring, hrings, Option.bind_some, Option.map_some]

/-- `rb_read` and `rb_write` agree with the byte-at-a-time buffer, call by call and over
every sequence of calls. -/
theorem agrees_with_naive (h : Related r b) :
    (∀ t : Transfer, t.Valid → SameOutcome (r.call t) (b.call t)) ∧
      ∀ ts : List Transfer, (∀ t ∈ ts, t.Valid) → SameOutcome (r.calls ts) (b.calls ts) :=
  ⟨fun _ ht => h.call ht, fun _ hts => h.calls hts⟩

/-- Both empty, at the last offset. -/
theorem agrees_with_naive_last :
    let last := shmDataSize - 1
    let t := Transfer.write 3 fun i => i.toUInt8
    SameOutcome (Ring.calls ⟨last, last, last, fun _ => 0⟩ [t])
      (CircularBuffer.calls ⟨last, last, shmDataSize, fun _ => 0⟩ [t]) := by
  intro last t
  have hlast : last < shmDataSize := by decide
  have hrel : Related ⟨last, last, last, fun _ => 0⟩ ⟨last, last, shmDataSize, fun _ => 0⟩ :=
    ⟨rfl, rfl, rfl, rfl, hlast, hlast, fun _ _ => rfl⟩
  refine (agrees_with_naive hrel).2 [t] fun u hu => ?_
  rw [List.mem_singleton.mp hu]
  exact ⟨by decide, by decide⟩

end calls
end ShmSocket
