import ShmSocket.RingBuffer.Segment

/-! `rb_read` and `rb_write` run with no other thread active. On such runs the
ring is a queue of bytes with room for `shmDataSize - 1` of them. -/
namespace ShmSocket
open CircularWindow

/-- `memcpy(dst + dstOff, src + srcOff, n)` -/
def memcpy (dst : ℕ → Byte) (dstOff : ℕ) (src : ℕ → Byte) (srcOff n : ℕ) : ℕ → Byte :=
  fun o => if dstOff ≤ o ∧ o < dstOff + n then src (srcOff + (o - dstOff)) else dst o

/-- The copy of `rb_write`. -/
def copyIn (content : ℕ → Byte) (tail : ℕ) (len : ℤ) (input : ℕ → Byte) : ℕ → Byte :=
  if Contiguous tail len then memcpy content tail input 0 (sizeT len)
  else
    let remain := shmDataSize - tail
    memcpy (memcpy content tail input 0 remain) 0 input remain (sizeT (len - remain))

/-- The copy of `rb_read`. -/
def copyOut (content : ℕ → Byte) (head : ℕ) (len : ℤ) (output : ℕ → Byte) : ℕ → Byte :=
  if Contiguous head len then memcpy output 0 content head (sizeT len)
  else
    let remain := shmDataSize - head
    memcpy (memcpy output 0 content head remain) remain content 0 (sizeT (len - remain))

/-- `if (size < len) len = size;` -/
def clampLen (size : ℕ) (len : ℤ) : ℤ := if (size : ℤ) < len then size else len

/-- `rb_write`: the count it returns and the ring it leaves. It has no result when `len`
is negative, where a `memcpy` runs past its areas, and when `oldtail` differs from `tail`,
where the last loop spins for ever. -/
def rbWrite (r : Ring) (len : ℤ) (input : ℕ → Byte) : Option (ℤ × Ring) :=
  let len := clampLen (writeSize r.head r.tail) len
  if len = 0 then some (0, r)
  else if 0 < len ∧ r.oldtail = r.tail then
    some (len, { r with
      tail := advance r.tail len
      oldtail := advance r.tail len
      content := copyIn r.content r.tail len input })
  else none

/-- `rb_read` for a `len` that is not negative: the count it returns, the ring and the
output buffer it leaves. -/
def rbRead (r : Ring) (len : ℕ) (output : ℕ → Byte) : ℤ × Ring × (ℕ → Byte) :=
  let len := clampLen (readSize r.head r.oldtail) len
  if len = 0 then (0, r, output)
  else (len, { r with head := advance r.head len }, copyOut r.content r.head len output)

/-- `rb_read` for any `int`. A negative one passes `size < len`, and a `memcpy` runs past
its areas before the swap on `head`. -/
def rbReadInt (r : Ring) (len : ℤ) (output : ℕ → Byte) : Option (ℤ × Ring × (ℕ → Byte)) :=
  if len < 0 then none else some (rbRead r len.toNat output)

/-- The header words are offsets and no write is unfinished. -/
structure Ring.Settled (r : Ring) : Prop where
  head : r.head < shmDataSize
  tail : r.tail < shmDataSize
  oldtail : r.oldtail = r.tail

/-- The bytes the ring will deliver. -/
def Ring.queue (r : Ring) : List Byte :=
  window shmDataSize r.content r.head (readSize r.head r.oldtail)

theorem copyIn_at (content input : ℕ → Byte) {tail len k : ℕ} (ht : tail < shmDataSize)
    (hlen : len < shmDataSize) (hk : k < len) :
    copyIn content tail len input ((tail + k) % shmDataSize) = input k := by
  have hN := shmDataSize_eq
  unfold copyIn memcpy
  simp only [contiguous_natCast (by omega : tail + len < 2 ^ 32)]
  by_cases hc : tail + len < shmDataSize
  · rw [if_pos hc, sizeT_natCast (by omega), Nat.mod_eq_of_lt (by omega), if_pos (by omega)]
    exact congrArg input (by omega)
  · rw [if_neg hc]
    have hrem : ((len : ℤ) - ((shmDataSize - tail : ℕ) : ℤ)) =
        ((len - (shmDataSize - tail) : ℕ) : ℤ) := by omega
    rw [hrem, sizeT_natCast (by omega)]
    by_cases hfirst : tail + k < shmDataSize
    · rw [Nat.mod_eq_of_lt hfirst, if_neg (by omega), if_pos (by omega)]
      exact congrArg input (by omega)
    · have hwrap : tail + k = (tail + k - shmDataSize) + shmDataSize := by omega
      rw [hwrap, Nat.add_mod_right, Nat.mod_eq_of_lt (by omega), if_pos (by omega)]
      exact congrArg input (by omega)

/-- The copy of `rb_write` changes only the offsets of the bytes it writes. -/
theorem copyIn_off (content input : ℕ → Byte) {tail len o : ℕ} (ht : tail < shmDataSize)
    (hlen : len < shmDataSize) (ho : ∀ k < len, o ≠ (tail + k) % shmDataSize) :
    copyIn content tail len input o = content o := by
  have hN := shmDataSize_eq
  have hin : ∀ k < len, tail + k < shmDataSize → o ≠ tail + k := by
    intro k hk hlt he
    exact ho k hk (by rw [Nat.mod_eq_of_lt hlt, he])
  have hout : ∀ k < len, shmDataSize ≤ tail + k → o ≠ tail + k - shmDataSize := by
    intro k hk hge he
    have hwrap : tail + k = (tail + k - shmDataSize) + shmDataSize := by omega
    exact ho k hk (by rw [hwrap, Nat.add_mod_right, Nat.mod_eq_of_lt (by omega), he])
  unfold copyIn memcpy
  simp only [contiguous_natCast (by omega : tail + len < 2 ^ 32)]
  by_cases hc : tail + len < shmDataSize
  · rw [if_pos hc, sizeT_natCast (by omega), if_neg]
    rintro ⟨h1, h2⟩
    exact hin (o - tail) (by omega) (by omega) (by omega)
  · rw [if_neg hc]
    have hrem : ((len : ℤ) - ((shmDataSize - tail : ℕ) : ℤ)) =
        ((len - (shmDataSize - tail) : ℕ) : ℤ) := by omega
    rw [hrem, sizeT_natCast (by omega), if_neg, if_neg]
    · rintro ⟨h1, h2⟩
      exact hin (o - tail) (by omega) (by omega) (by omega)
    · rintro ⟨h1, h2⟩
      exact hout (o + (shmDataSize - tail)) (by omega) (by omega) (by omega)

/-- Both branches of the copy store the bytes one after the other round the ring. -/
theorem copyIn_eq (content input : ℕ → Byte) {tail len : ℕ} (ht : tail < shmDataSize)
    (hlen : len < shmDataSize) :
    copyIn content tail len input = put shmDataSize content tail input len :=
  eq_put hlen.le (fun _ hi => copyIn_at content input ht hlen hi)
    fun _ ho => copyIn_off content input ht hlen ho

theorem copyOut_at (content output : ℕ → Byte) {head len k : ℕ} (hh : head < shmDataSize)
    (hlen : len < shmDataSize) (hk : k < len) :
    copyOut content head len output k = content ((head + k) % shmDataSize) := by
  have hN := shmDataSize_eq
  unfold copyOut memcpy
  simp only [contiguous_natCast (by omega : head + len < 2 ^ 32)]
  by_cases hc : head + len < shmDataSize
  · rw [if_pos hc, sizeT_natCast (by omega), if_pos (by omega), Nat.mod_eq_of_lt (by omega)]
    rfl
  · rw [if_neg hc]
    have hrem : ((len : ℤ) - ((shmDataSize - head : ℕ) : ℤ)) =
        ((len - (shmDataSize - head) : ℕ) : ℤ) := by omega
    rw [hrem, sizeT_natCast (by omega)]
    by_cases hfirst : head + k < shmDataSize
    · rw [if_neg (by omega), if_pos (by omega), Nat.mod_eq_of_lt hfirst]
      rfl
    · have hwrap : head + k = (head + k - shmDataSize) + shmDataSize := by omega
      rw [if_pos (by omega), hwrap, Nat.add_mod_right, Nat.mod_eq_of_lt (by omega)]
      exact congrArg content (by omega)

/-- The copy of `rb_read` changes only the bytes it returns. -/
theorem copyOut_off (content output : ℕ → Byte) {head len o : ℕ} (hh : head < shmDataSize)
    (hlen : len < shmDataSize) (ho : len ≤ o) : copyOut content head len output o = output o := by
  have hN := shmDataSize_eq
  unfold copyOut memcpy
  simp only [contiguous_natCast (by omega : head + len < 2 ^ 32)]
  by_cases hc : head + len < shmDataSize
  · rw [if_pos hc, sizeT_natCast (by omega), if_neg (by omega)]
  · have hrem : ((len : ℤ) - ((shmDataSize - head : ℕ) : ℤ)) =
        ((len - (shmDataSize - head) : ℕ) : ℤ) := by omega
    rw [if_neg hc, hrem, sizeT_natCast (by omega), if_neg (by omega), if_neg (by omega)]

variable {r : Ring}

theorem clampLen_natCast (size len : ℕ) : clampLen size len = (min len size : ℕ) := by
  unfold clampLen
  split_ifs <;> omega

theorem rbReadInt_natCast (r : Ring) (len : ℕ) (output : ℕ → Byte) :
    rbReadInt r len output = some (rbRead r len output) :=
  if_neg (by omega)

theorem Ring.Settled.queue_length (h : r.Settled) :
    r.queue.length = readSize r.head r.tail := by
  rw [Ring.queue, window_length, h.oldtail]

theorem Ring.Settled.queue_eq (h : r.Settled) :
    r.queue = window shmDataSize r.content r.head r.queue.length := by
  rw [h.queue_length, Ring.queue, h.oldtail]

theorem Ring.Settled.queue_lt (h : r.Settled) : r.queue.length < shmDataSize := by
  rw [h.queue_length]
  exact readSize_lt h.head h.tail

theorem Ring.Settled.tail_eq (h : r.Settled) :
    r.tail = (r.head + r.queue.length) % shmDataSize := by
  have hh := h.head
  have ht := h.tail
  rw [h.queue_length, readSize]
  split_ifs with hle
  · rw [Nat.add_sub_cancel' hle, Nat.mod_eq_of_lt ht]
  · rw [Nat.add_sub_cancel' (by omega), Nat.add_mod_right, Nat.mod_eq_of_lt ht]

/-- One byte of the data area always stays free. -/
theorem Ring.Settled.writeSize_eq (h : r.Settled) :
    writeSize r.head r.tail = shmDataSize - 1 - r.queue.length := by
  have hh := h.head
  have ht := h.tail
  rw [h.queue_length, writeSize, readSize]
  split_ifs <;> omega

/-- The queue read off the header words, for a queue of `k` bytes from `head` on. -/
theorem queue_of_length {head k : ℕ} (content : ℕ → Byte) (hh : head < shmDataSize)
    (hk : k < shmDataSize) :
    (⟨head, (head + k) % shmDataSize, (head + k) % shmDataSize, content⟩ : Ring).queue =
      window shmDataSize content head k := by
  have hs := readSize_mod (h := head) (t := head + k) (by omega) (by omega)
  rw [Nat.mod_eq_of_lt hh, Nat.add_sub_cancel_left] at hs
  rw [Ring.queue]
  exact congrArg _ hs

/-- The ring after `n` bytes of `input` are written and published. -/
def Ring.pushed (r : Ring) (n : ℕ) (input : ℕ → Byte) : Ring :=
  { r with
    tail := advance r.tail n
    oldtail := advance r.tail n
    content := copyIn r.content r.tail n input }

/-- The ring after `n` bytes are read. -/
def Ring.popped (r : Ring) (n : ℕ) : Ring := { r with head := advance r.head n }

theorem advance_zero {pos : ℕ} (h : pos < shmDataSize) : advance pos (0 : ℕ) = pos := by
  have hN := shmDataSize_eq
  rw [advance_natCast (by omega), Nat.add_zero, Nat.mod_eq_of_lt h]

theorem Ring.Settled.pushed_zero (h : r.Settled) (input : ℕ → Byte) : r.pushed 0 input = r := by
  have hcopy : copyIn r.content r.tail (0 : ℕ) input = r.content := by
    funext o
    exact copyIn_off _ _ h.tail shmDataSize_pos fun k hk => absurd hk (Nat.not_lt_zero k)
  have hold : (⟨r.head, r.tail, r.tail, r.content⟩ : Ring) =
      ⟨r.head, r.tail, r.oldtail, r.content⟩ := by rw [h.oldtail]
  simp only [Ring.pushed, advance_zero h.tail, hcopy]
  exact hold

theorem Ring.Settled.popped_zero (h : r.Settled) : r.popped 0 = r := by
  simp only [Ring.popped, advance_zero h.head]

theorem Ring.Settled.pushed_tail (h : r.Settled) {n : ℕ}
    (hn : r.queue.length + n < shmDataSize) (input : ℕ → Byte) :
    (r.pushed n input).tail = (r.head + (r.queue.length + n)) % shmDataSize := by
  have hN := shmDataSize_eq
  have ht := h.tail
  change advance r.tail n = _
  rw [advance_natCast (by omega), h.tail_eq, Nat.mod_add_mod, Nat.add_assoc]

theorem Ring.Settled.pushed_settled (h : r.Settled) {n : ℕ}
    (hn : r.queue.length + n < shmDataSize) (input : ℕ → Byte) : (r.pushed n input).Settled where
  head := h.head
  tail := by
    rw [h.pushed_tail hn]
    exact Nat.mod_lt _ shmDataSize_pos
  oldtail := rfl

theorem Ring.Settled.pushed_queue (h : r.Settled) {n : ℕ}
    (hn : r.queue.length + n < shmDataSize) (input : ℕ → Byte) :
    (r.pushed n input).queue = r.queue ++ (List.range n).map input := by
  have hq := queue_of_length (copyIn r.content r.tail n input) h.head hn
  rw [← h.pushed_tail hn input] at hq
  refine hq.trans ?_
  rw [window_append]
  congr 1
  · refine (window_congr ?_).trans h.queue_eq.symm
    intro i hi
    apply copyIn_off _ _ h.tail (by omega)
    intro k hk he
    rw [h.tail_eq, Nat.mod_add_mod] at he
    have := eq_of_mod_eq (a := r.head) (by omega) (by omega) (by omega) (by omega) he
    omega
  · apply List.map_congr_left
    intro i hi
    rw [← Nat.mod_add_mod, ← h.tail_eq]
    exact copyIn_at _ _ h.tail (by omega) (List.mem_range.mp hi)

theorem Ring.Settled.popped_head (h : r.Settled) {n : ℕ} (hn : n ≤ r.queue.length) :
    (r.popped n).head = (r.head + n) % shmDataSize := by
  have hN := shmDataSize_eq
  have hh := h.head
  have hlt := h.queue_lt
  exact advance_natCast (by omega)

theorem Ring.Settled.popped_settled (h : r.Settled) {n : ℕ} (hn : n ≤ r.queue.length) :
    (r.popped n).Settled where
  head := by
    rw [h.popped_head hn]
    exact Nat.mod_lt _ shmDataSize_pos
  tail := h.tail
  oldtail := h.oldtail

theorem Ring.Settled.popped_queue (h : r.Settled) {n : ℕ} (hn : n ≤ r.queue.length) :
    (r.popped n).queue = r.queue.drop n := by
  have hlt := h.queue_lt
  have htail : r.tail = ((r.head + n) % shmDataSize + (r.queue.length - n)) % shmDataSize := by
    rw [Nat.mod_add_mod, h.tail_eq]
    congr 1
    omega
  have hring := queue_of_length r.content
    (Nat.mod_lt (r.head + n) shmDataSize_pos) (by omega : r.queue.length - n < shmDataSize)
  have he : r.popped n = ⟨(r.head + n) % shmDataSize, r.tail, r.tail, r.content⟩ := by
    rw [← h.popped_head hn, Ring.popped, h.oldtail]
  rw [← htail, window_mod, ← window_drop _ _ hn, ← h.queue_eq] at hring
  rw [he, hring]

/-- `rb_write` on a settled ring accepts what fits and appends it to the queue. -/
theorem rbWrite_eq (h : r.Settled) (len : ℕ) (input : ℕ → Byte) :
    rbWrite r len input = some (((min len (shmDataSize - 1 - r.queue.length) : ℕ) : ℤ),
      r.pushed (min len (shmDataSize - 1 - r.queue.length)) input) := by
  simp only [rbWrite, clampLen_natCast, h.writeSize_eq]
  split_ifs with hz hold
  · rw [Int.natCast_eq_zero.mp hz, h.pushed_zero]
    rfl
  · rfl
  · exact absurd ⟨by omega, h.oldtail⟩ hold

/-- `rb_read` on a settled ring returns the front of the queue and removes it. -/
theorem rbRead_eq (h : r.Settled) (len : ℕ) (output : ℕ → Byte) :
    ∃ out, rbRead r len output = (((min len r.queue.length : ℕ) : ℤ),
        r.popped (min len r.queue.length), out) ∧
      (List.range (min len r.queue.length)).map out = r.queue.take (min len r.queue.length) := by
  have hlt := h.queue_lt
  have hsize : readSize r.head r.oldtail = r.queue.length := by rw [h.oldtail, h.queue_length]
  simp only [rbRead, clampLen_natCast, hsize]
  split_ifs with hz
  · refine ⟨output, ?_, ?_⟩
    · rw [Int.natCast_eq_zero.mp hz, h.popped_zero]
      rfl
    · rw [Int.natCast_eq_zero.mp hz]
      rfl
  · refine ⟨_, rfl, ?_⟩
    rw [h.queue_eq, window_length, window_take _ _ (Nat.min_le_right _ _)]
    apply List.map_congr_left
    intro i hi
    exact copyOut_at _ _ h.head (by omega) (List.mem_range.mp hi)

end ShmSocket
