import ShmSocket.CInt
import ShmSocket.Lib.CircularWindow

/-! The ring segment of `RingBuffer.h` and `rb_read`, `rb_write` run with no
other thread active. -/
namespace ShmSocket
open CircularWindow

def shmSize : ℕ := 4096 * 512
def metadataSize : ℕ := 3
def shmDataSize : ℕ := shmSize - metadataSize * 4

/-- The shared segment: the three header words and the data area. `content` is
addressed from the pointer `rb->content`; the ring uses offsets below `shmDataSize`. -/
structure Ring where
  head : ℕ
  tail : ℕ
  oldtail : ℕ
  content : ℕ → Byte

/-- A zero-filled segment. -/
def Ring.zero : Ring := ⟨0, 0, 0, fun _ => 0⟩

/-- The bytes `rb_read` finds between its two loads. -/
def readSize (head tail : ℕ) : ℕ :=
  if head ≤ tail then tail - head else tail + shmDataSize - head

/-- The room `rb_write` finds between its two loads. One byte always stays free. -/
def writeSize (head tail : ℕ) : ℕ :=
  if tail < head then head - tail - 1 else head + shmDataSize - tail - 1

/-- `new_head` and `new_tail`. -/
def advance (pos : ℕ) (len : ℤ) : ℕ := u32 (pos + len) % shmDataSize

/-- The test for one continuous segment. -/
def Contiguous (pos : ℕ) (len : ℤ) : Prop := u32 (pos + len) < shmDataSize

instance (pos : ℕ) (len : ℤ) : Decidable (Contiguous pos len) := by
  unfold Contiguous
  infer_instance

/-- The data offset of byte `k` of a transfer: the second of the two `memcpy`
calls starts over at offset 0. -/
def copyOffset (pos : ℕ) (len : ℤ) (k : ℕ) : ℕ :=
  if Contiguous pos len then pos + k
  else if k < shmDataSize - pos then pos + k else k - (shmDataSize - pos)

theorem shmDataSize_eq : shmDataSize = 2097140 := rfl

theorem shmDataSize_pos : 0 < shmDataSize := by decide

theorem advance_natCast {pos len : ℕ} (h : pos + len < 2 ^ 32) :
    advance pos len = (pos + len) % shmDataSize := by
  unfold advance
  rw [← Nat.cast_add, u32_natCast h]

theorem contiguous_natCast {pos len : ℕ} (h : pos + len < 2 ^ 32) :
    Contiguous pos len ↔ pos + len < shmDataSize := by
  unfold Contiguous
  rw [← Nat.cast_add, u32_natCast h]

/-- Both branches of the copy go round the ring from `pos`. -/
theorem copyOffset_eq {pos len k : ℕ} (hpos : pos < shmDataSize) (hlen : len < shmDataSize)
    (hk : k < len) : copyOffset pos len k = (pos + k) % shmDataSize := by
  have hN := shmDataSize_eq
  unfold copyOffset
  simp only [contiguous_natCast (by omega : pos + len < 2 ^ 32)]
  split_ifs with h1 h2
  · rw [Nat.mod_eq_of_lt (by omega)]
  · rw [Nat.mod_eq_of_lt (by omega)]
  · have hwrap : pos + k = (k - (shmDataSize - pos)) + shmDataSize := by omega
    rw [hwrap, Nat.add_mod_right, Nat.mod_eq_of_lt (by omega)]

theorem readSize_mod {h t : ℕ} (hle : h ≤ t) (hlt : t < h + shmDataSize) :
    readSize (h % shmDataSize) (t % shmDataSize) = t - h := distance_eq hle hlt

theorem writeSize_mod {h t : ℕ} (hle : h ≤ t) (hlt : t < h + shmDataSize) :
    writeSize (h % shmDataSize) (t % shmDataSize) = shmDataSize - 1 - (t - h) := room_eq hle hlt

theorem readSize_lt {head tail : ℕ} (hh : head < shmDataSize) (ht : tail < shmDataSize) :
    readSize head tail < shmDataSize := by
  unfold readSize
  split_ifs <;> omega

end ShmSocket
