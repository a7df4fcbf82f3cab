import ShmSocket.RingBuffer.Sequential
import Mathlib.Data.List.GetD

/-! Two transfers after each other on one ring are one transfer of both lengths, wherever
the ring wraps, fills up or runs empty. -/
namespace ShmSocket
open CircularWindow

/-- A caller's buffer with these bytes. -/
def buffer (bytes : List Byte) : ℕ → Byte := fun i => bytes.getD i 0

/-- The bytes that an `rb_read` returns in the output buffer. -/
def readBytes (result : ℤ × Ring × (ℕ → Byte)) : List Byte :=
  (List.range result.1.toNat).map result.2.2

theorem buffer_append_left {a b : List Byte} {i : ℕ} (h : i < a.length) :
    buffer (a ++ b) i = buffer a i := List.getD_append _ _ _ _ h

theorem buffer_append_right (a b : List Byte) (i : ℕ) :
    buffer (a ++ b) (a.length + i) = buffer b i := by
  unfold buffer
  rw [List.getD_append_right _ _ _ _ (Nat.le_add_right _ _), Nat.add_sub_cancel_left]

namespace Ring.Settled
variable {r : Ring} {m n : ℕ}

/-- The `len` that fits, in two steps. -/
theorem fits_add (h : r.Settled) (a b : ℕ) (input : ℕ → Byte) :
    let room := shmDataSize - 1 - r.queue.length
    min (a + b) room = min a room + min b (shmDataSize - 1 -
      (r.pushed (min a room) input).queue.length) := by
  have hlt := h.queue_lt
  intro room
  rw [h.pushed_queue (by omega), List.length_append, List.length_map, List.length_range]
  omega

theorem advance_add {pos : ℕ} (hpos : pos < shmDataSize) (hm : m < shmDataSize)
    (hn : n < shmDataSize) : advance (advance pos m) n = advance pos (m + n : ℕ) := by
  have hN := shmDataSize_eq
  have hlt : (pos + m) % shmDataSize < shmDataSize := Nat.mod_lt _ shmDataSize_pos
  rw [advance_natCast (by omega : pos + m < 2 ^ 32), advance_natCast (by omega),
    advance_natCast (by omega), Nat.mod_add_mod, Nat.add_assoc]

/-- Two pushes are one push of both, with the same header words and the same bytes. -/
theorem pushed_add (h : r.Settled) (hfits : r.queue.length + (m + n) < shmDataSize)
    {a b ab : ℕ → Byte} (ha : ∀ i < m, ab i = a i) (hb : ∀ i < n, ab (m + i) = b i) :
    (r.pushed m a).pushed n b = r.pushed (m + n) ab := by
  have hN := shmDataSize_eq
  have ht := h.tail
  have htail : advance r.tail m < shmDataSize := (h.pushed_settled (by omega) a).tail
  have hadvance := advance_add (m := m) (n := n) ht (by omega) (by omega)
  have hcontent : copyIn (copyIn r.content r.tail m a) (advance r.tail m) n b =
      copyIn r.content r.tail (m + n : ℕ) ab := by
    rw [copyIn_eq _ _ htail (by omega), copyIn_eq _ _ ht (by omega), copyIn_eq _ _ ht (by omega),
      advance_natCast (by omega), put_mod, put_add, put_congr ha, put_congr hb]
  simp only [Ring.pushed, hadvance, hcontent]

theorem popped_add (h : r.Settled) (hm : m ≤ r.queue.length) (hn : n ≤ r.queue.length) :
    (r.popped m).popped n = r.popped (m + n) := by
  have hlt := h.queue_lt
  have hadvance := advance_add (m := m) (n := n) h.head (by omega) (by omega)
  simp only [Ring.popped, hadvance]

/-- `rb_write` of `a` and then of `b` is `rb_write` of `a ++ b`. -/
theorem write_append (h : r.Settled) (a b : List Byte) :
    ∃ accepted₁ accepted₂ r₁ r₂, rbWrite r a.length (buffer a) = some (accepted₁, r₁) ∧
      rbWrite r₁ b.length (buffer b) = some (accepted₂, r₂) ∧
      rbWrite r (a ++ b).length (buffer (a ++ b)) = some (accepted₁ + accepted₂, r₂) := by
  have hlt := h.queue_lt
  have hfirst := rbWrite_eq h a.length (buffer a)
  have hboth := rbWrite_eq h (a ++ b).length (buffer (a ++ b))
  have hsum := h.fits_add a.length b.length (buffer a)
  rw [List.length_append, hsum] at hboth
  generalize hm : min a.length (shmDataSize - 1 - r.queue.length) = m at *
  have hsettled := h.pushed_settled (n := m) (by omega) (buffer a)
  have hqueue := h.pushed_queue (n := m) (by omega) (buffer a)
  have hsecond := rbWrite_eq hsettled b.length (buffer b)
  generalize hn : min b.length (shmDataSize - 1 - (r.pushed m (buffer a)).queue.length) = n at *
  rw [hqueue, List.length_append, List.length_map, List.length_range] at hn
  have hpush : (r.pushed m (buffer a)).pushed n (buffer b) =
      r.pushed (m + n) (buffer (a ++ b)) := by
    refine h.pushed_add (by omega) (fun i hi => buffer_append_left (by omega)) fun i hi => ?_
    -- the second write stores something only if the first one had room for all of `a`
    obtain rfl : m = a.length := by omega
    exact buffer_append_right a b i
  rw [hpush] at hsecond
  rw [List.length_append, hboth]
  exact ⟨_, _, _, _, hfirst, hsecond, by rw [Nat.cast_add]⟩

/-- The count, the ring and the bytes of `rb_read`. -/
theorem read_got (h : r.Settled) (len : ℕ) (out : ℕ → Byte) :
    (rbRead r len out).1 = (min len r.queue.length : ℕ) ∧
      (rbRead r len out).2.1 = r.popped (min len r.queue.length) ∧
      readBytes (rbRead r len out) = r.queue.take len := by
  obtain ⟨buf, hread, hbytes⟩ := rbRead_eq h len out
  rw [hread]
  refine ⟨rfl, rfl, hbytes.trans ?_⟩
  rw [← List.take_eq_take_min]

/-- `rb_read` of `m` and then of `n` is `rb_read` of `m + n`. -/
theorem read_add (h : r.Settled) (m n : ℕ) (out₁ out₂ out : ℕ → Byte) :
    ∃ first second both, rbRead r m out₁ = first ∧ rbRead first.2.1 n out₂ = second ∧
      rbRead r (m + n : ℕ) out = both ∧ both.1 = first.1 + second.1 ∧
      both.2.1 = second.2.1 ∧ readBytes both = readBytes first ++ readBytes second := by
  obtain ⟨hret₁, hring₁, hgot₁⟩ := h.read_got m out₁
  obtain ⟨hret, hring, hgot⟩ := h.read_got (m + n) out
  have hle : min m r.queue.length ≤ r.queue.length := Nat.min_le_right _ _
  obtain ⟨hret₂, hring₂, hgot₂⟩ := (hring₁ ▸ h.popped_settled hle).read_got n out₂
  have hqueue : (rbRead r m out₁).2.1.queue = r.queue.drop m := by
    rw [hring₁, h.popped_queue hle, List.drop_eq_drop_iff]
    omega
  rw [hqueue, List.length_drop] at hret₂ hring₂
  rw [hqueue] at hgot₂
  refine ⟨_, _, _, rfl, rfl, rfl, ?_, ?_, ?_⟩
  · rw [hret, hret₁, hret₂]
    omega
  · rw [hring, hring₂, hring₁, h.popped_add hle (by omega)]
    congr 1
    omega
  · rw [hgot, hgot₁, hgot₂, List.take_add]

end Ring.Settled

/-- It makes no difference how a transfer is cut into calls: the same counts in sum, the
same bytes, and the same header words and content afterwards. -/
structure CutsIrrelevant (r : Ring) : Prop where
  writes : ∀ a b : List Byte, ∃ accepted₁ accepted₂ r₁ r₂,
    rbWrite r a.length (buffer a) = some (accepted₁, r₁) ∧
      rbWrite r₁ b.length (buffer b) = some (accepted₂, r₂) ∧
      rbWrite r (a ++ b).length (buffer (a ++ b)) = some (accepted₁ + accepted₂, r₂)
  reads : ∀ (m n : ℕ) (out₁ out₂ out : ℕ → Byte), ∃ first second both,
    rbRead r m out₁ = first ∧ rbRead first.2.1 n out₂ = second ∧
      rbRead r (m + n : ℕ) out = both ∧ both.1 = first.1 + second.1 ∧
      both.2.1 = second.2.1 ∧ readBytes both = readBytes first ++ readBytes second

theorem cuts_irrelevant {r : Ring} (h : r.Settled) : CutsIrrelevant r :=
  ⟨h.write_append, h.read_add⟩

/-- An empty ring two bytes before its end. -/
theorem cuts_irrelevant_wrap :
    CutsIrrelevant ⟨shmDataSize - 2, shmDataSize - 2, shmDataSize - 2, fun _ => 0⟩ :=
  cuts_irrelevant ⟨by decide, by decide, rfl⟩

end ShmSocket
