import ShmSocket.Connection.RingsInv
import ShmSocket.RingBuffer.Stream

/-! One ring from a sending thread to a receiving one, from the time an index is given to
their connection on, and what the look-up of a ring leaves alone while calls are in progress
on all rings. -/
namespace ShmSocket
open Indices CircularWindow

namespace RingBuffer
variable {s s' : Sys} {w r t : Tid} {a : Act} {sent received : List Byte}

/-- The bytes between `head` and `oldtail` are published and not yet consumed. -/
theorem queue_eq (h : Inv s) :
    s.ring.queue = (s.accepted.take s.published).drop s.delivered.length := by
  have hread := readSize_mod h.consumed (h.reserved.trans_lt h.room)
  rw [Ring.queue, h.head, h.oldtail, hread, window_mod]
  exact h.stored.window_eq h.consumed

/-- A ring with one writer and one reader, whose reads have returned all that left it. -/
structure Carries (w r : Tid) (s : Sys) : Prop where
  stream : Stream w r s
  returned : s.returned = s.delivered

/-- What the writes got accepted is what the reads returned and what the ring holds. -/
theorem Carries.written (h : Carries w r s) : s.written = s.returned ++ s.ring.queue := by
  have hconsumed := h.stream.inv.consumed
  have hwritten : s.written = s.accepted.take s.published := h.stream.written
  have hprefix : s.delivered <+: s.accepted.take s.published :=
    List.prefix_take_iff.mpr ⟨h.stream.inv.stream, hconsumed⟩
  rw [hwritten, h.returned, queue_eq h.stream.inv]
  conv_rhs => enter [1]; rw [List.prefix_iff_eq_take.mp hprefix]
  exact (List.take_append_drop _ _).symm

theorem Carries.queue_lt (h : Carries w r s) : s.ring.queue.length < shmDataSize := by
  have hroom := h.stream.inv.room
  have hreserved := h.stream.inv.reserved
  have hconsumed := h.stream.inv.consumed
  rw [queue_eq h.stream.inv, List.length_drop, List.length_take]
  omega

/-- The call that has ended in the last step, if one has. -/
def ended (s s' : Sys) : List Ret := s'.log.drop s.log.length

theorem ended_eq {rs : List Ret} (h : Logs s s' rs) : ended s s' = rs := by
  rw [ended, h.log, List.drop_left' rfl]

/-- A step returns from a call of its thread, which reads or writes. -/
theorem ended_cases (hs : s.step a = some s') : Logs s s' (ended s s') ∧
    (ended s s' = [] ∨ ∃ t, a = .exec t ∧
      ((∃ pc f, s.thread t = .writing pc f) ∧ (ended s s').flatMap Ret.read = [] ∨
        (∃ pc f, s.thread t = .reading pc f) ∧ (ended s s').flatMap Ret.written = [])) := by
  rcases step_logs hs with hl | ⟨t, ret, rfl, hret, hl⟩
  · rw [ended_eq hl]
    exact ⟨hl, .inl rfl⟩
  · rw [ended_eq hl]
    refine ⟨hl, .inr ⟨t, rfl, ?_⟩⟩
    cases hret with
    | full ht => exact .inl ⟨⟨_, _, ht⟩, rfl⟩
    | wrote ht => exact .inl ⟨⟨_, _, ht⟩, rfl⟩
    | empty ht => exact .inr ⟨⟨_, _, ht⟩, rfl⟩
    | got ht => exact .inr ⟨⟨_, _, ht⟩, rfl⟩

theorem Carries.step (h : Carries w r s) (ho : OneToOne w r s a) (hs : s.step a = some s') :
    Carries w r s' := by
  obtain ⟨hl, -⟩ := ended_cases hs
  refine ⟨h.stream.step ho hs, ?_⟩
  rw [Sys.returned, hl.log, List.flatMap_append, hl.delivered, ← h.returned]
  rfl

/-- No call is in progress and nothing is in the ring. -/
structure Quiet (s : Sys) : Prop where
  idle : ∀ t, s.thread t = .idle
  carries : ∀ w r, Carries w r s
  empty : s.ring.queue = []

theorem Quiet.start (content : ℕ → Byte) : Quiet (Sys.start content) :=
  ⟨fun _ => rfl, fun _ _ => ⟨.start ⟨content, rfl⟩, rfl⟩, start_queue content⟩

/-- The ring since its index was given to a connection: what was sent and received. -/
structure Line (w r : Tid) (s : Sys) (sent received : List Byte) : Prop where
  carries : Carries w r s
  since : ∃ base, s.written = base ++ sent ∧ s.returned = base ++ received

theorem Quiet.line (h : Quiet s) : Line w r s [] [] := by
  refine ⟨h.carries w r, s.returned, ?_, (List.append_nil _).symm⟩
  rw [(h.carries w r).written, h.empty]

namespace Line

theorem flow (h : Line w r s sent received) : sent = received ++ s.ring.queue := by
  obtain ⟨base, hwritten, hreturned⟩ := h.since
  have hall := h.carries.written
  rw [hwritten, hreturned, List.append_assoc] at hall
  exact List.append_cancel_left hall

/-- When both threads are out of their calls and the ring is empty, it is anybody's. -/
theorem quiet (h : Line w r s sent received) (hw : s.thread w = .idle)
    (hr : s.thread r = .idle) (hempty : s.ring.queue = []) : Quiet s := by
  have hst := h.carries.stream
  have hidle : ∀ t, s.thread t = .idle := by
    intro t
    cases ht : s.thread t with
    | idle => rfl
    | writing pc f =>
      obtain rfl := hst.writer.1 t pc f ht
      exact absurd (hw.symm.trans ht) (by simp)
    | reading pc f =>
      obtain ⟨rfl, -⟩ := hst.reader t pc f ht
      exact absurd (hr.symm.trans ht) (by simp)
  have hpublished : s.published = s.accepted.length := by
    have hat := hst.writer.2
    rwa [hw] at hat
  refine ⟨hidle, fun w' r' => ⟨⟨hst.inv, ?_, ⟨?_, ?_⟩, hst.written, hst.log⟩,
    h.carries.returned⟩, hempty⟩
  · intro t pc f ht
    exact absurd ((hidle t).symm.trans ht) (by simp)
  · intro t pc f ht
    exact absurd ((hidle t).symm.trans ht) (by simp)
  · rw [hidle]
    exact hpublished

/-- A call begins, or one takes a step. -/
theorem step (h : Line w r s sent received) (ho : OneToOne w r s a) (hs : s.step a = some s') :
    Line w r s' (sent ++ (ended s s').flatMap Ret.written)
      (received ++ (ended s s').flatMap Ret.read) := by
  obtain ⟨base, hwritten, hreturned⟩ := h.since
  obtain ⟨hl, -⟩ := ended_cases hs
  refine ⟨h.carries.step ho hs, base, ?_, ?_⟩
  · rw [← List.append_assoc, ← hwritten, Sys.written, hl.log, List.flatMap_append]
    rfl
  · rw [← List.append_assoc, ← hreturned, Sys.returned, hl.log, List.flatMap_append]
    rfl

/-- Nothing has gone through a ring that nobody has used. -/
theorem of_start {content : ℕ → Byte} (h : Line w r (Sys.start content) sent received) :
    sent = [] ∧ received = [] := by
  obtain ⟨base, hwritten, hreturned⟩ := h.since
  exact ⟨(List.append_eq_nil_iff.mp hwritten.symm).2, (List.append_eq_nil_iff.mp hreturned.symm).2⟩

/-- Only the two threads are in calls, the writer in writes and the reader in reads. -/
theorem busy (h : Line w r s sent received) (ht : s.thread t ≠ .idle) :
    (∃ pc f, s.thread t = .writing pc f) ∧ t = w ∨
      (∃ pc f, s.thread t = .reading pc f) ∧ t = r := by
  cases hth : s.thread t with
  | idle => exact absurd hth ht
  | writing pc f => exact .inl ⟨⟨pc, f, rfl⟩, h.carries.stream.writer.1 t pc f hth⟩
  | reading pc f => exact .inr ⟨⟨pc, f, rfl⟩, (h.carries.stream.reader t pc f hth).1⟩

end Line

end RingBuffer

namespace Rings
variable {r r' r'' : Rings} {p : Pid} {pair : Pair} {k : ℕ}

/-- The same tables and handles, with the header words of all rings forgotten. -/
def cleared (r : Rings) : Rings := { r with ring := fun _ => .zero }

/-- What attaching segments does to their contents: the first attach resets a header. -/
structure Attaches (r r' : Rings) : Prop where
  kept : ∀ seg, r.nattch seg ≠ 0 → r'.nattch seg ≠ 0 ∧ r'.ring seg = r.ring seg
  first : ∀ seg, r.nattch seg = 0 → r'.ring seg =
    if r'.nattch seg = 0 then r.ring seg else { r.ring seg with head := 0, tail := 0, oldtail := 0 }

theorem Attaches.of_eq (hring : r'.ring = r.ring) (hnattch : r'.nattch = r.nattch) :
    Attaches r r' :=
  ⟨fun seg hne => ⟨by rwa [hnattch], by rw [hring]⟩, fun seg hz => by
    rw [hnattch, if_pos hz, hring]⟩

theorem rbInit_attaches (r : Rings) (p : Pid) (k : ℕ) : Attaches r (r.rbInit p k) := by
  have hnattch : (r.rbInit p k).nattch =
      Function.update r.nattch (segmentOf p k) (r.nattch (segmentOf p k) + 1) := rfl
  have hring : (r.rbInit p k).ring = if r.nattch (segmentOf p k) = 0 then
      Function.update r.ring (segmentOf p k)
        { r.ring (segmentOf p k) with head := 0, tail := 0, oldtail := 0 }
      else r.ring := rfl
  generalize r.rbInit p k = r₁ at hnattch hring
  generalize segmentOf p k = own at hnattch hring
  have hother : ∀ seg, seg ≠ own → r₁.nattch seg = r.nattch seg ∧ r₁.ring seg = r.ring seg := by
    intro seg hseg
    rw [hnattch, hring, Function.update_of_ne hseg]
    refine ⟨rfl, ?_⟩
    split_ifs
    · exact Function.update_of_ne hseg _ _
    · rfl
  constructor
  · intro seg hne
    by_cases hseg : seg = own
    · subst hseg
      rw [hnattch, hring, Function.update_self, if_neg hne]
      exact ⟨Nat.succ_ne_zero _, rfl⟩
    · obtain ⟨hn, hr⟩ := hother seg hseg
      exact ⟨hn.trans_ne hne, hr⟩
  · intro seg hz
    by_cases hseg : seg = own
    · subst hseg
      rw [hnattch, hring, Function.update_self, if_pos hz, Function.update_self,
        if_neg (Nat.succ_ne_zero _)]
    · obtain ⟨hn, hr⟩ := hother seg hseg
      rw [hn, hr, if_pos hz]

theorem rbGet_attaches (r : Rings) (p : Pid) (k : ℕ) : Attaches r (r.rbGet p k) := by
  unfold rbGet
  split_ifs
  · exact .of_eq rfl rfl
  · obtain ⟨hkept, hfirst⟩ := rbInit_attaches r p k
    exact ⟨hkept, hfirst⟩

theorem getIdx_same (h : r.getIdx p pair = some (k, r')) :
    r'.ring = r.ring ∧ r'.nattch = r.nattch := by
  simp only [getIdx] at h
  split_ifs at h
  cases h
  exact ⟨rfl, rfl⟩

theorem Attaches.congr_left (h : Attaches r' r'') (hring : r'.ring = r.ring)
    (hnattch : r'.nattch = r.nattch) : Attaches r r'' := by
  refine ⟨fun seg hne => ?_, fun seg hz => ?_⟩
  · rw [← hring]
    exact h.kept seg (hnattch ▸ hne)
  · rw [← hring]
    exact h.first seg (hnattch ▸ hz)

theorem openRing_attaches (h : r.openRing p pair = some (k, r')) : Attaches r r' := by
  obtain ⟨⟨j, r₁⟩, hget, he⟩ := Option.map_eq_some_iff.mp h
  obtain ⟨rfl, rfl⟩ := Prod.mk.inj he
  obtain ⟨hring, hnattch⟩ := getIdx_same hget
  exact (rbGet_attaches r₁ p j).congr_left hring hnattch

theorem rbGet_cleared (r : Rings) (p : Pid) (k : ℕ) :
    r.cleared.rbGet p k = (r.rbGet p k).cleared := by
  have hzero : (if r.nattch (segmentOf p k) = 0 then
      Function.update (fun _ : Segment => Ring.zero) (segmentOf p k) Ring.zero
      else fun _ => Ring.zero) = fun _ => Ring.zero := by
    rw [Function.update_eq_self, ite_self]
  have hinit : r.cleared.rbInit p k = (r.rbInit p k).cleared := by
    simp only [rbInit, cleared]
    generalize segmentOf p k = own at hzero ⊢
    exact congrArg (fun ring => (⟨r.tables, ring, _, r.memo⟩ : Rings)) hzero
  unfold rbGet
  rw [hinit]
  change (if r.memo (p, k) = true then _ else _) = _
  split_ifs
  · rfl
  · rfl

/-- The look-up does not depend on what is in the rings. -/
theorem openRing_cleared (h : r.openRing p pair = some (k, r')) :
    r.cleared.openRing p pair = some (k, r'.cleared) := by
  obtain ⟨⟨j, r₁⟩, hget, he⟩ := Option.map_eq_some_iff.mp h
  obtain ⟨rfl, rfl⟩ := Prod.mk.inj he
  have hclear : r.cleared.getIdx p pair = some (j, r₁.cleared) := by
    simp only [getIdx] at hget ⊢
    split_ifs at hget with hlen
    cases hget
    exact if_pos hlen
  rw [← rbGet_cleared, openRing, hclear, Option.map_some]

/-- `close` looks its ring up, clears the entry and gives the index back. -/
theorem closeRing_opens (h : r.closeRing p pair = some r') : ∃ k r₁,
    r.openRing p pair = some (k, r₁) ∧ r'.ring = r₁.ring ∧ r'.nattch = r₁.nattch ∧
      r'.tables.table = Function.update r₁.tables.table (cell p pair) 0 := by
  obtain ⟨⟨k, r₁⟩, hopen, hclose⟩ := Option.bind_eq_some_iff.mp h
  obtain ⟨pool, -, rfl⟩ := Option.map_eq_some_iff.mp hclose
  exact ⟨k, r₁, hopen, rfl, rfl, rfl⟩

theorem closeRing_cleared (h : r.closeRing p pair = some r') :
    r.cleared.closeRing p pair = some r'.cleared := by
  obtain ⟨⟨k, r₁⟩, hopen, hclose⟩ := Option.bind_eq_some_iff.mp h
  obtain ⟨pool, hrel, rfl⟩ := Option.map_eq_some_iff.mp hclose
  rw [closeRing, openRing_cleared hopen, Option.bind_some]
  change (poolRelease k (clearIdx r₁.tables (cell p pair)).pool).map _ = _
  rw [hrel]
  rfl

end Rings

end ShmSocket
