import ShmSocket.RingBuffer.Steps

/-! The invariant that ties the three wrapped header words, the stale copies the
calls hold, and the partly copied bytes to one stream of bytes. It survives every
step except the two swaps that `NotLapped` and `NotTurned` exclude. -/
namespace ShmSocket.RingBuffer
open CircularWindow

/-- The stream positions a call has reserved and not yet published. -/
def Thread.span : Thread → Set ℕ
  | .writing (.copy _) f => Set.Ico f.tailAt (f.tailAt + f.len)
  | .writing .casOldtail f => Set.Ico f.tailAt (f.tailAt + f.len)
  | _ => ∅

/-- The head a call loaded is the wrapped position of some earlier head. -/
structure HeadSeen (s : Sys) (head headAt : ℕ) : Prop where
  image : head = headAt % shmDataSize
  le : headAt ≤ s.delivered.length

/-- A reservation whose first `copied` bytes are in place. -/
structure Reserves (s : Sys) (f : WriteFrame) (copied : ℕ) : Prop where
  image : f.tail = f.tailAt % shmDataSize
  pos : 0 < f.len
  fits : f.len ≤ f.input.length
  unpublished : s.published ≤ f.tailAt
  accepted : f.tailAt + f.len ≤ s.accepted.length
  bytes : ∀ j < f.len, s.accepted[f.tailAt + j]? = some (f.input.getD j 0)
  copied : Holds shmDataSize s.ring.content s.accepted f.tailAt (f.tailAt + copied)

/-- What a reader that still holds the current head has found. -/
structure Reads (s : Sys) (f : ReadFrame) : Prop where
  published : f.headAt + f.len ≤ s.published
  bytes : f.out <+: s.accepted.drop f.headAt

def WriteOk (s : Sys) : WritePc → WriteFrame → Prop
  | .loadHead, f => f.len ≤ f.input.length
  | .loadTail, f | .loadOldtail, f => f.len ≤ f.input.length ∧ HeadSeen s f.head f.headAt
  | .casTail, f => f.len ≤ f.input.length ∧ HeadSeen s f.head f.headAt ∧
      0 < f.len ∧ f.len ≤ writeSize f.head f.tail
  | .copy k, f => Reserves s f k ∧ k < f.len
  | .casOldtail, f => Reserves s f f.len

def ReadOk (s : Sys) : ReadPc → ReadFrame → Prop
  | .loadHead, _ => True
  | .loadOldtail, f => HeadSeen s f.head f.headAt
  | .copy, f => HeadSeen s f.head f.headAt ∧ f.out.length < f.len ∧
      (f.headAt = s.delivered.length → Reads s f)
  | .casHead, f => HeadSeen s f.head f.headAt ∧ f.out.length = f.len ∧ 0 < f.len ∧
      (f.headAt = s.delivered.length → Reads s f)

def ThreadOk (s : Sys) : Thread → Prop
  | .idle => True
  | .writing pc f => WriteOk s pc f
  | .reading pc f => ReadOk s pc f

/-- The part of the invariant about the segment and the stream. -/
structure Core (s : Sys) : Prop where
  head : s.ring.head = s.delivered.length % shmDataSize
  tail : s.ring.tail = s.accepted.length % shmDataSize
  oldtail : s.ring.oldtail = s.published % shmDataSize
  consumed : s.delivered.length ≤ s.published
  reserved : s.published ≤ s.accepted.length
  room : s.accepted.length < s.delivered.length + shmDataSize
  stored : Holds shmDataSize s.ring.content s.accepted s.delivered.length s.published
  stream : s.delivered <+: s.accepted

structure Inv (s : Sys) : Prop extends Core s where
  threads : ∀ t, ThreadOk s (s.thread t)
  disjoint : ∀ t u q, q ∈ (s.thread t).span → q ∈ (s.thread u).span → t = u

theorem span_bounds {s : Sys} {th : Thread} (h : ThreadOk s th) {q : ℕ} (hq : q ∈ th.span) :
    s.published ≤ q ∧ q < s.accepted.length := by
  cases th with
  | idle => exact hq.elim
  | reading pc f => exact hq.elim
  | writing pc f =>
    cases pc with
    | copy k =>
      obtain ⟨hr, _⟩ := h
      obtain ⟨h1, h2⟩ := hq
      exact ⟨hr.unpublished.trans h1, lt_of_lt_of_le h2 hr.accepted⟩
    | casOldtail =>
      have hr : Reserves s f f.len := h
      obtain ⟨h1, h2⟩ := hq
      exact ⟨hr.unpublished.trans h1, lt_of_lt_of_le h2 hr.accepted⟩
    | loadHead => exact hq.elim
    | loadTail => exact hq.elim
    | loadOldtail => exact hq.elim
    | casTail => exact hq.elim

theorem Holds.of_prefix {n : ℕ} {cell : ℕ → Byte} {log log' : List Byte} {lo hi : ℕ}
    (h : Holds n cell log lo hi) (hp : log <+: log') : Holds n cell log' lo hi := by
  obtain ⟨more, rfl⟩ := hp
  exact h.append more

/-- What one thread's step may change without disturbing another thread `th`:
the stream grows, and the cells and the unpublished state of `th.span` stay. -/
structure Undisturbed (s s' : Sys) (th : Thread) : Prop where
  delivered : s.delivered.length ≤ s'.delivered.length
  accepted : s.accepted <+: s'.accepted
  published : s.published ≤ s'.published
  unpublished : ∀ q ∈ th.span, s'.published ≤ q
  cells : ∀ lo hi, Set.Ico lo hi ⊆ th.span →
    Holds shmDataSize s.ring.content s.accepted lo hi →
    Holds shmDataSize s'.ring.content s.accepted lo hi

theorem HeadSeen.mono {s s' : Sys} {head headAt : ℕ} (h : HeadSeen s head headAt)
    (hd : s.delivered.length ≤ s'.delivered.length) : HeadSeen s' head headAt :=
  ⟨h.image, h.le.trans hd⟩

theorem Reserves.mono {s s' : Sys} {f : WriteFrame} {k : ℕ} (h : Reserves s f k) {th : Thread}
    (hk : k ≤ f.len) (hspan : th.span = Set.Ico f.tailAt (f.tailAt + f.len))
    (hu : Undisturbed s s' th) : Reserves s' f k where
  image := h.image
  pos := h.pos
  fits := h.fits
  unpublished := by
    apply hu.unpublished
    rw [hspan]
    exact ⟨le_rfl, by have := h.pos; omega⟩
  accepted := h.accepted.trans hu.accepted.length_le
  bytes := by
    intro j hj
    obtain ⟨more, hm⟩ := hu.accepted
    have hlt : f.tailAt + j < s.accepted.length := by have := h.accepted; omega
    rw [← hm, List.getElem?_append_left hlt]
    exact h.bytes j hj
  copied := by
    apply Holds.of_prefix _ hu.accepted
    apply hu.cells _ _ _ h.copied
    rw [hspan]
    exact Set.Ico_subset_Ico_right (by omega)

theorem Reads.mono {s s' : Sys} {f : ReadFrame} (h : Reads s f)
    (hp : s.published ≤ s'.published) (ha : s.accepted <+: s'.accepted) : Reads s' f where
  published := h.published.trans hp
  bytes := by
    obtain ⟨more, hm⟩ := ha
    rw [← hm, List.drop_append]
    exact h.bytes.trans (List.prefix_append _ _)

theorem ThreadOk.mono {s s' : Sys} {th : Thread} (h : ThreadOk s th)
    (hu : Undisturbed s s' th) : ThreadOk s' th := by
  have hreads : ∀ f : ReadFrame, f.headAt ≤ s.delivered.length →
      (f.headAt = s.delivered.length → Reads s f) →
      f.headAt = s'.delivered.length → Reads s' f := by
    intro f hle hr he
    have hd := hu.delivered
    exact (hr (by omega)).mono hu.published hu.accepted
  cases th with
  | idle => trivial
  | writing pc f =>
    cases pc with
    | loadHead => exact h
    | loadTail => exact ⟨h.1, h.2.mono hu.delivered⟩
    | loadOldtail => exact ⟨h.1, h.2.mono hu.delivered⟩
    | casTail => exact ⟨h.1, h.2.1.mono hu.delivered, h.2.2⟩
    | copy k => exact ⟨h.1.mono h.2.le rfl hu, h.2⟩
    | casOldtail => exact Reserves.mono h le_rfl rfl hu
  | reading pc f =>
    cases pc with
    | loadHead => trivial
    | loadOldtail => exact HeadSeen.mono h hu.delivered
    | copy => exact ⟨h.1.mono hu.delivered, h.2.1, hreads f h.1.le h.2.2⟩
    | casHead => exact ⟨h.1.mono hu.delivered, h.2.1, h.2.2.1, hreads f h.1.le h.2.2.2⟩

/-- One thread steps: its own new state is in order and the others are undisturbed. -/
theorem Inv.of_step {s s' : Sys} (h : Inv s) (t : Tid) (th : Thread)
    (hth : s'.thread = Function.update s.thread t th) (hcore : Core s') (hok : ThreadOk s' th)
    (hspan : ∀ q ∈ th.span, q ∈ (s.thread t).span ∨ s.accepted.length ≤ q)
    (hu : ∀ u, u ≠ t → Undisturbed s s' (s.thread u)) : Inv s' where
  toCore := hcore
  threads := by
    intro u
    by_cases he : u = t
    · rw [he, hth, Function.update_self]
      exact hok
    · rw [hth, Function.update_of_ne he]
      exact (h.threads u).mono (hu u he)
  disjoint := by
    have hnew : ∀ u q, u ≠ t → q ∈ th.span → q ∉ (s.thread u).span := by
      intro u q hne hq hq'
      rcases hspan q hq with hold | hfresh
      · exact hne (h.disjoint u t q hq' hold)
      · exact absurd (span_bounds (h.threads u) hq').2 (by omega)
    intro u v q hu hv
    rw [hth] at hu hv
    by_cases he : u = t <;> by_cases he' : v = t
    · rw [he, he']
    · rw [he, Function.update_self] at hu
      rw [Function.update_of_ne he'] at hv
      exact absurd hv (hnew v q he' hu)
    · rw [Function.update_of_ne he] at hu
      rw [he', Function.update_self] at hv
      exact absurd hu (hnew u q he hv)
    · rw [Function.update_of_ne he] at hu
      rw [Function.update_of_ne he'] at hv
      exact h.disjoint u v q hu hv

/-- A step that leaves the segment and the stream alone. -/
theorem Inv.of_local {s s' : Sys} (h : Inv s) (t : Tid) (th : Thread)
    (hth : s'.thread = Function.update s.thread t th) (hring : s'.ring = s.ring)
    (ha : s'.accepted = s.accepted) (hp : s'.published = s.published)
    (hd : s'.delivered = s.delivered) (hok : ThreadOk s th) (hspan : th.span = ∅) : Inv s' := by
  have hu : ∀ th' : Thread, ThreadOk s th' → Undisturbed s s' th' := by
    intro th' hok'
    refine ⟨by rw [hd], by rw [ha], by rw [hp], ?_, ?_⟩
    · intro q hq
      rw [hp]
      exact (span_bounds hok' hq).1
    · intro lo hi _ hh
      rw [hring]
      exact hh
  apply h.of_step t th hth
  · constructor
    · rw [hring, hd, h.head]
    · rw [hring, ha, h.tail]
    · rw [hring, hp, h.oldtail]
    · rw [hd, hp]
      exact h.consumed
    · rw [hp, ha]
      exact h.reserved
    · rw [hd, ha]
      exact h.room
    · rw [hring, ha, hd, hp]
      exact h.stored
    · rw [hd, ha]
      exact h.stream
  · exact hok.mono (hu th hok)
  · intro q hq
    rw [hspan] at hq
    exact hq.elim
  · intro u _
    exact hu _ (h.threads u)

theorem Inv.setThread {s : Sys} (h : Inv s) (t : Tid) (th : Thread) (hok : ThreadOk s th)
    (hspan : th.span = ∅) : Inv (s.setThread t th) :=
  h.of_local t th rfl rfl rfl rfl rfl hok hspan

theorem Inv.ret {s : Sys} (h : Inv s) (t : Tid) (r : Ret) : Inv (s.ret t r) :=
  h.of_local t .idle rfl rfl rfl rfl rfl trivial rfl

end ShmSocket.RingBuffer
