import ShmSocket.RingBuffer.Overrun
import ShmSocket.RingBuffer.Commit
import ShmSocket.Lib.Linearize
import ShmSocket.Lib.BoundedFifo

/-! The ring as a bounded queue, with any number of writers and one reader. A read takes
effect when it loads `oldtail`, a write when its swap on `oldtail` succeeds; what the calls
return is what a queue of `shmDataSize - 1` bytes answers at these instructions. -/
namespace ShmSocket.RingBuffer
open StepMachine BoundedFifo

/-- A finished call as an operation of the queue. -/
def Ret.op : Ret → Op Byte
  | .wrote f count => .put f.input count
  | .got f bytes => .take f.req bytes

def Act.begins : Act → Bool
  | .exec _ => false
  | _ => true

/-- What the next instruction of a call does to the queue `q`. A write that finds no room
puts nothing when it loads `oldtail`. -/
def effect (s : Sys) (q : List Byte) : Act → Option (Op Byte)
  | .exec t =>
      match s.thread t with
      | .reading .loadOldtail f => some (.take f.req (q.take f.req))
      | .writing .loadOldtail f =>
          if min (writeSize f.head f.tail) f.len = 0 then some (.put f.input 0) else none
      | .writing .casOldtail f =>
          if s.ring.oldtail = f.tail then some (.put f.input f.len) else none
      | _ => none
  | _ => none

def instrument : Instrument Sys Act Tid (List Byte) (Op Byte) :=
  ⟨Act.thread, Act.begins, effect, fun s => s.log.map Ret.op⟩

/-- The queue the ring stands for. -/
abbrev queue : StepMachine (List Byte) (Op Byte) := fifo Byte (shmDataSize - 1)

/-- The ring with the queue beside it. -/
abbrev both : StepMachine (Observed Sys Tid (List Byte) (Op Byte)) Act :=
  observed machine queue instrument

/-- The bytes a read has taken off the queue and not yet off the ring. -/
def Thread.inFlight : Thread → ℕ
  | .reading .copy f | .reading .casHead f => f.len
  | _ => 0

/-- The operation a call will answer, once it took effect. -/
def Promised (s : Sys) (p : Option (Op Byte)) : Thread → Prop
  | .idle => True
  | .writing _ _ | .reading .loadHead _ | .reading .loadOldtail _ => p = none
  | .reading .copy f | .reading .casHead f =>
      p = some (.take f.req ((s.accepted.drop f.headAt).take f.len))

/-- The queue holds what is published, less what the reader returned or is about to. -/
structure Refines (r : Tid) (x : Observed Sys Tid (List Byte) (Op Byte)) : Prop where
  inv : Inv x.state
  reader : SoleReader r x.state
  written : WrittenOk x.state
  spec : x.spec = (x.state.accepted.take x.state.published).drop
    (x.state.delivered.length + (x.state.thread r).inFlight)
  promise : ∀ t, Promised x.state (x.promise t) (x.state.thread t)

variable {r t : Tid} {s s' : Sys} {a : Act} {x : Observed Sys Tid (List Byte) (Op Byte)}

theorem spec_length (h : Refines r x) (hr : (x.state.thread r).inFlight = 0) :
    x.spec.length = x.state.published - x.state.delivered.length := by
  rw [h.spec, hr, Nat.add_zero, List.length_drop, List.length_take,
    Nat.min_eq_left h.inv.reserved]

/-- The bytes a read has taken are published. -/
theorem inFlight_le (hi : Inv s) (hr : SoleReader r s) {pc : ReadPc} {f : ReadFrame}
    (ht : s.thread t = .reading pc f) :
    f.headAt + (s.thread t).inFlight ≤ s.published ∨ (s.thread t).inFlight = 0 := by
  obtain ⟨-, hat⟩ := hr t pc f ht
  have hok := hi.threads t
  rw [ht] at hok ⊢
  cases pc with
  | loadHead => exact .inr rfl
  | loadOldtail => exact .inr rfl
  | copy => exact .inl (hok.2.2 hat.1).published
  | casHead => exact .inl (hok.2.2.2 hat.1).published

/-- What a read has taken does not change while bytes are reserved behind it. -/
theorem Promised.mono {p : Option (Op Byte)} (hi : Inv s) (hr : SoleReader r s)
    (ha : s.accepted <+: s'.accepted) (h : Promised s p (s.thread t)) :
    Promised s' p (s.thread t) := by
  have hsame : ∀ pc f, s.thread t = .reading pc f → (s.thread t).inFlight = f.len →
      (s'.accepted.drop f.headAt).take f.len = (s.accepted.drop f.headAt).take f.len := by
    intro pc f ht hfl
    obtain ⟨more, hm⟩ := ha
    have hres := hi.reserved
    rcases inFlight_le hi hr ht with hle | hz
    · rw [hfl] at hle
      rw [← hm, List.drop_append_of_le_length (by omega),
        List.take_append_of_le_length (by rw [List.length_drop]; omega)]
    · rw [hfl] at hz
      rw [hz, List.take_zero, List.take_zero]
  cases ht : s.thread t with
  | idle => trivial
  | writing pc f =>
    rw [ht] at h
    exact h
  | reading pc f =>
    have hf := hsame pc f ht
    rw [ht] at h hf
    cases pc with
    | loadHead => exact h
    | loadOldtail => exact h
    | copy => exact Eq.trans h (congrArg some (congrArg (Op.take f.req) (hf rfl).symm))
    | casHead => exact Eq.trans h (congrArg some (congrArg (Op.take f.req) (hf rfl).symm))

/-- What the reader has taken is published. -/
theorem Refines.taken_le (h : Refines r x) :
    x.state.delivered.length + (x.state.thread r).inFlight ≤
      (x.state.accepted.take x.state.published).length := by
  have hcons := h.inv.consumed
  rw [List.length_take, Nat.min_eq_left h.inv.reserved]
  cases ht : x.state.thread r with
  | idle => exact hcons
  | writing pc f => exact hcons
  | reading pc f =>
    obtain ⟨-, hat⟩ := h.reader r pc f ht
    have hle := inFlight_le h.inv h.reader ht
    rw [ht] at hle
    cases pc with
    | loadHead => exact hcons
    | loadOldtail => exact hcons
    | copy =>
      rw [hat.1] at hle
      rcases hle with hle | hz
      · exact hle
      · rwa [hz]
    | casHead =>
      rw [hat.1] at hle
      rcases hle with hle | hz
      · exact hle
      · rwa [hz]

/-- The steps of one reader and any writers, as long as no stale head is lapped. -/
def ReadAlone (r : Tid) (s : Sys) (a : Act) : Prop := ManyToOne r s a ∧ NotLapped s a

/-- The invariants of the ring along a step. -/
theorem Refines.of_step (h : Refines r x) (hc : ReadAlone r x.state a)
    (hs : x.state.step a = some s') {q : List Byte} {ops : List (Op Byte)}
    {p : Tid → Option (Op Byte)}
    (hspec : q = (s'.accepted.take s'.published).drop
      (s'.delivered.length + (s'.thread r).inFlight))
    (hprom : ∀ t, Promised s' (p t) (s'.thread t)) : Refines r ⟨s', q, ops, p⟩ where
  inv := h.inv.step hc.2 (h.reader.notTurned a) hs
  reader := h.reader.step h.inv hc.1 hs
  written := h.written.step h.inv hs
  spec := hspec
  promise := hprom

theorem inFlight_update {th : Thread} (hth : s'.thread = Function.update s.thread t th)
    (hfl : th.inFlight = (s.thread t).inFlight) :
    (s'.thread r).inFlight = (s.thread r).inFlight := by
  rw [hth]
  by_cases he : r = t
  · rw [he, Function.update_self, hfl]
  · rw [Function.update_of_ne he]

/-- The stepping thread has a promise of its own, the others keep theirs. -/
theorem Refines.promise_update (h : Refines r x) (th : Thread) {p : Tid → Option (Op Byte)}
    (hth : s'.thread = Function.update x.state.thread t th)
    (ha : x.state.accepted <+: s'.accepted) (hp : ∀ u, u ≠ t → p u = x.promise u)
    (hnew : Promised s' (p t) th) (u : Tid) : Promised s' (p u) (s'.thread u) := by
  rw [hth]
  by_cases he : u = t
  · rw [he, Function.update_self]
    exact hnew
  · rw [Function.update_of_ne he, hp u he]
    exact (h.promise u).mono h.inv h.reader ha

/-- A step without effect on the queue. -/
theorem Refines.silent {th : Thread} (h : Refines r x) (hc : ReadAlone r x.state a)
    (hs : x.state.step a = some s') (he : effect x.state x.spec a = none)
    (hth : s'.thread = Function.update x.state.thread a.thread th)
    (hd : s'.delivered = x.state.delivered) (hpub : s'.published = x.state.published)
    (ha : x.state.accepted <+: s'.accepted)
    (hfl : th.inFlight = (x.state.thread a.thread).inFlight)
    (hnew : Promised s' (if a.begins then none else x.promise a.thread) th) :
    ∃ x', both.step x a = some x' ∧ x'.state = s' ∧ Refines r x' := by
  have hpre : s'.accepted.take s'.published = x.state.accepted.take x.state.published := by
    obtain ⟨more, hm⟩ := ha
    rw [← hm, hpub, List.take_append_of_le_length h.inv.reserved]
  refine ⟨_, observed_silent hs he, rfl, h.of_step hc hs ?_ ?_⟩
  · rw [hpre, hd, inFlight_update hth hfl, h.spec]
  · refine h.promise_update _ hth ha (fun u hu => ?_) ?_
    · change (if a.begins = true then Function.update x.promise a.thread none
        else x.promise) u = _
      split_ifs
      · exact Function.update_of_ne hu _ _
      · rfl
    · have hp : (if a.begins = true then Function.update x.promise a.thread none
          else x.promise) a.thread = if a.begins then none else x.promise a.thread := by
        split_ifs
        · exact Function.update_self _ _ _
        · rfl
      exact hp.symm ▸ hnew

/-- A step that takes effect on the queue. -/
theorem Refines.effective (th : Thread) {op : Op Byte} {q : List Byte} (h : Refines r x)
    (hc : ReadAlone r x.state a) (hs : x.state.step a = some s')
    (he : effect x.state x.spec a = some op) (hq : queue.step x.spec op = some q)
    (hth : s'.thread = Function.update x.state.thread a.thread th)
    (ha : x.state.accepted <+: s'.accepted)
    (hspec : q = (s'.accepted.take s'.published).drop
      (s'.delivered.length + (s'.thread r).inFlight))
    (hnew : Promised s' (some op) th) :
    ∃ x', both.step x a = some x' ∧ x'.state = s' ∧ Refines r x' := by
  refine ⟨_, observed_effect hs he hq, rfl, h.of_step hc hs hspec ?_⟩
  refine h.promise_update _ hth ha (fun u hu => Function.update_of_ne hu _ _) ?_
  exact (Function.update_self (f := x.promise) _ _).symm ▸ hnew

/-- Publishing appends the writer's bytes to what is published. -/
theorem published_append (hi : Inv s) (hw : WrittenOk s) {f : WriteFrame}
    (ht : s.thread t = .writing .casOldtail f) (hcas : s.ring.oldtail = f.tail) :
    s.accepted.take (s.published + f.len) =
      s.accepted.take s.published ++ f.input.take f.len := by
  have hs : s.step (.exec t) = some (s.stepWrite t .casOldtail f) := by simp [Sys.step, ht]
  have hafter := hw.step hi hs
  simp only [Sys.stepWrite, if_pos hcas] at hafter
  change (s.log ++ [Ret.wrote f f.len]).flatMap Ret.written =
    s.accepted.take (s.published + f.len) at hafter
  rw [← hafter, List.flatMap_append, List.flatMap_singleton, ← hw]
  rfl

theorem Refines.stepWrite (h : Refines r x) (hc : ReadAlone r x.state (.exec t))
    {pc : WritePc} {f : WriteFrame} (ht : x.state.thread t = .writing pc f) :
    ∃ x', both.step x (.exec t) = some x' ∧ x'.state = x.state.stepWrite t pc f ∧
      Refines r x' := by
  have hs : x.state.step (.exec t) = some (x.state.stepWrite t pc f) := by
    simp [Sys.step, ht]
  have hnone : x.promise t = none := by
    have hp := h.promise t
    rwa [ht] at hp
  have hi := h.inv
  have hok := hi.threads t
  rw [ht] at hok
  have hzero : (x.state.thread t).inFlight = 0 := by rw [ht]; rfl
  have hidle : ((x.state.setThread t .idle).thread r).inFlight = (x.state.thread r).inFlight :=
    inFlight_update rfl hzero.symm
  cases pc with
  | loadHead =>
    exact h.silent hc hs (by simp [effect, ht]) rfl rfl rfl List.prefix_rfl hzero.symm hnone
  | loadTail =>
    exact h.silent hc hs (by simp [effect, ht]) rfl rfl rfl List.prefix_rfl hzero.symm hnone
  | loadOldtail =>
    by_cases hz : min (writeSize f.head f.tail) f.len = 0
    · simp only [Sys.stepWrite, if_pos hz] at hs ⊢
      have he : effect x.state x.spec (.exec t) = some (.put f.input 0) := by
        simp only [effect, ht, if_pos hz]
      have hq : queue.step x.spec (.put f.input 0) = some (x.spec ++ f.input.take 0) :=
        fifo_put (Nat.zero_le _) (by
          rw [h.spec, List.length_drop, List.length_take]
          have := hi.room
          have := hi.reserved
          omega)
      refine h.effective .idle hc hs he hq rfl List.prefix_rfl ?_ trivial
      rw [List.take_zero, List.append_nil, h.spec]
      change _ = (x.state.accepted.take x.state.published).drop
        (x.state.delivered.length + ((x.state.setThread t .idle).thread r).inFlight)
      rw [hidle]
    · simp only [Sys.stepWrite, if_neg hz] at hs ⊢
      exact h.silent hc hs (by simp only [effect, ht, if_neg hz]) rfl rfl rfl List.prefix_rfl
        hzero.symm hnone
  | casTail =>
    by_cases hcas : x.state.ring.tail = f.tail
    · simp only [Sys.stepWrite, if_pos hcas] at hs ⊢
      exact h.silent hc hs (by simp [effect, ht]) rfl rfl rfl (List.prefix_append _ _)
        hzero.symm hnone
    · simp only [Sys.stepWrite, if_neg hcas] at hs ⊢
      exact h.silent hc hs (by simp [effect, ht]) rfl rfl rfl List.prefix_rfl hzero.symm hnone
  | copy k =>
    refine h.silent hc hs (by simp [effect, ht]) rfl rfl rfl List.prefix_rfl ?_ ?_
    · rw [show (Act.exec t).thread = t from rfl, hzero]
      split_ifs <;> rfl
    · change Promised _ (x.promise t) _
      split_ifs <;> exact hnone
  | casOldtail =>
    by_cases hcas : x.state.ring.oldtail = f.tail
    · have hr : Reserves x.state f f.len := hok
      have hp := published_eq hi ht hcas
      have happ := published_append hi h.written ht hcas
      have hlen : x.spec.length ≤ x.state.published - x.state.delivered.length := by
        rw [h.spec, List.length_drop, List.length_take]
        omega
      simp only [Sys.stepWrite, if_pos hcas] at hs ⊢
      have he : effect x.state x.spec (.exec t) = some (.put f.input f.len) := by
        simp only [effect, ht, if_pos hcas]
      have hq : queue.step x.spec (.put f.input f.len) = some (x.spec ++ f.input.take f.len) :=
        fifo_put hr.fits (by
          have := hi.room
          have := hi.consumed
          have := hr.accepted
          omega)
      refine h.effective .idle hc hs he hq rfl List.prefix_rfl ?_ trivial
      change _ = (x.state.accepted.take (x.state.published + f.len)).drop
        (x.state.delivered.length + ((x.state.setThread t .idle).thread r).inFlight)
      rw [hidle, happ, h.spec, List.drop_append_of_le_length h.taken_le]
    · have hstay : x.state.stepWrite t .casOldtail f = x.state := by
        simp only [Sys.stepWrite, if_neg hcas]
      rw [hstay] at hs ⊢
      exact h.silent hc hs (by simp only [effect, ht, if_neg hcas])
        (Function.update_eq_self t x.state.thread).symm rfl rfl List.prefix_rfl rfl
        (by rw [show (Act.exec t).thread = t from rfl, ht]; exact hnone)

/-- Asking a queue for more than it has is asking for all of it. -/
theorem take_drop_min {q : List Byte} {n : ℕ} :
    q.take n = q.take (min q.length n) ∧ q.drop n = q.drop (min q.length n) := by
  by_cases hle : n ≤ q.length
  · rw [Nat.min_eq_right hle]
    exact ⟨rfl, rfl⟩
  · rw [Nat.min_eq_left (by omega), List.take_length, List.drop_length,
      List.take_of_length_le (by omega), List.drop_eq_nil_of_le (by omega)]
    exact ⟨rfl, rfl⟩

theorem Refines.readLoadOldtail (h : Refines r x) (hc : ReadAlone r x.state (.exec t))
    {f : ReadFrame} (ht : x.state.thread t = .reading .loadOldtail f) :
    ∃ x', both.step x (.exec t) = some x' ∧ x'.state = x.state.stepRead t .loadOldtail f ∧
      Refines r x' := by
  have hs : x.state.step (.exec t) = some (x.state.stepRead t .loadOldtail f) := by
    simp [Sys.step, ht]
  have hi := h.inv
  have hcons := hi.consumed
  have hres := hi.reserved
  have hroom := hi.room
  obtain ⟨rfl, hreq, hcur⟩ := h.reader t _ f ht
  have hok := hi.threads t
  rw [ht] at hok
  have hseen : HeadSeen x.state f.head f.headAt := hok
  have hlen := spec_length h (by rw [ht]; rfl)
  have hspec := h.spec
  rw [ht, show (Thread.reading .loadOldtail f).inFlight = 0 from rfl, Nat.add_zero] at hspec
  -- the sizes computed from the loaded words are those of the queue
  have hsize : min (readSize f.head x.state.ring.oldtail) f.len = min x.spec.length f.req := by
    rw [hseen.image, hi.oldtail, readSize_mod (by omega) (by omega), hlen, hcur, hreq]
  obtain ⟨htake, hdrop⟩ := take_drop_min (q := x.spec) (n := f.req)
  have he : effect x.state x.spec (.exec t) = some (.take f.req (x.spec.take f.req)) := by
    simp only [effect, ht]
  have hq : queue.step x.spec (.take f.req (x.spec.take f.req)) = some (x.spec.drop f.req) :=
    fifo_take rfl
  have hafter : ∀ n, n = min x.spec.length f.req → x.spec.drop f.req =
      (x.state.accepted.take x.state.published).drop (x.state.delivered.length + n) := by
    rintro n rfl
    rw [hdrop, ← List.drop_drop, ← hspec]
  have hgot : x.spec.take f.req =
      (x.state.accepted.drop f.headAt).take (min x.spec.length f.req) := by
    have hle : min x.spec.length f.req ≤ x.state.published - x.state.delivered.length := by
      omega
    rw [htake]
    generalize min x.spec.length f.req = n at hle ⊢
    rw [hspec, hcur, List.drop_take, List.take_take, Nat.min_eq_left hle]
  by_cases hz : min (readSize f.head x.state.ring.oldtail) f.len = 0
  · simp only [Sys.stepRead, if_pos hz] at hs ⊢
    refine h.effective .idle hc hs he hq rfl List.prefix_rfl ?_ trivial
    rw [hsize] at hz
    rw [hafter 0 hz.symm]
    change _ = (x.state.accepted.take x.state.published).drop
      (x.state.delivered.length + ((x.state.setThread t .idle).thread t).inFlight)
    rw [setThread_self]
    rfl
  · simp only [Sys.stepRead, if_neg hz] at hs ⊢
    refine h.effective _ hc hs he hq rfl List.prefix_rfl ?_ ?_
    · rw [hafter _ hsize]
      change _ = (x.state.accepted.take x.state.published).drop
        (x.state.delivered.length + ((x.state.setThread t _).thread t).inFlight)
      rw [setThread_self]
      rfl
    · change some (Op.take f.req (x.spec.take f.req)) = some (Op.take f.req
        ((x.state.accepted.drop f.headAt).take (min (readSize f.head x.state.ring.oldtail) f.len)))
      rw [hsize, hgot]

theorem Refines.stepRead (h : Refines r x) (hc : ReadAlone r x.state (.exec t))
    {pc : ReadPc} {f : ReadFrame} (ht : x.state.thread t = .reading pc f) :
    ∃ x', both.step x (.exec t) = some x' ∧ x'.state = x.state.stepRead t pc f ∧
      Refines r x' := by
  have hs : x.state.step (.exec t) = some (x.state.stepRead t pc f) := by
    simp [Sys.step, ht]
  have hp := h.promise t
  obtain ⟨rfl, hat⟩ := h.reader t pc f ht
  have hok := h.inv.threads t
  rw [ht] at hp hok
  cases pc with
  | loadHead =>
    exact h.silent hc hs (by simp [effect, ht]) rfl rfl rfl List.prefix_rfl
      (by rw [show (Act.exec t).thread = t from rfl, ht]; rfl) hp
  | loadOldtail => exact h.readLoadOldtail hc ht
  | copy =>
    refine h.silent hc hs (by simp [effect, ht]) rfl rfl rfl List.prefix_rfl ?_ ?_
    · rw [show (Act.exec t).thread = t from rfl, ht]
      split_ifs <;> rfl
    · change Promised _ (x.promise t) _
      split_ifs <;> exact hp
  | casHead =>
    have hcas : x.state.ring.head = f.head := by
      rw [h.inv.head, hok.1.image, hat.1]
    simp only [Sys.stepRead, if_pos hcas] at hs ⊢
    refine ⟨_, observed_silent hs (by simp [instrument, effect, ht]), rfl, h.of_step hc hs ?_ ?_⟩
    · change _ = (x.state.accepted.take x.state.published).drop
        ((x.state.delivered ++ f.out).length + ((x.state.setThread t .idle).thread t).inFlight)
      rw [setThread_self, h.spec, ht, List.length_append, hok.2.1]
      rfl
    · exact h.promise_update .idle rfl List.prefix_rfl (fun _ _ => rfl) trivial

/-- The queue follows every step of the ring. -/
theorem Refines.step (h : Refines r x) (hc : ReadAlone r x.state a)
    (hs : machine.step x.state a = some s') :
    ∃ x', both.step x a = some x' ∧ x'.state = s' ∧ Refines r x' := by
  cases step_cases hs with
  | @write t input ht =>
    exact h.silent hc hs rfl rfl rfl rfl List.prefix_rfl
      (by rw [show (Act.write t input).thread = t from rfl, ht]; rfl) rfl
  | @read t len ht =>
    exact h.silent hc hs rfl rfl rfl rfl List.prefix_rfl
      (by rw [show (Act.read t len).thread = t from rfl, ht]; rfl) rfl
  | writing ht => exact h.stepWrite hc ht
  | reading ht => exact h.stepRead hc ht

theorem Refines.start (r : Tid) (content : ℕ → Byte) :
    Refines r ⟨Sys.start content, [], [], fun _ => none⟩ where
  inv := .start content
  reader := .start r content
  written := rfl
  spec := rfl
  promise := fun _ => trivial

/-- A read whose swap succeeds has copied what it took at its load of `oldtail`. -/
theorem out_eq (hi : Inv s) (hr : SoleReader r s) {f : ReadFrame}
    (ht : s.thread t = .reading .casHead f) :
    f.out = (s.accepted.drop f.headAt).take f.len := by
  obtain ⟨-, hat⟩ := hr t _ f ht
  have hok := hi.threads t
  rw [ht] at hok
  have hpre := List.prefix_iff_eq_take.mp (hok.2.2.2 hat.1).bytes
  rwa [hok.2.1] at hpre

/-- A read that returns nothing has found the queue empty, or asked for nothing. -/
theorem Refines.empty (h : Refines r x) {f : ReadFrame}
    (ht : x.state.thread t = .reading .loadOldtail f)
    (hz : min (readSize f.head x.state.ring.oldtail) f.len = 0) :
    x.spec.take f.req = [] := by
  have hcons := h.inv.consumed
  have hres := h.inv.reserved
  have hroom := h.inv.room
  obtain ⟨rfl, hreq, hcur⟩ := h.reader t _ f ht
  have hok := h.inv.threads t
  rw [ht] at hok
  have hseen : HeadSeen x.state f.head f.headAt := hok
  have hlen := spec_length h (by rw [ht]; rfl)
  rw [hseen.image, h.inv.oldtail, readSize_mod (by omega) (by omega), hcur, ← hlen, hreq] at hz
  rw [take_drop_min.1, hz, List.take_zero]

/-- A call that returns answers what the queue answered at its effect. -/
theorem Refines.returned (h : Refines r x) {x' : Observed Sys Tid (List Byte) (Op Byte)}
    {ret : Ret} (hret : Returns x.state t ret) (hs : both.step x (.exec t) = some x') :
    x'.promise t = some ret.op := by
  cases hret with
  | full ht hz =>
    exact promise_of_effect hs (by simp only [instrument, effect, ht, if_pos hz]; rfl)
  | wrote ht hcas =>
    exact promise_of_effect hs (by simp only [instrument, effect, ht, if_pos hcas]; rfl)
  | empty ht hz =>
    refine promise_of_effect hs ?_
    simp only [instrument, effect, ht, h.empty ht hz]
    rfl
  | got ht hcas =>
    have hp := h.promise t
    have hsame := promise_of_silent hs (by simp [instrument, effect, ht]) rfl
    rw [ht] at hp
    rw [hsame]
    refine Eq.trans hp ?_
    rw [← out_eq h.inv h.reader ht]
    rfl

theorem Refines.linearized (h : Refines r x) :
    Linearized machine queue instrument (ReadAlone r) x where
  follows := fun a s' hc hs => by
    obtain ⟨x', hx, he, -⟩ := h.step hc hs
    exact ⟨x', hx, he⟩
  once := by
    intro a s' op _ _ he
    have hp := h.promise a.thread
    cases a with
    | write t input => cases he
    | read t len => cases he
    | exec t =>
      simp only [instrument, effect] at he
      split at he
      · next ht =>
        rw [show (Act.exec t).thread = t from rfl, ht] at hp
        exact hp
      · next ht =>
        rw [show (Act.exec t).thread = t from rfl, ht] at hp
        exact hp
      · next ht =>
        rw [show (Act.exec t).thread = t from rfl, ht] at hp
        exact hp
      · cases he
  answers := by
    intro a x' hc hs
    rcases step_logs (state_of_observed hs) with hl | ⟨t, ret, rfl, hret, hl⟩
    · left
      change x'.state.log.map Ret.op = x.state.log.map Ret.op
      rw [hl.log, List.append_nil]
    · refine .inr ⟨ret.op, h.returned hret hs, ?_⟩
      change x'.state.log.map Ret.op = x.state.log.map Ret.op ++ [ret.op]
      rw [hl.log, List.map_append]
      rfl

theorem Refines.of_reachable (h : both.Reachable (Beside (ReadAlone r)) x) : Refines r x := by
  refine h.invariant (P := Refines r) ?_ ?_
  · rintro ⟨s, q, ops, p⟩ ⟨⟨content, rfl⟩, rfl, rfl, rfl⟩
    exact .start r content
  · intro y a y' hy hc hs
    obtain ⟨z, hz, -, href⟩ := hy.step hc (state_of_observed hs)
    rw [hs] at hz
    cases hz
    exact href

/-- With one reader and any number of writers, as long as no stale head is lapped, the ring
is linearizable to a queue of `shmDataSize - 1` bytes: beside every run runs the queue, and
in all states of such a run the operations so far are a history of the queue, every call
takes effect at one instruction of its own and returns what the queue answered there. What
the queue accepts of a `put` is left open: reservations that are not published yet count. -/
theorem linearizable {r : Tid} {s : Sys} (h : machine.Reachable (ReadAlone r) s) :
    (∃ x, both.Reachable (Beside (ReadAlone r)) x ∧ x.state = s) ∧
    ∀ x, both.Reachable (Beside (ReadAlone r)) x →
      queue.run [] x.history = some x.spec ∧
      Linearized machine queue instrument (ReadAlone r) x := by
  constructor
  · obtain ⟨x, hx, he, -⟩ := h.observed (P := Refines r)
      (by
        rintro s ⟨content, rfl⟩
        exact ⟨⟨Sys.start content, [], [], fun _ => none⟩, ⟨⟨content, rfl⟩, rfl, rfl, rfl⟩, rfl,
          .start r content⟩)
      fun _ _ _ hp hc hs => hp.step hc hs
    exact ⟨x, hx, he⟩
  · intro x hx
    obtain ⟨q₀, rfl, hrun⟩ := hx.history_legal
    exact ⟨hrun, (Refines.of_reachable hx).linearized⟩

instance (r : Tid) (s : Sys) (a : Act) : Decidable (ReadAlone r s a) := by
  unfold ReadAlone
  infer_instance

/-- The second writer returns after a read that began and ended during its call. -/
theorem linearizable_twoWriters : ∃ x, x.state.log.length = 3 ∧
    x.state.returned = [1, 2] ∧ queue.run [] x.history = some x.spec ∧
    Linearized machine queue instrument (ReadAlone 1) x := by
  obtain ⟨s, hr, hs⟩ := reachable_of_guarded (M := machine) (C := ReadAlone 1)
    (fun _ _ => of_decide_eq_true)
    (l := twoReservations ++ schedule [(.exec 0, 1), (.read 1 3, 5), (.exec 2, 0)])
    (P := fun s => decide (s.log.length = 3 ∧ s.returned = [1, 2])) (s := .start fun _ => 0)
    ⟨_, rfl⟩ (by decide +kernel)
  obtain ⟨hlog, hreturned⟩ := of_decide_eq_true hs
  obtain ⟨⟨x, hx, rfl⟩, hall⟩ := linearizable hr
  exact ⟨x, hlog, hreturned, hall x hx⟩

end ShmSocket.RingBuffer
