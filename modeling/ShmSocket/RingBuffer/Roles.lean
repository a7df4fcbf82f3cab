import ShmSocket.RingBuffer.Preservation

/-! What a sole reader or a sole writer adds to the invariant: its copies of the
header words stay current, and its call computes its count from exact values. -/
namespace ShmSocket.RingBuffer
variable {s s' : Sys} {t r w : Tid} {a : Act}

/-- The header words of an `rb_write` attempt are wrapped stream positions less than
one turn apart, and `len` is what fits between them. -/
structure WriteFrame.Exact (f : WriteFrame) : Prop where
  head : f.head = f.headAt % shmDataSize
  tail : f.tail = f.tailAt % shmDataSize
  le : f.headAt ≤ f.tailAt
  lt : f.tailAt < f.headAt + shmDataSize
  len : f.len = min f.input.length (shmDataSize - 1 - (f.tailAt - f.headAt))

/-- The header words of an `rb_read` attempt are wrapped stream positions less than
one turn apart, and `len` is what lies between them. -/
structure ReadFrame.Exact (f : ReadFrame) : Prop where
  head : f.head = f.headAt % shmDataSize
  tail : f.tail = f.tailAt % shmDataSize
  le : f.headAt ≤ f.tailAt
  lt : f.tailAt < f.headAt + shmDataSize
  len : f.len = min f.req (f.tailAt - f.headAt)

def ReaderAt (s : Sys) : ReadPc → ReadFrame → Prop
  | .loadHead, f => f.len = f.req
  | .loadOldtail, f => f.len = f.req ∧ f.headAt = s.delivered.length
  | .copy, f | .casHead, f => f.headAt = s.delivered.length ∧ f.Exact

/-- Only `r` reads, and its call holds the current head. -/
def SoleReader (r : Tid) (s : Sys) : Prop :=
  ∀ t pc f, s.thread t = .reading pc f → t = r ∧ ReaderAt s pc f

def WriterAt (s : Sys) : Thread → Prop
  | .writing .loadHead f => s.published = s.accepted.length ∧ f.len = f.input.length
  | .writing .loadTail f => s.published = s.accepted.length ∧ f.len = f.input.length ∧
      s.accepted.length < f.headAt + shmDataSize
  | .writing .loadOldtail f => s.published = s.accepted.length ∧ f.len = f.input.length ∧
      s.accepted.length < f.headAt + shmDataSize ∧ f.tailAt = s.accepted.length ∧
      f.tail = f.tailAt % shmDataSize
  | .writing .casTail f => s.published = s.accepted.length ∧ f.tailAt = s.accepted.length ∧
      f.Exact
  | .writing (.copy _) f | .writing .casOldtail f => s.published = f.tailAt ∧
      s.accepted.length = f.tailAt + f.len ∧ f.Exact
  | _ => s.published = s.accepted.length

/-- Only `w` writes, and no write is published out of turn. -/
def SoleWriter (w : Tid) (s : Sys) : Prop :=
  (∀ t pc f, s.thread t = .writing pc f → t = w) ∧ WriterAt s (s.thread w)

theorem SoleReader.notTurned (h : SoleReader r s) (a : Act) : NotTurned s a := by
  cases a with
  | write t input => trivial
  | read t len => trivial
  | exec t =>
    intro f ht _
    have hcur : f.headAt = s.delivered.length := (h t _ f ht).2.1
    have hpos := shmDataSize_pos
    omega

theorem SoleWriter.notLapped (h : SoleWriter w s) (a : Act) : NotLapped s a := by
  cases a with
  | write t input => trivial
  | read t len => trivial
  | exec t =>
    intro f ht _
    obtain rfl := h.1 t _ f ht
    have hw := h.2
    rw [ht] at hw
    obtain ⟨_, hat, hexact⟩ := hw
    have := hexact.lt
    omega

/-- A thread steps in a way that changes neither the head nor the other threads. -/
theorem SoleReader.of_step (h : SoleReader r s) {th : Thread}
    (hth : s'.thread = Function.update s.thread t th) (hd : s'.delivered = s.delivered)
    (hnew : ∀ pc f, th = .reading pc f → t = r ∧ ReaderAt s' pc f) : SoleReader r s' := by
  intro u pc f hu
  rw [hth] at hu
  by_cases he : u = t
  · rw [he, Function.update_self] at hu
    rw [he]
    exact hnew pc f hu
  · rw [Function.update_of_ne he] at hu
    obtain ⟨hr, hat⟩ := h u pc f hu
    refine ⟨hr, ?_⟩
    cases pc <;> simpa only [ReaderAt, hd] using hat

/-- `rb_write` keeps the head and starts no read. -/
theorem stepWrite_thread (s : Sys) (t : Tid) (pc : WritePc) (f : WriteFrame)
    (ht : s.thread t = .writing pc f) :
    ∃ th, (s.stepWrite t pc f).thread = Function.update s.thread t th ∧
      (∀ pc' f', th ≠ .reading pc' f') ∧ (s.stepWrite t pc f).delivered = s.delivered := by
  cases pc with
  | loadHead => exact ⟨_, rfl, by simp, rfl⟩
  | loadTail => exact ⟨_, rfl, by simp, rfl⟩
  | loadOldtail =>
    simp only [Sys.stepWrite]
    split_ifs
    · exact ⟨_, rfl, by simp, rfl⟩
    · exact ⟨_, rfl, by simp, rfl⟩
  | casTail =>
    simp only [Sys.stepWrite]
    split_ifs
    · exact ⟨_, rfl, by simp, rfl⟩
    · exact ⟨_, rfl, by simp, rfl⟩
  | copy k =>
    refine ⟨_, rfl, ?_, rfl⟩
    split_ifs <;> simp
  | casOldtail =>
    simp only [Sys.stepWrite]
    split_ifs
    · exact ⟨_, rfl, by simp, rfl⟩
    · refine ⟨.writing .casOldtail f, ?_, by simp, rfl⟩
      rw [← ht, Function.update_eq_self]

/-- `rb_read` keeps what is reserved and published and starts no write. -/
theorem stepRead_thread (s : Sys) (t : Tid) (pc : ReadPc) (f : ReadFrame) :
    ∃ th, (s.stepRead t pc f).thread = Function.update s.thread t th ∧
      (∀ pc' f', th ≠ .writing pc' f') ∧ (s.stepRead t pc f).accepted = s.accepted ∧
      (s.stepRead t pc f).published = s.published := by
  cases pc with
  | loadHead => exact ⟨_, rfl, by simp, rfl, rfl⟩
  | loadOldtail =>
    simp only [Sys.stepRead]
    split_ifs <;> exact ⟨_, rfl, by simp, rfl, rfl⟩
  | copy =>
    refine ⟨_, rfl, ?_, rfl, rfl⟩
    split_ifs <;> simp
  | casHead =>
    simp only [Sys.stepRead]
    split_ifs <;> exact ⟨_, rfl, by simp, rfl, rfl⟩

/-- The words a sole reader has loaded after `oldtail`. -/
theorem read_exact (hi : Inv s) {f : ReadFrame} (hseen : HeadSeen s f.head f.headAt)
    (hcur : f.headAt = s.delivered.length) (hreq : f.len = f.req) :
    ReadFrame.Exact { f with
      tail := s.ring.oldtail
      tailAt := s.published
      len := min (readSize f.head s.ring.oldtail) f.len
      out := [] } := by
  have hcons := hi.consumed
  have hres := hi.reserved
  have hroom := hi.room
  refine ⟨hseen.image, hi.oldtail, ?_, ?_, ?_⟩
  · change f.headAt ≤ s.published
    omega
  · change s.published < f.headAt + shmDataSize
    omega
  · change min (readSize f.head s.ring.oldtail) f.len = min f.req (s.published - f.headAt)
    rw [hseen.image, hi.oldtail, readSize_mod (by omega) (by omega), hreq, Nat.min_comm]

theorem SoleReader.stepRead (hi : Inv s) (h : SoleReader r s) {pc : ReadPc} {f : ReadFrame}
    (ht : s.thread t = .reading pc f) : SoleReader r (s.stepRead t pc f) := by
  obtain ⟨rfl, hat⟩ := h t pc f ht
  have hok : ThreadOk s (s.thread t) := hi.threads t
  rw [ht] at hok
  cases pc with
  | loadHead =>
    refine h.of_step rfl rfl ?_
    rintro _ _ ⟨⟩
    exact ⟨rfl, hat, rfl⟩
  | loadOldtail =>
    simp only [Sys.stepRead]
    split_ifs with hz
    · exact h.of_step rfl rfl (by simp)
    · refine h.of_step rfl rfl ?_
      rintro _ _ ⟨⟩
      exact ⟨rfl, hat.2, read_exact hi hok hat.2 hat.1⟩
  | copy =>
    refine h.of_step rfl rfl ?_
    intro pc' f' he
    split_ifs at he <;> cases he <;>
      exact ⟨rfl, hat.1, hat.2.head, hat.2.tail, hat.2.le, hat.2.lt, hat.2.len⟩
  | casHead =>
    have hcas : s.ring.head = f.head := by rw [hi.head, hok.1.image, hat.1]
    simp only [Sys.stepRead, if_pos hcas]
    -- the only reader has returned, so no call holds a head
    intro u pc' f' hu
    change Function.update s.thread t .idle u = .reading pc' f' at hu
    by_cases he : u = t
    · rw [he, Function.update_self] at hu
      cases hu
    · rw [Function.update_of_ne he] at hu
      exact absurd (h u pc' f' hu).1 he

theorem SoleReader.step (hi : Inv s) (h : SoleReader r s) (ho : OneReader r a)
    (hs : s.step a = some s') : SoleReader r s' := by
  cases step_cases hs with
  | write => exact h.of_step rfl rfl (by simp)
  | read =>
    refine h.of_step rfl rfl ?_
    rintro _ _ ⟨⟩
    exact ⟨ho, rfl⟩
  | @writing t pc f ht =>
    obtain ⟨th, hth, hnot, hd⟩ := stepWrite_thread s t pc f ht
    exact h.of_step hth hd fun pc' f' he => absurd he (hnot pc' f')
  | reading ht => exact h.stepRead hi ht

theorem SoleReader.start (r : Tid) (content : ℕ → Byte) : SoleReader r (Sys.start content) := by
  rintro _ _ _ ⟨⟩

/-- Between two calls, and until the reservation, everything reserved is published. -/
theorem WriterAt.of_eq {th th' : Thread} (h : WriterAt s th)
    (hspan : ∀ pc f, th = .writing pc f → pc = .loadHead)
    (hnot : ∀ pc f, th' ≠ .writing pc f) (ha : s'.accepted = s.accepted)
    (hp : s'.published = s.published) : WriterAt s' th' := by
  have heq : s.published = s.accepted.length := by
    cases th with
    | idle => exact h
    | reading pc f => exact h
    | writing pc f =>
      obtain rfl := hspan pc f rfl
      exact h.1
  cases th' with
  | idle => exact (by rw [hp, ha]; exact heq : s'.published = s'.accepted.length)
  | reading pc f => exact (by rw [hp, ha]; exact heq : s'.published = s'.accepted.length)
  | writing pc f => exact absurd rfl (hnot pc f)

theorem WriterAt.congr {th : Thread} (h : WriterAt s th) (ha : s'.accepted = s.accepted)
    (hp : s'.published = s.published) : WriterAt s' th := by
  cases th with
  | idle => simpa only [WriterAt, ha, hp] using h
  | reading pc f => simpa only [WriterAt, ha, hp] using h
  | writing pc f => cases pc <;> simpa only [WriterAt, ha, hp] using h

/-- The writer itself steps. -/
theorem SoleWriter.of_step (h : SoleWriter w s) {th : Thread}
    (hth : s'.thread = Function.update s.thread w th) (hat : WriterAt s' th) :
    SoleWriter w s' := by
  constructor
  · intro u pc f hu
    rw [hth] at hu
    by_cases he : u = w
    · exact he
    · rw [Function.update_of_ne he] at hu
      exact h.1 u pc f hu
  · rw [hth, Function.update_self]
    exact hat

/-- A thread that neither writes before nor after its step leaves the writer alone. -/
theorem SoleWriter.of_other (h : SoleWriter w s) {th : Thread}
    (hth : s'.thread = Function.update s.thread t th)
    (hold : ∀ pc f, s.thread t ≠ .writing pc f) (hnew : ∀ pc f, th ≠ .writing pc f)
    (ha : s'.accepted = s.accepted) (hp : s'.published = s.published) : SoleWriter w s' := by
  constructor
  · intro u pc f hu
    rw [hth] at hu
    by_cases he : u = t
    · rw [he, Function.update_self] at hu
      exact absurd hu (hnew pc f)
    · rw [Function.update_of_ne he] at hu
      exact h.1 u pc f hu
  · rw [hth]
    by_cases he : w = t
    · rw [he, Function.update_self]
      have hw := h.2
      rw [he] at hw
      exact hw.of_eq (fun pc f hf => absurd hf (hold pc f)) hnew ha hp
    · rw [Function.update_of_ne he]
      exact h.2.congr ha hp

/-- The words a sole writer has loaded when it computes its length. -/
theorem write_exact (hi : Inv s) {f : WriteFrame} (hseen : HeadSeen s f.head f.headAt)
    (hlen : f.len = f.input.length) (hlap : s.accepted.length < f.headAt + shmDataSize)
    (hat : f.tailAt = s.accepted.length) (htail : f.tail = f.tailAt % shmDataSize) :
    WriteFrame.Exact { f with
      oldTail := s.ring.oldtail
      len := min (writeSize f.head f.tail) f.len } := by
  have hle := hseen.le
  have hcons := hi.consumed
  have hres := hi.reserved
  refine ⟨hseen.image, htail, ?_, ?_, ?_⟩
  · change f.headAt ≤ f.tailAt
    omega
  · change f.tailAt < f.headAt + shmDataSize
    omega
  · change min (writeSize f.head f.tail) f.len =
      min f.input.length (shmDataSize - 1 - (f.tailAt - f.headAt))
    rw [hseen.image, htail, writeSize_mod (by omega) (by omega), hlen, Nat.min_comm]

theorem SoleWriter.stepWrite (hi : Inv s) (h : SoleWriter w s) {pc : WritePc} {f : WriteFrame}
    (ht : s.thread w = .writing pc f) : SoleWriter w (s.stepWrite w pc f) := by
  have hat := h.2
  have hok : ThreadOk s (s.thread w) := hi.threads w
  rw [ht] at hat hok
  cases pc with
  | loadHead => exact h.of_step rfl ⟨hat.1, hat.2, hi.room⟩
  | loadTail => exact h.of_step rfl ⟨hat.1, hat.2.1, hat.2.2, rfl, hi.tail⟩
  | loadOldtail =>
    obtain ⟨hpub, hlen, hlap, htl, himg⟩ := hat
    simp only [Sys.stepWrite]
    split_ifs with hz
    · exact h.of_step rfl hpub
    · exact h.of_step rfl ⟨hpub, htl, write_exact hi hok.2 hlen hlap htl himg⟩
  | casTail =>
    obtain ⟨hpub, htl, hexact⟩ := hat
    have hcas : s.ring.tail = f.tail := by rw [hi.tail, hexact.tail, htl]
    have htake : (f.input.take f.len).length = f.len := by
      rw [List.length_take, Nat.min_eq_left hok.1]
    simp only [Sys.stepWrite, if_pos hcas]
    refine h.of_step rfl ⟨hpub, ?_, hexact.head, ?_, ?_, ?_, ?_⟩
    · change (s.accepted ++ f.input.take f.len).length = s.accepted.length + f.len
      rw [List.length_append, htake]
    · exact htl ▸ hexact.tail
    · exact htl ▸ hexact.le
    · exact htl ▸ hexact.lt
    · exact htl ▸ hexact.len
  | copy k =>
    refine h.of_step rfl ?_
    split_ifs <;> exact hat
  | casOldtail =>
    have hcas : s.ring.oldtail = f.tail := by rw [hi.oldtail, hat.1, hat.2.2.tail]
    simp only [Sys.stepWrite, if_pos hcas]
    refine h.of_step rfl ?_
    change s.published + f.len = s.accepted.length
    rw [hat.1, hat.2.1]

theorem SoleWriter.step (hi : Inv s) (h : SoleWriter w s) (ho : OneWriter w a)
    (hs : s.step a = some s') : SoleWriter w s' := by
  cases step_cases hs with
  | @write t input hidle =>
    obtain rfl : t = w := ho
    have hat := h.2
    rw [hidle] at hat
    exact h.of_step rfl ⟨hat, rfl⟩
  | read hidle => exact h.of_other rfl (by simp [hidle]) (by simp) rfl rfl
  | @writing t pc f ht =>
    obtain rfl := h.1 t pc f ht
    exact h.stepWrite hi ht
  | @reading t pc f ht =>
    obtain ⟨th, hth, hnot, ha, hp⟩ := stepRead_thread s t pc f
    exact h.of_other hth (by simp [ht]) hnot ha hp

theorem SoleWriter.start (w : Tid) (content : ℕ → Byte) : SoleWriter w (Sys.start content) :=
  ⟨by rintro _ _ _ ⟨⟩, rfl⟩

end ShmSocket.RingBuffer
