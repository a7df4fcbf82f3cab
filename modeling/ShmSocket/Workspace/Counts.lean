import ShmSocket.Workspace.RingBuffer

/-! The counts that `read` and `write` of `workspace/io.cpp`'s ring return. Every call is
recorded with its argument and with the state in which it loaded the word that bounds its
count, `head` for a write and `tail` for a read. -/
namespace ShmSocket.IoRing
open StepMachine CircularWindow

/-- `return len`, for `read` with the bytes it has copied. -/
inductive Ret where
  | wrote (n : ℕ)
  | got (n : ℕ) (output : List Byte)

/-- What a step makes a call return. -/
def Sys.returns (s : Sys) : Act → Option Ret
  | .stepWriter =>
      match s.writer with
      | .loadTail f => if min (writeSize f.head s.tail) f.len = 0 then some (.wrote 0) else none
      | .copy k f => if k + 1 < f.len then none else some (.wrote f.len)
      | _ => none
  | .stepReader =>
      match s.reader with
      | .loadTail f => if min (readSize f.head s.tail) f.len = 0 then some (.got 0 []) else none
      | .casHead f => if s.head = f.head then some (.got f.len f.out) else none
      | _ => none
  | _ => none

/-- A call that has returned, with the state in which it loaded the other one's word. -/
inductive Finished where
  | write (input : List Byte) (loaded : Sys) (n : ℕ)
  | read (len : ℕ) (loaded : Sys) (n : ℕ) (output : List Byte)

namespace Finished

/-- The count is that of the queue when the word was loaded. -/
def Right : Finished → Prop
  | write input s n =>
      n = min input.length (shmDataSize - 1 - (s.accepted.length - s.delivered.length))
  | read len s n output =>
      n = min len (s.accepted.length - s.delivered.length) ∧ output.length = n

def input : Finished → Option (List Byte)
  | write input _ _ => some input
  | read .. => none

def asked : Finished → Option ℕ
  | write .. => none
  | read len _ _ _ => some len

/-- The bytes that a write has put into the queue. -/
def put : Finished → List Byte
  | write input _ n => input.take n
  | read .. => []

/-- The bytes that a read has taken from it. -/
def output : Finished → List Byte
  | write .. => []
  | read _ _ _ output => output

end Finished

/-- The arguments of the calls so far, the states of the last loads, and the calls that have
returned. -/
structure Recorded where
  sys : Sys
  writes : List (List Byte)
  reads : List ℕ
  writeLoad : Sys
  readLoad : Sys
  finished : List Finished

namespace Recorded

/-- What a call has been called with and when it loads. -/
def record (x : Recorded) : Act → Recorded
  | .write input => { x with writes := x.writes ++ [input] }
  | .read len => { x with reads := x.reads ++ [len] }
  | .stepWriter =>
      match x.sys.writer with
      | .loadHead _ => { x with writeLoad := x.sys }
      | _ => x
  | .stepReader =>
      match x.sys.reader with
      | .loadTail _ => { x with readLoad := x.sys }
      | _ => x

/-- The call in progress returns. -/
def finish (x : Recorded) : Ret → Finished
  | .wrote n => .write (x.writes.getLastD []) x.writeLoad n
  | .got n output => .read (x.reads.getLastD 0) x.readLoad n output

def step (x : Recorded) (a : Act) : Option Recorded :=
  (x.sys.step a).map fun sys =>
    { x.record a with
      sys
      finished := x.finished ++ ((x.sys.returns a).map (x.record a).finish).toList }

end Recorded

def recorded (content : ℕ → Byte) : StepMachine Recorded Act where
  init x := x.sys = Sys.start content ∧ x.writes = [] ∧ x.reads = [] ∧ x.finished = []
  step := Recorded.step

/-- The argument of a write in progress. -/
def Writer.input : Writer → List (List Byte)
  | idle => []
  | loadHead f | loadTail f | casTail f | copy _ f => [f.input]

/-- The bytes that a write has reserved and not yet all stored. -/
def Writer.reserved : Writer → List Byte
  | copy _ f => f.input.take f.len
  | _ => []

/-- The argument of a read in progress, which is the last one. -/
def Reader.asked (last : ℕ) : Reader → List ℕ
  | idle => []
  | _ => [last]

/-- Every call has returned or is in progress, in the order of the calls, with the counts of
a queue: a write appends the front of its buffer that fits, a read removes the front bytes up
to the length it asks for. -/
structure Counts (x : Recorded) : Prop where
  right : ∀ r ∈ x.finished, r.Right
  writes : x.writes = x.finished.filterMap Finished.input ++ x.sys.writer.input
  reads : x.reads = x.finished.filterMap Finished.asked ++ x.sys.reader.asked (x.reads.getLastD 0)
  accepted : x.sys.accepted = x.finished.flatMap Finished.put ++ x.sys.writer.reserved
  delivered : x.sys.delivered = x.finished.flatMap Finished.output

/-- What bounds the length of a write, with the state in which it loaded `head`. -/
def WriterCounted (content : ℕ → Byte) (s loaded : Sys) : Writer → Prop
  | .idle => True
  | .loadHead f => f.len = f.input.length
  | .loadTail f => f.len = f.input.length ∧ f.head = loaded.head ∧ Inv content loaded ∧
      s.accepted = loaded.accepted
  | .casTail f | .copy _ f => f.len =
      min f.input.length (shmDataSize - 1 - (loaded.accepted.length - loaded.delivered.length))

/-- What bounds the length of a read that has been asked for `last` bytes. -/
def ReaderCounted (last : ℕ) (loaded : Sys) : Reader → Prop
  | .idle => True
  | .loadHead f | .loadTail f => f.len = last
  | .copy f | .casHead f => f.len = min last (loaded.accepted.length - loaded.delivered.length)

structure Counted (content : ℕ → Byte) (x : Recorded) : Prop where
  inv : Inv content x.sys
  counts : Counts x
  writer : WriterCounted content x.sys x.writeLoad x.sys.writer
  reader : ReaderCounted (x.reads.getLastD 0) x.readLoad x.sys.reader

variable {content : ℕ → Byte} {x x' : Recorded} {s s' : Sys} {a : Act}

/-- The steps of the reader leave the writer and what it has put in alone. -/
theorem stepReader_keeps (hs : s.stepReader s.reader = some s') :
    s'.writer = s.writer ∧ s'.accepted = s.accepted := by
  cases hr : s.reader with
  | idle =>
    rw [hr] at hs
    cases hs
  | loadHead f | loadTail f | copy f =>
    rw [hr] at hs
    cases hs
    exact ⟨rfl, rfl⟩
  | casHead f =>
    rw [hr] at hs
    simp only [Sys.stepReader, Option.some.injEq] at hs
    subst hs
    split_ifs <;> exact ⟨rfl, rfl⟩

/-- The size of a queue found by the loads of `read`. -/
theorem Inv.readSize (h : Inv content s) :
    IoRing.readSize s.head s.tail = s.accepted.length - s.delivered.length := by
  rw [h.head, h.tail]
  exact distance_eq h.consumed h.room

/-- The room found by the loads of `write`: nothing has been put in between them. -/
theorem Inv.writeSize (h : Inv content s) {loaded : Sys} (hl : Inv content loaded)
    (hsame : s.accepted = loaded.accepted) : IoRing.writeSize loaded.head s.tail =
      shmDataSize - 1 - (loaded.accepted.length - loaded.delivered.length) := by
  rw [hl.head, h.tail, hsame]
  exact room_eq hl.consumed hl.room

theorem WriterCounted.congr {loaded : Sys} {w : Writer} (h : WriterCounted content s loaded w)
    (haccepted : s'.accepted = s.accepted) : WriterCounted content s' loaded w := by
  cases w with
  | loadTail f => exact ⟨h.1, h.2.1, h.2.2.1, haccepted.trans h.2.2.2⟩
  | idle | loadHead f | casTail f | copy k f => exact h

namespace Counted

theorem start (h : (recorded content).init x) : Counted content x := by
  obtain ⟨hsys, hwrites, hreads, hfinished⟩ := h
  refine ⟨hsys ▸ .start, ⟨?_, ?_, ?_, ?_, ?_⟩, ?_, ?_⟩
  · rw [hfinished]
    exact fun r hr => absurd hr List.not_mem_nil
  · rw [hwrites, hfinished, hsys]
    rfl
  · rw [hreads, hfinished, hsys]
    rfl
  · rw [hfinished, hsys]
    rfl
  · rw [hfinished, hsys]
    rfl
  · rw [hsys]
    trivial
  · rw [hsys]
    trivial

/-- A step of the writer that returns nothing. -/
theorem writerGoes {w : Writer} {loaded s' : Sys} (h : Counted content x) (hi : Inv content s')
    (hreader : s'.reader = x.sys.reader) (hdelivered : s'.delivered = x.sys.delivered)
    (hwriter : s'.writer = w) (hw : WriterCounted content s' loaded w)
    (hinput : w.input = x.sys.writer.input)
    (haccepted : s'.accepted = x.finished.flatMap Finished.put ++ w.reserved) :
    Counted content { x with sys := s', writeLoad := loaded } := by
  obtain ⟨hright, hwrites, hreads, -, hout⟩ := h.counts
  refine ⟨hi, ⟨hright, ?_, ?_, ?_, hdelivered.trans hout⟩, hwriter ▸ hw, hreader ▸ h.reader⟩
  · rw [hwrites, ← hinput, ← hwriter]
  · rw [hreader]
    exact hreads
  · rw [hwriter]
    exact haccepted

/-- A step with which `write` returns. -/
theorem writerReturns {n : ℕ} {f : WriteFrame} (h : Counted content x) (hi : Inv content s')
    (hreader : s'.reader = x.sys.reader) (hdelivered : s'.delivered = x.sys.delivered)
    (hwriter : s'.writer = .idle) (hinput : x.sys.writer.input = [f.input])
    (hn : n = min f.input.length (shmDataSize - 1 -
      (x.writeLoad.accepted.length - x.writeLoad.delivered.length)))
    (haccepted : s'.accepted = x.finished.flatMap Finished.put ++ f.input.take n) :
    Counted content { x with
      sys := s'
      finished := x.finished ++ [.write (x.writes.getLastD []) x.writeLoad n] } := by
  obtain ⟨hright, hwrites, hreads, -, hout⟩ := h.counts
  rw [hinput] at hwrites
  have hlast : x.writes.getLastD [] = f.input := by
    rw [hwrites, List.getLastD_concat]
  rw [hlast]
  refine ⟨hi, ⟨?_, ?_, ?_, ?_, ?_⟩, ?_, hreader ▸ h.reader⟩
  · exact List.forall_mem_append.mpr ⟨hright, List.forall_mem_singleton.mpr hn⟩
  · rw [hwriter]
    refine hwrites.trans ?_
    simp [Finished.input, Writer.input]
  · rw [hreader]
    refine hreads.trans ?_
    simp [Finished.asked]
  · rw [hwriter, haccepted]
    simp [Finished.put, Writer.reserved]
  · rw [hdelivered, hout]
    simp [Finished.output]
  · rw [hwriter]
    trivial

/-- A step of the reader that returns nothing. -/
theorem readerGoes {r : Reader} {loaded s' : Sys} (h : Counted content x) (hi : Inv content s')
    (hwriter : s'.writer = x.sys.writer) (haccepted : s'.accepted = x.sys.accepted)
    (hdelivered : s'.delivered = x.sys.delivered) (hreader : s'.reader = r)
    (hr : ReaderCounted (x.reads.getLastD 0) loaded r)
    (hasked : ∀ last, r.asked last = x.sys.reader.asked last) :
    Counted content { x with sys := s', readLoad := loaded } := by
  obtain ⟨hright, hwrites, hreads, hput, hout⟩ := h.counts
  refine ⟨hi, ⟨hright, ?_, ?_, ?_, hdelivered.trans hout⟩, ?_, hreader ▸ hr⟩
  · rw [hwriter]
    exact hwrites
  · rw [hreader, hasked]
    exact hreads
  · rw [hwriter, haccepted]
    exact hput
  · rw [hwriter]
    exact h.writer.congr haccepted

/-- A step with which `read` returns. -/
theorem readerReturns {n : ℕ} {out : List Byte} {loaded s' : Sys} (h : Counted content x)
    (hi : Inv content s') (hwriter : s'.writer = x.sys.writer)
    (haccepted : s'.accepted = x.sys.accepted) (hreader : s'.reader = .idle)
    (hasked : ∀ last, x.sys.reader.asked last = [last])
    (hn : n = min (x.reads.getLastD 0) (loaded.accepted.length - loaded.delivered.length))
    (hlen : out.length = n) (hdelivered : s'.delivered = x.sys.delivered ++ out) :
    Counted content { x with
      sys := s', readLoad := loaded
      finished := x.finished ++ [.read (x.reads.getLastD 0) loaded n out] } := by
  obtain ⟨hright, hwrites, hreads, hput, hout⟩ := h.counts
  rw [hasked] at hreads
  refine ⟨hi, ⟨?_, ?_, ?_, ?_, ?_⟩, ?_, ?_⟩
  · exact List.forall_mem_append.mpr ⟨hright, List.forall_mem_singleton.mpr ⟨hn, hlen⟩⟩
  · rw [hwriter]
    refine hwrites.trans ?_
    simp [Finished.input]
  · rw [hreader]
    refine hreads.trans ?_
    simp [Finished.asked, Reader.asked]
  · rw [hwriter, haccepted, hput]
    simp [Finished.put]
  · rw [hdelivered, hout]
    simp [Finished.output]
  · rw [hwriter]
    exact h.writer.congr haccepted
  · rw [hreader]
    trivial

theorem stepWriter (h : Counted content x) (hs : x.step .stepWriter = some x') :
    Counted content x' := by
  obtain ⟨s', hstep, rfl⟩ := Option.map_eq_some_iff.mp hs
  have hi := h.inv.step hstep
  obtain ⟨hreader, hdelivered, -, -⟩ := stepWriter_keeps hstep
  have hput := h.counts.accepted
  have hok := h.writer
  change x.sys.stepWriter x.sys.writer = some s' at hstep
  cases hw : x.sys.writer with
  | idle =>
    rw [hw] at hstep
    cases hstep
  | loadHead f =>
    rw [hw] at hstep hok hput
    cases hstep
    simp only [Recorded.record, Sys.returns, hw, Option.map_none, Option.toList_none,
      List.append_nil]
    exact h.writerGoes hi hreader hdelivered rfl ⟨hok, rfl, h.inv, rfl⟩ (by rw [hw]; rfl) hput
  | loadTail f =>
    rw [hw] at hstep hok hput
    obtain ⟨hlen, hhead, hload, hsame⟩ := hok
    have hsize := h.inv.writeSize hload hsame
    rw [← hhead] at hsize
    cases hstep
    simp only [Recorded.record, Sys.returns, hw]
    simp only [hsize, hlen, Nat.min_comm _ f.input.length] at hi ⊢
    split_ifs at hi ⊢ with hz
    · refine h.writerReturns hi hreader hdelivered rfl (by rw [hw]; rfl) hz.symm ?_
      rw [List.take_zero]
      exact hput
    · simp only [Option.map_none, Option.toList_none, List.append_nil]
      exact h.writerGoes hi hreader hdelivered rfl rfl (by rw [hw]; rfl) hput
  | casTail f =>
    have hcas := (h.inv.casTail hw).1
    rw [hw] at hstep hok hput
    rw [Sys.stepWriter, if_pos hcas] at hstep
    cases hstep
    simp only [Recorded.record, Sys.returns, hw, Option.map_none, Option.toList_none,
      List.append_nil]
    refine h.writerGoes hi hreader hdelivered rfl hok (by rw [hw]; rfl) ?_
    have hnone : (Writer.casTail f).reserved = [] := rfl
    rw [hnone, List.append_nil] at hput
    exact congrArg (· ++ f.input.take f.len) hput
  | copy k f =>
    rw [hw] at hstep hok hput
    cases hstep
    simp only [Recorded.record, Sys.returns, hw]
    split_ifs at hi ⊢ with hmore
    · simp only [Option.map_none, Option.toList_none, List.append_nil]
      exact h.writerGoes hi hreader hdelivered rfl hok (by rw [hw]; rfl) hput
    · exact h.writerReturns hi hreader hdelivered rfl (by rw [hw]; rfl) hok hput

theorem stepReader (h : Counted content x) (hs : x.step .stepReader = some x') :
    Counted content x' := by
  obtain ⟨s', hstep, rfl⟩ := Option.map_eq_some_iff.mp hs
  have hi := h.inv.step hstep
  obtain ⟨hwriter, haccepted⟩ := stepReader_keeps hstep
  have hok := h.reader
  have hcopied := h.inv.reader
  change x.sys.stepReader x.sys.reader = some s' at hstep
  cases hr : x.sys.reader with
  | idle =>
    rw [hr] at hstep
    cases hstep
  | loadHead f =>
    rw [hr] at hstep hok
    cases hstep
    simp only [Recorded.record, Sys.returns, hr, Option.map_none, Option.toList_none,
      List.append_nil]
    exact h.readerGoes hi hwriter haccepted rfl rfl hok fun last => by rw [hr]; rfl
  | loadTail f =>
    rw [hr] at hstep hok hcopied
    have hsize := h.inv.readSize
    rw [← (show f.head = x.sys.head from hcopied)] at hsize
    cases hstep
    simp only [Recorded.record, Sys.returns, hr]
    simp only [hsize, (show f.len = x.reads.getLastD 0 from hok),
      Nat.min_comm _ (x.reads.getLastD 0)] at hi ⊢
    split_ifs at hi ⊢ with hz
    · exact h.readerReturns hi hwriter haccepted rfl (fun last => by rw [hr]; rfl) hz.symm rfl
        (List.append_nil _).symm
    · simp only [Option.map_none, Option.toList_none, List.append_nil]
      exact h.readerGoes hi hwriter haccepted rfl rfl rfl fun last => by rw [hr]; rfl
  | copy f =>
    rw [hr] at hstep hok
    cases hstep
    simp only [Recorded.record, Sys.returns, hr, Option.map_none, Option.toList_none,
      List.append_nil]
    refine h.readerGoes hi hwriter haccepted rfl rfl ?_ fun last => ?_
    · split_ifs
      · exact hok
      · exact hok
    · rw [hr]
      split_ifs <;> rfl
  | casHead f =>
    have hcas := (h.inv.casHead hr).1
    rw [hr] at hstep hok hcopied
    rw [Sys.stepReader, if_pos hcas] at hstep
    cases hstep
    simp only [Recorded.record, Sys.returns, hr, if_pos hcas]
    exact h.readerReturns hi hwriter haccepted rfl (fun last => by rw [hr]; rfl) hok
      hcopied.2.1 rfl

theorem step (h : Counted content x) (hs : x.step a = some x') : Counted content x' := by
  obtain ⟨hright, hwrites, hreads, hput, hout⟩ := h.counts
  cases a with
  | write input =>
    obtain ⟨s', hstep, rfl⟩ := Option.map_eq_some_iff.mp hs
    have hi := h.inv.step hstep
    cases hw : x.sys.writer with
    | idle =>
      simp only [Sys.step, hw, Option.some.injEq] at hstep
      subst hstep
      rw [hw] at hwrites hput
      refine ⟨hi, ⟨?_, ?_, ?_, ?_, ?_⟩, rfl, ?_⟩
      all_goals simp only [Recorded.record, Sys.returns, Option.map_none, Option.toList_none,
        List.append_nil]
      · exact hright
      · rw [hwrites]
        simp [Writer.input]
      · exact hreads
      · exact hput
      · exact hout
      · exact h.reader
    | loadHead | loadTail | casTail | copy => simp [Sys.step, hw] at hstep
  | read len =>
    obtain ⟨s', hstep, rfl⟩ := Option.map_eq_some_iff.mp hs
    have hi := h.inv.step hstep
    cases hr : x.sys.reader with
    | idle =>
      simp only [Sys.step, hr, Option.some.injEq] at hstep
      subst hstep
      rw [hr] at hreads
      refine ⟨hi, ⟨?_, ?_, ?_, ?_, ?_⟩, ?_, ?_⟩
      all_goals simp only [Recorded.record, Sys.returns, Option.map_none, Option.toList_none,
        List.append_nil, List.getLastD_concat]
      · exact hright
      · exact hwrites
      · rw [hreads]
        simp [Reader.asked]
      · exact hput
      · exact hout
      · exact h.writer.congr rfl
      · rfl
    | loadHead | loadTail | copy | casHead => simp [Sys.step, hr] at hstep
  | stepWriter => exact h.stepWriter hs
  | stepReader => exact h.stepReader hs

end Counted

/-- In every interleaving of one writer and one reader the ring does not overrun, every call
returns, in its turn, the count that a queue gives it where it loads the other one's word, and
what is delivered for each position is the byte that was written there or, where the reader
copied before the writer did, the byte that the cell held one turn earlier. -/
theorem reads_exact (h : (recorded content).Reachable Any x) : Counts x ∧
    x.sys.delivered.length ≤ x.sys.accepted.length ∧
    x.sys.accepted.length < x.sys.delivered.length + shmDataSize ∧
    x.sys.early.length = x.sys.delivered.length ∧
    ∀ q < x.sys.delivered.length, x.sys.delivered[q]? =
      some (if x.sys.early.getD q false then before content x.sys.accepted q
        else x.sys.accepted.getD q 0) := by
  have hcounted : Counted content x :=
    h.invariant (fun _ => Counted.start) fun _ _ _ hi _ hs => hi.step hs
  have hi := hcounted.inv
  refine ⟨hcounted.counts, hi.consumed, hi.room, hi.bytes.1, fun q hq => ?_⟩
  have hbyte := hi.bytes.2 q hq
  rwa [Nat.zero_add] at hbyte

/-- The writer has swapped `tail` when the reader comes and gets what is not there yet. -/
theorem reads_exact_early : ∃ x : Recorded, (x.sys.accepted = [7] ∧ x.sys.early = [true]) ∧
    x.sys.delivered[0]? = some (before (fun _ => 0) x.sys.accepted 0) ∧
    x.finished.filterMap Finished.asked = [3] ∧ x.finished.flatMap Finished.output = [0] := by
  obtain ⟨x, hr, hP⟩ := reachable_of_run (M := recorded fun _ => 0)
    (s := ⟨.start fun _ => 0, [], [], .start fun _ => 0, .start fun _ => 0, []⟩)
    (l := [.write [7], .stepWriter, .stepWriter, .stepWriter, .read 3, .stepReader, .stepReader,
      .stepReader, .stepReader])
    (P := fun x => decide ((x.sys.accepted = [7] ∧ x.sys.early = [true]) ∧
      x.sys.delivered = [0] ∧ x.reads = [3] ∧ x.sys.reader.asked 3 = []))
    ⟨rfl, rfl, rfl, rfl⟩ (by decide +kernel)
  obtain ⟨hs, hdelivered, hreads, hidle⟩ := of_decide_eq_true hP
  obtain ⟨hcounts, -, -, hlen, hbytes⟩ := reads_exact hr
  refine ⟨x, hs, ?_, ?_, hcounts.delivered.symm.trans hdelivered⟩
  · rw [hbytes 0 (by rw [← hlen, hs.2]; decide), hs.2]
    rfl
  · have hasked := hcounts.reads
    rw [hreads] at hasked
    rw [show [3].getLastD 0 = 3 from rfl, hidle, List.append_nil] at hasked
    exact hasked.symm

end ShmSocket.IoRing
