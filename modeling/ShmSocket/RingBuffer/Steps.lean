import ShmSocket.RingBuffer.Segment
import ShmSocket.Lib.StepMachine
import Mathlib.Logic.Function.Basic

/-! Any number of threads inside `rb_write` and `rb_read` on one ring, one load,
compare-and-swap or byte copy at a time. Memory is sequentially consistent.

The fields `headAt` and `tailAt` of a call and the fields `accepted`, `published`,
`delivered` and `log` of the state record history: no step decides on them. -/
namespace ShmSocket.RingBuffer

abbrev Tid := ℕ

/-- The locals of an `rb_write` call. `input` is the caller's buffer, of the
length it asked for; `len` is the variable the attempts shrink. -/
structure WriteFrame where
  input : List Byte
  len : ℕ
  head : ℕ
  tail : ℕ
  oldTail : ℕ
  /-- Bytes consumed when `head` was loaded. -/
  headAt : ℕ
  /-- Bytes reserved when `tail` was loaded; after the reservation, where it starts. -/
  tailAt : ℕ

/-- The locals of an `rb_read` call. `req` is the length the caller asked for,
`out` the bytes copied by the current attempt. -/
structure ReadFrame where
  req : ℕ
  len : ℕ
  head : ℕ
  tail : ℕ
  out : List Byte
  /-- Bytes consumed when `head` was loaded. -/
  headAt : ℕ
  /-- Bytes published when `tail` was loaded. -/
  tailAt : ℕ

inductive WritePc where
  | loadHead | loadTail | loadOldtail | casTail
  | copy (k : ℕ)
  | casOldtail
  deriving DecidableEq

inductive ReadPc where
  | loadHead | loadOldtail | copy | casHead
  deriving DecidableEq

inductive Thread where
  | idle
  | writing (pc : WritePc) (f : WriteFrame)
  | reading (pc : ReadPc) (f : ReadFrame)

/-- A finished call, its last locals, and what it returned. -/
inductive Ret where
  | wrote (f : WriteFrame) (count : ℕ)
  | got (f : ReadFrame) (bytes : List Byte)

structure Sys where
  ring : Ring
  thread : Tid → Thread
  /-- The bytes reserved by successful swaps on `tail`, in their order. -/
  accepted : List Byte
  /-- The number of bytes published by successful swaps on `oldtail`. -/
  published : ℕ
  /-- The bytes returned by `rb_read`, in the order of the swaps on `head`. -/
  delivered : List Byte
  log : List Ret

namespace Sys

def setThread (s : Sys) (t : Tid) (th : Thread) : Sys :=
  { s with thread := Function.update s.thread t th }

/-- Return from a call. -/
def ret (s : Sys) (t : Tid) (r : Ret) : Sys :=
  { s.setThread t .idle with log := s.log ++ [r] }

/-- One step of `rb_write`. -/
def stepWrite (s : Sys) (t : Tid) : WritePc → WriteFrame → Sys
  | .loadHead, f =>
      s.setThread t (.writing .loadTail
        { f with head := s.ring.head, headAt := s.delivered.length })
  | .loadTail, f =>
      s.setThread t (.writing .loadOldtail
        { f with tail := s.ring.tail, tailAt := s.accepted.length })
  | .loadOldtail, f =>
      let g := { f with oldTail := s.ring.oldtail, len := min (writeSize f.head f.tail) f.len }
      if g.len = 0 then s.ret t (.wrote g 0) else s.setThread t (.writing .casTail g)
  | .casTail, f =>
      if s.ring.tail = f.tail then
        { s with
          ring := { s.ring with tail := advance f.tail f.len }
          accepted := s.accepted ++ f.input.take f.len }.setThread t
            (.writing (.copy 0) { f with tailAt := s.accepted.length })
      else s.setThread t (.writing .loadHead f) -- goto retry, with the clamped `len`
  | .copy k, f =>
      { s with
        ring := { s.ring with
          content := Function.update s.ring.content (copyOffset f.tail f.len k)
            (f.input.getD k 0) } }.setThread t
              (if k + 1 < f.len then .writing (.copy (k + 1)) f else .writing .casOldtail f)
  | .casOldtail, f =>
      if s.ring.oldtail = f.tail then
        { s with
          ring := { s.ring with oldtail := advance f.tail f.len }
          published := s.published + f.len }.ret t (.wrote f f.len)
      else s -- spin

/-- One step of `rb_read`. -/
def stepRead (s : Sys) (t : Tid) : ReadPc → ReadFrame → Sys
  | .loadHead, f =>
      s.setThread t (.reading .loadOldtail
        { f with head := s.ring.head, headAt := s.delivered.length })
  | .loadOldtail, f =>
      let g := { f with
        tail := s.ring.oldtail
        tailAt := s.published
        len := min (readSize f.head s.ring.oldtail) f.len
        out := [] }
      if g.len = 0 then s.ret t (.got g []) else s.setThread t (.reading .copy g)
  | .copy, f =>
      let g := { f with
        out := f.out ++ [s.ring.content (copyOffset f.head f.len f.out.length)] }
      s.setThread t (if g.out.length < f.len then .reading .copy g else .reading .casHead g)
  | .casHead, f =>
      if s.ring.head = f.head then
        { s with
          ring := { s.ring with head := advance f.head f.len }
          delivered := s.delivered ++ f.out }.ret t (.got f f.out)
      else s.setThread t (.reading .loadHead f) -- goto retry, with the clamped `len`

end Sys

/-- A thread calls `rb_write` or `rb_read`, or takes its next step. -/
inductive Act where
  | write (t : Tid) (input : List Byte)
  | read (t : Tid) (len : ℕ)
  | exec (t : Tid)

def Act.thread : Act → Tid
  | .write t _ | .read t _ | .exec t => t

def Sys.step (s : Sys) : Act → Option Sys
  | .write t input =>
      match s.thread t with
      | .idle => some (s.setThread t (.writing .loadHead ⟨input, input.length, 0, 0, 0, 0, 0⟩))
      | _ => none
  | .read t len =>
      match s.thread t with
      | .idle => some (s.setThread t (.reading .loadHead ⟨len, len, 0, 0, [], 0, 0⟩))
      | _ => none
  | .exec t =>
      match s.thread t with
      | .idle => none
      | .writing pc f => some (s.stepWrite t pc f)
      | .reading pc f => some (s.stepRead t pc f)

/-- All that a step can be. -/
inductive Move (s : Sys) : Act → Sys → Prop
  | write {t : Tid} {input : List Byte} (ht : s.thread t = .idle) : Move s (.write t input)
      (s.setThread t (.writing .loadHead ⟨input, input.length, 0, 0, 0, 0, 0⟩))
  | read {t : Tid} {len : ℕ} (ht : s.thread t = .idle) : Move s (.read t len)
      (s.setThread t (.reading .loadHead ⟨len, len, 0, 0, [], 0, 0⟩))
  | writing {t : Tid} {pc : WritePc} {f : WriteFrame} (ht : s.thread t = .writing pc f) :
      Move s (.exec t) (s.stepWrite t pc f)
  | reading {t : Tid} {pc : ReadPc} {f : ReadFrame} (ht : s.thread t = .reading pc f) :
      Move s (.exec t) (s.stepRead t pc f)

theorem step_cases {s s' : Sys} {a : Act} (h : s.step a = some s') : Move s a s' := by
  cases a with
  | write t input =>
    cases ht : s.thread t <;> simp only [Sys.step, ht, reduceCtorEq] at h
    cases h
    exact .write ht
  | read t len =>
    cases ht : s.thread t <;> simp only [Sys.step, ht, reduceCtorEq] at h
    cases h
    exact .read ht
  | exec t =>
    cases ht : s.thread t <;> simp only [Sys.step, ht, reduceCtorEq] at h
    · cases h
      exact .writing ht
    · cases h
      exact .reading ht

/-- Each label with the number of steps that its thread takes afterwards. -/
def schedule (turns : List (Act × ℕ)) : List Act :=
  turns.flatMap fun (a, n) => a :: List.replicate n (.exec a.thread)

/-- Writer 0 has reserved two bytes and copies them; writer 2 has reserved one behind them,
copied it, and spins. -/
def twoReservations : List Act :=
  schedule [(.write 0 [1, 2], 4), (.write 2 [3], 5), (.exec 2, 1), (.exec 0, 0)]

/-- The ring when nothing has been written: all header words are 0, any data. -/
def Sys.start (content : ℕ → Byte) : Sys :=
  ⟨⟨0, 0, 0, content⟩, fun _ => .idle, [], 0, [], []⟩

/-- The calls of any number of threads on one ring. -/
def machine : StepMachine Sys Act where
  init s := ∃ content, s = Sys.start content
  step := Sys.step

/-- Only `r` calls `rb_read`. -/
def OneReader (r : Tid) : Act → Prop
  | .read t _ => t = r
  | _ => True

/-- Only `w` calls `rb_write`. -/
def OneWriter (w : Tid) : Act → Prop
  | .write t _ => t = w
  | _ => True

/-- A successful swap on `tail` finds fewer than `shmDataSize` bytes reserved since
the position of the head that its attempt loaded: `tail` did not lap that head. -/
def NotLapped (s : Sys) : Act → Prop
  | .exec t => ∀ f, s.thread t = .writing .casTail f → s.ring.tail = f.tail →
      s.accepted.length < f.headAt + shmDataSize
  | _ => True

/-- A successful swap on `head` finds fewer than `shmDataSize` bytes consumed since
its attempt loaded the head: `head` did not go round the ring. -/
def NotTurned (s : Sys) : Act → Prop
  | .exec t => ∀ f, s.thread t = .reading .casHead f → s.ring.head = f.head →
      s.delivered.length < f.headAt + shmDataSize
  | _ => True

instance (r : Tid) : DecidablePred (OneReader r) := fun a => by
  unfold OneReader
  split <;> infer_instance

instance (w : Tid) : DecidablePred (OneWriter w) := fun a => by
  unfold OneWriter
  split <;> infer_instance

/-- The locals of a thread that is about to swap `tail`. -/
def Thread.swapsTail : Thread → Option WriteFrame
  | .writing .casTail f => some f
  | _ => none

/-- The locals of a thread that is about to swap `head`. -/
def Thread.swapsHead : Thread → Option ReadFrame
  | .reading .casHead f => some f
  | _ => none

theorem Thread.swapsTail_eq {th : Thread} {f : WriteFrame} :
    th.swapsTail = some f ↔ th = .writing .casTail f := by
  unfold swapsTail
  split <;> simp_all

theorem Thread.swapsHead_eq {th : Thread} {f : ReadFrame} :
    th.swapsHead = some f ↔ th = .reading .casHead f := by
  unfold swapsHead
  split <;> simp_all

instance (s : Sys) (a : Act) : Decidable (NotLapped s a) :=
  match a with
  | .write _ _ | .read _ _ => isTrue trivial
  | .exec t => decidable_of_iff (∀ f ∈ (s.thread t).swapsTail,
      s.ring.tail = f.tail → s.accepted.length < f.headAt + shmDataSize)
      (forall_congr' fun _ => imp_congr_left Thread.swapsTail_eq)

instance (s : Sys) (a : Act) : Decidable (NotTurned s a) :=
  match a with
  | .write _ _ | .read _ _ => isTrue trivial
  | .exec t => decidable_of_iff (∀ f ∈ (s.thread t).swapsHead,
      s.ring.head = f.head → s.delivered.length < f.headAt + shmDataSize)
      (forall_congr' fun _ => imp_congr_left Thread.swapsHead_eq)

end ShmSocket.RingBuffer
