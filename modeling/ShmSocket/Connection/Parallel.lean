import ShmSocket.Connection.Streams
import ShmSocket.Connection.Lines

/-! The calls of all sockets at the same time: the loads, byte copies and swaps of all `send`
and `recv` calls on all rings in any order, between them `bind`, `connect`, `accept` and
`close`, each in one step. -/
namespace ShmSocket.Parallel
open StepMachine Indices
open Net (End peer)
open Session (Ported Joins Status peer_involutive)
open RingBuffer (Tid Ret Line Quiet)

inductive Role where
  | sender | receiver
  deriving DecidableEq

/-- Every end sends in one thread and receives in another. -/
def tid : End → Role → ℕ
  | (n, .client), .sender => 4 * n
  | (n, .client), .receiver => 4 * n + 1
  | (n, .server), .sender => 4 * n + 2
  | (n, .server), .receiver => 4 * n + 3

/-- The threads in calls on a segment, with the history of its ring. -/
structure Flow where
  thread : Tid → RingBuffer.Thread
  accepted : List Byte
  published : ℕ
  delivered : List Byte
  log : List Ret

def Flow.start : Flow := ⟨fun _ => .idle, [], 0, [], []⟩

structure Sys where
  socks : Session.Sys
  flow : Segment → Flow
  /-- The `writer` or `reader` of a thread's last call. -/
  handle : End × Role → Segment
  /-- What the finished calls of an end accepted. -/
  sent : End → List Byte
  /-- What the finished calls of an end returned. -/
  received : End → List Byte

/-- `buf` is the buffer of `send` up to the `int` that its length converts to; `recv` is a
round of the loop of `recvfrom`; `exec` is the next step of the call that a thread is in. -/
inductive Act where
  | bind (p : Pid) (port : ℕ)
  | connect (p : Pid) (fd serverPort : ℕ)
  | accept (n : ℕ) (p : Pid) (fd : ℤ)
  | close (e : End)
  | send (e : End) (buf : List Byte)
  | recv (e : End) (len : ℕ)
  | exec (e : End) (role : Role)

namespace Sys

def rings (x : Sys) : Rings := x.socks.world.rings

def setRings (x : Sys) (rings : Rings) : Sys :=
  { x with socks := { x.socks with world := { x.socks.world with rings } } }

/-- The ring on a segment with the threads in calls on it. -/
def on (x : Sys) (seg : Segment) : RingBuffer.Sys where
  ring := x.rings.ring seg
  thread := (x.flow seg).thread
  accepted := (x.flow seg).accepted
  published := (x.flow seg).published
  delivered := (x.flow seg).delivered
  log := (x.flow seg).log

def store (x : Sys) (seg : Segment) (s : RingBuffer.Sys) : Sys :=
  { x.setRings { x.rings with ring := Function.update x.rings.ring seg s.ring } with
    flow := Function.update x.flow seg
      ⟨s.thread, s.accepted, s.published, s.delivered, s.log⟩ }

/-- A call of `bind`, `connect`, `accept` or `close`. -/
def call (x : Sys) (a : Session.Act) : Option Sys :=
  (x.socks.step a).map fun socks => { x with socks }

/-- A thread enters `rb_write` or `rb_read` on `rb_get(get_idx(..))`. -/
def enter (x : Sys) (e : End) (role : Role) (ports : ℤ → Pair) (call : RingBuffer.Act) :
    Option Sys :=
  match x.socks.status e, (x.on (x.handle (e, role))).thread (tid e role) with
  | .connected p fd, .idle =>
      if 0 ≤ fd then
        (x.rings.openRing p (ports (x.socks.world.portsOf p fd))).bind fun (k, rings) =>
          (((x.setRings rings).on (segmentOf p k)).step call).map fun s =>
            { (x.setRings rings).store (segmentOf p k) s with
              handle := Function.update x.handle (e, role) (segmentOf p k) }
      else none
  | _, _ => none

def exec (x : Sys) (e : End) (role : Role) : Option Sys :=
  let seg := x.handle (e, role)
  ((x.on seg).step (.exec (tid e role))).map fun s =>
    let ended := RingBuffer.ended (x.on seg) s
    match role with
    | .sender => { x.store seg s with
        sent := Function.update x.sent e (x.sent e ++ ended.flatMap Ret.written) }
    | .receiver => { x.store seg s with
        received := Function.update x.received e (x.received e ++ ended.flatMap Ret.read) }

def step (x : Sys) : Act → Option Sys
  | .bind p port => x.call (.bind p port)
  | .connect p fd serverPort => x.call (.connect p fd serverPort)
  | .accept n p fd => x.call (.accept n p fd)
  | .close e => x.call (.close e)
  | .send e buf => x.enter e .sender (fun fd => (localPort fd, remotePort fd))
      (.write (tid e .sender) buf)
  | .recv e len => x.enter e .receiver (fun fd => (remotePort fd, localPort fd))
      (.read (tid e .receiver) len)
  | .exec e role => x.exec e role

end Sys

def machine : StepMachine Sys Act where
  init x := Session.machine.init x.socks ∧ (∀ seg, x.flow seg = .start) ∧
    (∀ e, x.sent e = []) ∧ ∀ e, x.received e = []
  step := Sys.step

/-- The ring on a segment as its first attach finds it. -/
def Sys.view (x : Sys) (seg : Segment) : RingBuffer.Sys :=
  if x.rings.nattch seg = 0 then .start (x.rings.ring seg).content else x.on seg

/-- The ring of a table entry. -/
def Sys.ring (x : Sys) (c : Cell) : RingBuffer.Sys :=
  if x.rings.tables.table c = 0 then .start fun _ => 0
  else x.view (ringSegment (x.rings.tables.table c))

/-- The ring that an end receives from. -/
abbrev Sys.inbox (x : Sys) (e : End) : RingBuffer.Sys := x.ring (x.socks.cell e)

/-- No port is 0, nobody sends to an end that has closed, and an end closes when it has
received what is in its ring and no call on the ring is in progress. -/
def Orderly (x : Sys) : Act → Prop
  | .bind _ port => port ≠ 0
  | .send e _ => (x.socks.status (peer e)).Open
  | .close e => (x.inbox e).thread (tid (peer e) .sender) = .idle ∧
      (x.inbox e).thread (tid e .receiver) = .idle ∧ (x.inbox e).ring.queue = []
  | _ => True

instance (th : RingBuffer.Thread) : Decidable (th = .idle) :=
  match th with
  | .idle => isTrue rfl
  | .writing _ _ | .reading _ _ => isFalse (by simp)

instance (x : Sys) (a : Act) : Decidable (Orderly x a) := by
  cases a <;> unfold Orderly <;> infer_instance

variable {x x' : Sys} {e e' : End} {p : Pid} {fd : ℤ} {c c' : Cell} {k : ℕ} {seg : Segment}
  {s : RingBuffer.Sys}

theorem tid_inj {role role' : Role} (h : tid e role = tid e' role') : e = e' ∧ role = role' := by
  obtain ⟨n, side⟩ := e
  obtain ⟨n', side'⟩ := e'
  cases side <;> cases role <;> cases side' <;> cases role' <;>
    simp only [tid, Prod.mk.injEq, reduceCtorEq, and_true, and_false] at h ⊢ <;> omega

theorem on_store (x : Sys) (seg : Segment) (s : RingBuffer.Sys) : (x.store seg s).on seg = s := by
  simp [Sys.store, Sys.setRings, Sys.on, Sys.rings]

theorem on_store_of_ne {seg' : Segment} (h : seg' ≠ seg) (s : RingBuffer.Sys) :
    (x.store seg s).on seg' = x.on seg' := by
  simp [Sys.store, Sys.setRings, Sys.on, Sys.rings, Function.update_of_ne h]

theorem view_store (hne : x.rings.nattch seg ≠ 0) (s : RingBuffer.Sys) :
    (x.store seg s).view seg = s :=
  (if_neg hne).trans (on_store x seg s)

theorem view_store_of_ne {seg' : Segment} (h : seg' ≠ seg) (s : RingBuffer.Sys) :
    (x.store seg s).view seg' = x.view seg' := by
  have hon := on_store_of_ne (x := x) h s
  have hring : (x.store seg s).rings.ring seg' = x.rings.ring seg' :=
    congrArg RingBuffer.Sys.ring hon
  have hnattch : (x.store seg s).rings.nattch = x.rings.nattch := rfl
  unfold Sys.view
  rw [hon, hring, hnattch]

/-- The threads on a segment depend on its ring, its history and whether it is attached. -/
theorem view_congr (hrings : x'.rings.ring = x.rings.ring)
    (hnattch : x'.rings.nattch = x.rings.nattch) (hflow : x'.flow = x.flow) (seg : Segment) :
    x'.view seg = x.view seg := by
  simp only [Sys.view, Sys.on, hrings, hnattch, hflow]

/-- Attaching segments leaves the rings as the first attach finds them. -/
theorem view_attaches (hfresh : ∀ seg, x.rings.nattch seg = 0 → x.flow seg = .start)
    (ha : Rings.Attaches x.rings x'.rings) (hflow : x'.flow = x.flow) (seg : Segment) :
    x'.view seg = x.view seg := by
  unfold Sys.view
  by_cases hz : x.rings.nattch seg = 0
  · have hring := ha.first seg hz
    rw [if_pos hz]
    split_ifs with hz'
    · rw [hring, if_pos hz']
    · rw [if_neg hz'] at hring
      simp only [Sys.on, hring, hflow, hfresh seg hz, Flow.start, RingBuffer.Sys.start]
  · obtain ⟨hne, hring⟩ := ha.kept seg hz
    rw [if_neg hz, if_neg hne]
    simp only [Sys.on, hring, hflow]

end ShmSocket.Parallel
