import ShmSocket.Connection.Network

/-! Connections over their whole life: `bind`, `connect`, `accept`, `send`, `recv` and
`close`, one call at a time, in any order and with any descriptor. -/
namespace ShmSocket.Session
open StepMachine PortTable
open Net (Side End peer)

/-- One end of a connection. It waits for `accept`, has a descriptor, has lost it to a
later `connect` of its process with the same descriptor, or has called `close`. -/
inductive Status where
  | unused
  | waiting
  | connected (p : Pid) (fd : ℤ)
  | lost (p : Pid)
  | closed
  deriving DecidableEq

/-- The end has not called `close`. -/
def Status.Open : Status → Prop
  | .waiting | .connected _ _ | .lost _ => True
  | .unused | .closed => False

instance : DecidablePred Status.Open := fun status => by
  cases status <;> unfold Status.Open <;> infer_instance

instance {P : Side → Prop} [DecidablePred P] : Decidable (∀ side, P side) :=
  decidable_of_iff (P .client ∧ P .server) ⟨fun h side => by cases side; exacts [h.1, h.2],
    fun h => ⟨h .client, h .server⟩⟩

/-- Connection `n < count` has the ends `(n, .client)` and `(n, .server)`. -/
structure Sys where
  world : World
  count : ℕ
  port : End → ℕ
  status : End → Status

/-- A call with a descriptor. -/
inductive Call where
  | send (buf : List Byte)
  | recv (len : ℕ)
  | close
  deriving DecidableEq

/-- The entry that a call asks `get_idx` for. -/
def Call.cell (w : World) (p : Pid) (fd : ℤ) : Call → Cell
  | .send _ => ShmSocket.cell p (localPort (w.portsOf p fd), remotePort (w.portsOf p fd))
  | .recv _ | .close => ShmSocket.cell p (remotePort (w.portsOf p fd), localPort (w.portsOf p fd))

def Call.run (w : World) (p : Pid) (fd : ℤ) : Call → Option World
  | .send buf => (w.send p fd buf).map Prod.snd
  | .recv len => (w.recv p fd len).map Prod.snd
  | .close => (w.close p fd).map Prod.snd

/-- `bind` does not look at its descriptor. `other` is a call with a descriptor that no end
has: a listening one, one that was never connected, or one that has been closed. -/
inductive Act where
  | bind (p : Pid) (port : ℕ)
  | connect (p : Pid) (fd serverPort : ℕ)
  | accept (n : ℕ) (p : Pid) (fd : ℤ)
  | send (e : End) (buf : List Byte)
  | recv (e : End) (len : ℕ)
  | close (e : End)
  | other (p : Pid) (fd : ℤ) (call : Call)

/-- Process ids are positive and have `maxPidBits` bits. -/
def IsPid (p : Pid) : Prop := 0 < p ∧ p < 2 ^ maxPidBits

instance (p : Pid) : Decidable (IsPid p) := by
  unfold IsPid
  infer_instance

namespace Sys

/-- The entry that names the ring an end receives from. -/
def cell (s : Sys) (e : End) : Cell := ShmSocket.cell 0 (s.port (peer e), s.port e)

/-- The word in the port table while an end is open. -/
def word (s : Sys) : End → ℤ
  | (_, .client) => -1
  | (n, .server) => taken (s.port (n, .client))

/-- After a successful `connect`: a new connection, whose server has still to accept. -/
def established (s : Sys) (p : Pid) (fd serverPort : ℕ) (world : World) : Sys where
  world
  count := s.count + 1
  port := Function.update
    (Function.update s.port (s.count, .client) (localPort (world.clientFdToIdx (p, fd))))
    (s.count, .server) serverPort
  status := Function.update
    (Function.update (fun e => if s.status e = .connected p fd then .lost p else s.status e)
      (s.count, .client) (.connected p fd))
    (s.count, .server) .waiting

/-- No end has the descriptor. -/
def Unconnected (s : Sys) (p : Pid) (fd : ℤ) : Prop :=
  ∀ n < s.count, ∀ side : Side, s.status (n, side) ≠ .connected p fd

/-- No open end has the port. -/
def Unowned (s : Sys) (port : ℕ) : Prop :=
  ∀ n < s.count, ∀ side : Side, (s.status (n, side)).Open → s.port (n, side) ≠ port

instance (s : Sys) (p : Pid) (fd : ℤ) : Decidable (s.Unconnected p fd) := by
  unfold Unconnected
  infer_instance

instance (s : Sys) (port : ℕ) : Decidable (s.Unowned port) := by
  unfold Unowned
  infer_instance

/-- The calls of `send`, `recv` and `close` with the descriptor of an end. A negative one
has no step: it would be looked up outside `client_fd_to_idx`. -/
def withSocket (s : Sys) (e : End) (f : Pid → ℤ → Option Sys) : Option Sys :=
  match s.status e with
  | .connected p fd => if 0 ≤ fd then f p fd else none
  | _ => none

/-- A `connect` with a descriptor from 1024 on has no step: it would store outside
`client_fd_to_idx`. `accept` answers the `connect` of its label. -/
def step (s : Sys) : Act → Option Sys
  | .bind p port =>
      if IsPid p ∧ port < portNumber then some { s with world := (s.world.bind p port).2 }
      else none
  | .connect p fd serverPort =>
      if IsPid p ∧ fd < 1024 ∧ serverPort < portNumber then
        (s.world.connect p fd serverPort).map fun (ret, world) =>
          if ret = 0 then s.established p fd serverPort world else { s with world }
      else none
  | .accept n p fd =>
      if s.status (n, .server) = .waiting then
        (s.world.accept p fd (s.port (n, .server))).map fun (ret, world) =>
          { s with world, status := Function.update s.status (n, .server) (.connected p ret) }
      else none
  | .send e buf =>
      s.withSocket e fun p fd => (s.world.send p fd buf).map fun (_, world) => { s with world }
  | .recv e len =>
      s.withSocket e fun p fd => (s.world.recv p fd len).map fun (_, world) => { s with world }
  | .close e =>
      s.withSocket e fun p fd => (s.world.close p fd).map fun (_, world) =>
        { s with world, status := Function.update s.status e .closed }
  | .other p fd call =>
      if 0 ≤ fd ∧ s.Unconnected p fd then
        (call.run s.world p fd).map fun world => { s with world }
      else none

end Sys

/-- Empty tables, a pool of one channel, no attached rings, no connections. -/
def machine : StepMachine Sys Act where
  init s := (∃ a : Address, s.world.rings.tables = ⟨[a.init], fun _ => 0⟩) ∧
    (∀ seg, s.world.rings.nattch seg = 0) ∧ (∀ h, s.world.rings.memo h = false) ∧
    (∀ port, s.world.portTable port = 0) ∧ s.count = 0 ∧ ∀ e, s.status e = .unused
  step := Sys.step

variable {s s' : Sys} {e : End} {p : Pid} {fd : ℤ}

theorem withSocket_spec {f : Pid → ℤ → Option Sys} (h : s.withSocket e f = some s') :
    ∃ p fd, s.status e = .connected p fd ∧ 0 ≤ fd ∧ f p fd = some s' := by
  unfold Sys.withSocket at h
  split at h
  · next p fd hstatus =>
    split at h
    · next hfd => exact ⟨p, fd, hstatus, hfd, h⟩
    · cases h
  · cases h

/-- All that a step can be, with what its call has returned. -/
inductive Move (s : Sys) : Act → Sys → Prop
  | bind {p : Pid} {port : ℕ} (hp : IsPid p) :
      Move s (.bind p port) { s with world := (s.world.bind p port).2 }
  | refused {p : Pid} {fd serverPort : ℕ} {ret : ℤ} (hret : ret ≠ 0)
      (hs : s.world.connect p fd serverPort = some (ret, s.world)) :
      Move s (.connect p fd serverPort) s
  | connect {p : Pid} {fd serverPort : ℕ} {world : World} (hfd : fd < 1024)
      (hserver : serverPort < portNumber) (hs : s.world.connect p fd serverPort = some (0, world))
      (hc : World.Connected s.world p fd serverPort world) :
      Move s (.connect p fd serverPort) (s.established p fd serverPort world)
  | accept {n : ℕ} {p : Pid} {fd ret : ℤ} {world : World}
      (hwaiting : s.status (n, .server) = .waiting)
      (hs : s.world.accept p fd (s.port (n, .server)) = some (ret, world)) :
      Move s (.accept n p fd)
        { s with world, status := Function.update s.status (n, .server) (.connected p ret) }
  | send {e : End} {buf : List Byte} {p : Pid} {fd ret : ℤ} {world : World}
      (hstatus : s.status e = .connected p fd) (hfd : 0 ≤ fd)
      (hs : s.world.send p fd buf = some (ret, world)) : Move s (.send e buf) { s with world }
  | recv {e : End} {len : ℕ} {p : Pid} {fd : ℤ} {bytes : List Byte} {world : World}
      (hstatus : s.status e = .connected p fd) (hfd : 0 ≤ fd)
      (hs : s.world.recv p fd len = some (bytes, world)) : Move s (.recv e len) { s with world }
  | close {e : End} {p : Pid} {fd ret : ℤ} {world : World}
      (hstatus : s.status e = .connected p fd) (hfd : 0 ≤ fd)
      (hs : s.world.close p fd = some (ret, world)) :
      Move s (.close e) { s with world, status := Function.update s.status e .closed }
  | other {p : Pid} {fd : ℤ} {call : Call} {world : World} (hfd : 0 ≤ fd)
      (hno : s.Unconnected p fd) (hs : call.run s.world p fd = some world) :
      Move s (.other p fd call) { s with world }

theorem step_cases {a : Act} (h : s.step a = some s') : Move s a s' := by
  cases a with
  | bind p port =>
    simp only [Sys.step] at h
    split at h
    · next hguard =>
      cases h
      exact .bind hguard.1
    · cases h
  | connect p fd serverPort =>
    simp only [Sys.step] at h
    split at h
    · next hguard =>
      obtain ⟨⟨ret, world⟩, hs, rfl⟩ := Option.map_eq_some_iff.mp h
      rcases World.connect_spec hs with ⟨hret, rfl⟩ | ⟨rfl, hc⟩
      · simp only [if_neg hret]
        exact .refused hret hs
      · simp only [if_pos]
        exact .connect hguard.2.1 hguard.2.2 hs hc
    · cases h
  | accept n p fd =>
    simp only [Sys.step] at h
    split at h
    · next hwaiting =>
      obtain ⟨⟨ret, world⟩, hs, rfl⟩ := Option.map_eq_some_iff.mp h
      exact .accept hwaiting hs
    · cases h
  | send e buf =>
    obtain ⟨p, fd, hstatus, hfd, hcall⟩ := withSocket_spec h
    obtain ⟨⟨ret, world⟩, hs, rfl⟩ := Option.map_eq_some_iff.mp hcall
    exact .send hstatus hfd hs
  | recv e len =>
    obtain ⟨p, fd, hstatus, hfd, hcall⟩ := withSocket_spec h
    obtain ⟨⟨bytes, world⟩, hs, rfl⟩ := Option.map_eq_some_iff.mp hcall
    exact .recv hstatus hfd hs
  | close e =>
    obtain ⟨p, fd, hstatus, hfd, hcall⟩ := withSocket_spec h
    obtain ⟨⟨ret, world⟩, hs, rfl⟩ := Option.map_eq_some_iff.mp hcall
    exact .close hstatus hfd hs
  | other p fd call =>
    simp only [Sys.step] at h
    split at h
    · next hguard =>
      obtain ⟨world, hs, rfl⟩ := Option.map_eq_some_iff.mp h
      exact .other hguard.1 hguard.2 hs
    · cases h

/-- What `rb_get(get_idx(..))` leaves of the index tables. -/
def Opened (s s' : Rings) (c : Cell) : Prop :=
  s'.tables = (Indices.getIdx 0 s.tables c).2 ∧ s'.tables.pool.length = s.tables.pool.length

theorem rbGet_tables (s : Rings) (p : Pid) (k : ℕ) : (s.rbGet p k).tables = s.tables := by
  unfold Rings.rbGet
  split <;> rfl

theorem openRing_opened {s s' : Rings} {pair : Pair} {k : ℕ}
    (h : s.openRing p pair = some (k, s')) : Opened s s' (ShmSocket.cell p pair) := by
  obtain ⟨⟨j, s₁⟩, hget, he⟩ := Option.map_eq_some_iff.mp h
  obtain ⟨rfl, rfl⟩ := Prod.mk.inj he
  simp only [Rings.getIdx] at hget
  split at hget
  · next hlen =>
    cases hget
    unfold Opened
    rw [rbGet_tables]
    exact ⟨rfl, hlen⟩
  · cases hget

/-- Nobody has done anything yet. -/
def blank : Sys where
  world := Net.blank.world
  count := 0
  port := fun _ => 0
  status := fun _ => .unused

theorem blank_init : machine.init blank :=
  ⟨⟨fun _ => 0, rfl⟩, fun _ => rfl, fun _ => rfl, fun _ => rfl, rfl, fun _ => rfl⟩

end ShmSocket.Session
