import ShmSocket.Connection.Calls
import ShmSocket.Lib.StepMachine

/-! Connections set up by `bind`, `connect` and `accept` and never closed. The two
directions of a connection are named by the end that sends; the ports that the calls
compute from descriptors do not occur in what is stated about them. -/
namespace ShmSocket.Net
open StepMachine PortTable

inductive Side where
  | client | server
  deriving DecidableEq

def Side.other : Side → Side
  | .client => .server
  | .server => .client

/-- A successful `connect`, and the process and descriptor of the `accept` that answered
it. -/
structure Link where
  clientPid : Pid
  clientFd : ℕ
  serverPort : ℕ
  clientPort : ℕ
  server : Option (Pid × ℤ)

/-- An end of a connection, also the direction from this end to the other. -/
abbrev End := ℕ × Side

/-- `sent e` are the bytes accepted by the calls of `send` at `e`, and `received e` the
bytes returned by `recv` at the other end. -/
structure Sys where
  world : World
  links : List Link
  sent : End → List Byte
  received : End → List Byte

inductive Act where
  | bind (p : Pid) (port : ℕ)
  | connect (p : Pid) (fd serverPort : ℕ)
  | accept (n : ℕ) (p : Pid) (fd : ℤ)
  | send (e : End) (buf : List Byte)
  | recv (e : End) (len : ℕ)

/-- The other end. -/
def peer (e : End) : End := (e.1, e.2.other)

/-- The process and the descriptor of one side. -/
def Link.socket (l : Link) : Side → Option (Pid × ℤ)
  | .client => some (l.clientPid, l.clientFd)
  | .server => l.server

namespace Sys

def socket (s : Sys) (e : End) : Option (Pid × ℤ) := (s.links[e.1]?).bind (·.socket e.2)

/-- `accept` answers the `connect` of its label, and each `connect` is answered once. -/
def step (s : Sys) : Act → Option Sys
  | .bind p port => some { s with world := (s.world.bind p port).2 }
  | .connect p fd serverPort =>
      (s.world.connect p fd serverPort).map fun (ret, world) =>
        if ret = 0 then
          { s with
            world
            links := s.links ++
              [⟨p, fd, serverPort, localPort (world.clientFdToIdx (p, fd)), none⟩] }
        else { s with world }
  | .accept n p fd =>
      (s.links[n]?).bind fun l =>
        if l.server = none then
          (s.world.accept p fd l.serverPort).map fun (ret, world) =>
            { s with world, links := s.links.set n { l with server := some (p, ret) } }
        else none
  | .send e buf =>
      (s.socket e).bind fun (p, fd) =>
        (s.world.send p fd buf).map fun (ret, world) =>
          { s with world, sent := Function.update s.sent e (s.sent e ++ buf.take ret.toNat) }
  | .recv e len =>
      (s.socket e).bind fun (p, fd) =>
        (s.world.recv p fd len).map fun (bytes, world) =>
          { s with
            world
            received := Function.update s.received (peer e) (s.received (peer e) ++ bytes) }

/-- The bytes on their way in a direction. -/
def inFlight (s : Sys) (e : End) : List Byte := (s.sent e).drop (s.received e).length

end Sys

/-- Empty tables, a pool of one channel, no attached rings. -/
def machine : StepMachine Sys Act where
  init s := (∃ a : Address, s.world.rings.tables = ⟨[a.init], fun _ => 0⟩) ∧
    (∀ seg, s.world.rings.nattch seg = 0) ∧ (∀ h, s.world.rings.memo h = false) ∧
    (∀ port, s.world.portTable port = 0) ∧ s.links = [] ∧ (∀ e, s.sent e = []) ∧
    ∀ e, s.received e = []
  step := Sys.step

/-- Ports are in range, a client descriptor is connected once, and client ports stay below
`2 ^ 15`. -/
def Domain (s : Sys) : Act → Prop
  | .bind _ port => 1 ≤ port ∧ port < portNumber
  | .connect p fd port => fd < 1024 ∧ 1 ≤ port ∧ port < portNumber ∧
      getFreePort s.world.portTable < 2 ^ 15 ∧
      ∀ l ∈ s.links, (l.clientPid, l.clientFd) ≠ (p, fd)
  | .accept _ _ _ => True
  | .send _ buf => 0 < buf.length ∧ buf.length < 2 ^ 31
  | .recv _ len => 0 < len ∧ len < 2 ^ 31

/-- Nobody has done anything yet. -/
def blank : Sys where
  world :=
    { rings := ⟨⟨[freshChannel], fun _ => 0⟩, fun _ => Ring.zero, fun _ => 0, fun _ => false⟩
      portTable := fun _ => 0
      clientFdToIdx := fun _ => 0 }
  links := []
  sent := fun _ => []
  received := fun _ => []

theorem blank_init : machine.init blank :=
  ⟨⟨fun _ => 0, rfl⟩, fun _ => rfl, fun _ => rfl, fun _ => rfl, rfl, fun _ => rfl, fun _ => rfl⟩

end ShmSocket.Net
