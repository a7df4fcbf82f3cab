import ShmSocket.Connection.Capacity
import ShmSocket.Lib.Refinement

/-! What the socket calls are for, without shared memory: a set of listening ports, and a
bounded queue of bytes for each end of a connection. The calls of `socket.c` refine it. -/
namespace ShmSocket.Session
open StepMachine PortTable
open Net (Side End peer)

@[ext] structure Sockets where
  listening : Set ℕ
  count : ℕ
  port : End → ℕ
  status : End → Status
  queue : End → List Byte

/-- A call with what it returned. There are no sockets for `other`, a call with a descriptor
that no end has. -/
inductive Event where
  | bind (port : ℕ) (ret : ℤ)
  | connect (p : Pid) (fd serverPort : ℕ) (ret : ℤ)
  | accept (n : ℕ) (p : Pid) (ret : ℤ)
  | send (e : End) (buf : List Byte) (ret : ℤ)
  | recv (e : End) (len : ℕ) (bytes : List Byte)
  | close (e : End) (ret : ℤ)
  | other (p : Pid) (fd : ℤ) (call : Call)

namespace Sockets

def InUse (n : Sockets) (port : ℕ) : Prop :=
  port ∈ n.listening ∨ ∃ e, (n.status e).Open ∧ n.port e = port

/-- The room in the queue of an end. -/
def room (n : Sockets) (e : End) : ℕ := shmDataSize - 1 - (n.queue e).length

/-- The descriptor that `accept` makes of the ports of a connection. -/
def descriptor (n : Sockets) (i : ℕ) : ℤ := packPorts (n.port (i, .client)) (n.port (i, .server))

/-- A client with port `clientPort` takes the place of the listener. -/
def connected (n : Sockets) (p : Pid) (fd serverPort clientPort : ℕ) : Sockets where
  listening := n.listening \ {serverPort}
  count := n.count + 1
  port := Function.update (Function.update n.port (n.count, .client) clientPort)
    (n.count, .server) serverPort
  status := Function.update
    (Function.update (fun e => if n.status e = .connected p fd then .lost p else n.status e)
      (n.count, .client) (.connected p fd))
    (n.count, .server) .waiting
  queue := Function.update (Function.update n.queue (n.count, .client) []) (n.count, .server) []

@[simp] theorem connected_queue_new (n : Sockets) (p : Pid) (fd serverPort clientPort : ℕ)
    (side : Side) : (n.connected p fd serverPort clientPort).queue (n.count, side) = [] := by
  have hne : (n.count, Side.client) ≠ (n.count, Side.server) := by simp
  simp only [connected]
  cases side
  · rw [Function.update_of_ne hne, Function.update_self]
  · rw [Function.update_self]

theorem connected_queue_old {n : Sockets} {e : End} (he : e.1 ≠ n.count) (p : Pid)
    (fd serverPort clientPort : ℕ) :
    (n.connected p fd serverPort clientPort).queue e = n.queue e := by
  have hclient : e ≠ (n.count, .client) := fun h => he (h ▸ rfl)
  have hserver : e ≠ (n.count, .server) := fun h => he (h ▸ rfl)
  simp only [connected]
  rw [Function.update_of_ne hserver, Function.update_of_ne hclient]

def setQueue (n : Sockets) (e : End) (bytes : List Byte) : Sockets :=
  { n with queue := Function.update n.queue e bytes }

inductive Step (n : Sockets) : Event → Sockets → Prop
  | bind {port : ℕ} (hfree : ¬ n.InUse port) :
      Step n (.bind port 0) { n with listening := insert port n.listening }
  | bindUsed {port : ℕ} (hused : n.InUse port) : Step n (.bind port (-1)) n
  | connect {p : Pid} {fd serverPort clientPort : ℕ} (hlistening : serverPort ∈ n.listening)
      (hclient : 0 < clientPort ∧ clientPort < portNumber) (hfree : ¬ n.InUse clientPort) :
      Step n (.connect p fd serverPort 0) (n.connected p fd serverPort clientPort)
  /-- Another client has the port, or no port is left. -/
  | refused {p : Pid} {fd serverPort : ℕ} (hused : n.InUse serverPort)
      (hwhy : serverPort ∉ n.listening ∨
        ∀ port, 0 < port → port < portNumber → n.InUse port) :
      Step n (.connect p fd serverPort (-1)) n
  | noServer {p : Pid} {fd serverPort : ℕ} (hfree : ¬ n.InUse serverPort) :
      Step n (.connect p fd serverPort (-2)) n
  | accept {i : ℕ} {p : Pid} (hwaiting : n.status (i, .server) = .waiting) :
      Step n (.accept i p (n.descriptor i)) { n with
        status := Function.update n.status (i, .server) (.connected p (n.descriptor i)) }
  | send {e : End} {buf : List Byte} {p : Pid} {fd : ℤ} (hstatus : n.status e = .connected p fd) :
      Step n (.send e buf ((min buf.length (n.room (peer e)) : ℕ) : ℤ))
        (n.setQueue (peer e) (n.queue (peer e) ++ buf.take (n.room (peer e))))
  /-- Nothing is returned only after the other end has given its port up. -/
  | recv {e : End} {len : ℕ} {p : Pid} {fd : ℤ} (hstatus : n.status e = .connected p fd)
      (hend : (n.queue e).take len = [] → ¬ n.InUse (n.port (peer e))) :
      Step n (.recv e len ((n.queue e).take len)) (n.setQueue e ((n.queue e).drop len))
  | close {e : End} {p : Pid} {fd : ℤ} (hstatus : n.status e = .connected p fd) :
      Step n (.close e 0) { n with status := Function.update n.status e .closed }

/-- Nobody has done anything. -/
def spec : Spec Sockets Event where
  init n := n.listening = ∅ ∧ n.count = 0 ∧ (∀ e, n.status e = .unused) ∧ ∀ e, n.queue e = []
  step := Step

end Sockets

namespace Sys

/-- What a call with the descriptor of an end returns. -/
def result {β : Type} (s : Sys) (e : End) (f : Pid → ℤ → Option (β × World)) : Option β :=
  match s.status e with
  | .connected p fd => (f p fd).map Prod.fst
  | _ => none

/-- What the call of a step returns. -/
def event (s : Sys) : Act → Event
  | .bind p port => .bind port (s.world.bind p port).1
  | .connect p fd serverPort =>
      .connect p fd serverPort ((s.world.connect p fd serverPort).elim 0 Prod.fst)
  | .accept n p fd =>
      .accept n p ((s.world.accept p fd (s.port (n, .server))).elim 0 Prod.fst)
  | .send e buf => .send e buf ((s.result e fun p fd => s.world.send p fd buf).getD 0)
  | .recv e len => .recv e len ((s.result e fun p fd => s.world.recv p fd len).getD [])
  | .close e => .close e ((s.result e fun p fd => s.world.close p fd).getD 0)
  | .other p fd call => .other p fd call

/-- The sockets that the words, indices and rings stand for. -/
noncomputable def sockets (s : Sys) : Sockets where
  listening := {port | Listening s.world port}
  count := s.count
  port := s.port
  status := s.status
  queue e := if (s.status e).Open then s.world.rings.pending (s.cell e) else []

end Sys

variable {s : Sys} {t t' : Traffic} {a : Act} {e : End} {p : Pid} {fd : ℤ}

theorem inUse_iff (h : Inv s) (port : ℕ) :
    s.sockets.InUse port ↔ s.world.portTable port ≠ 0 := (h.owned_iff port).symm

theorem queue_open (he : (s.status e).Open) :
    s.sockets.queue e = s.world.rings.pending (s.cell e) := if_pos he

/-- `recv` returns no bytes only when the port of the other end is free. -/
theorem recv_nil {w w' : World} {len : ℕ} (hs : w.recv p fd len = some ([], w')) :
    w.portTable (remotePort (w.portsOf p fd)) = 0 := by
  obtain ⟨⟨k, r⟩, -, hrest⟩ := Option.bind_eq_some_iff.mp hs
  simp only at hrest
  split at hrest
  · next hne =>
    exact absurd (Prod.mk.inj (Option.some.inj hrest)).1 hne
  · split at hrest
    · next hfree => exact hfree
    · cases hrest

/-- A step that changes no word moves no byte and opens or closes no end. -/
theorem sockets_eq {s' : Sys} (hword : s'.world.portTable = s.world.portTable)
    (hcount : s'.count = s.count) (hport : s'.port = s.port)
    (hopen : ∀ e, (s'.status e).Open ↔ (s.status e).Open)
    (hpending : s'.world.rings.pending = s.world.rings.pending) :
    s'.sockets = { s.sockets with status := s'.status } := by
  refine Sockets.ext ?_ hcount hport rfl ?_
  · exact Set.ext fun port => by
      change Listening s'.world port ↔ Listening s.world port
      unfold Listening
      rw [hword]
  · funext e
    have hcell : s'.cell e = s.cell e := by rw [Sys.cell, Sys.cell, hport]
    change (if (s'.status e).Open then s'.world.rings.pending (s'.cell e) else []) = _
    rw [hpending, hcell]
    exact if_congr (hopen e) rfl rfl

/-- `bind` fails exactly when its port is in use. -/
theorem bind_refines {port : ℕ} (h : Inv s) (hp : IsPid p) :
    Sockets.Step s.sockets (.bind port (s.world.bind p port).1)
      ({ s with world := (s.world.bind p port).2 } : Sys).sockets := by
  by_cases hword : s.world.portTable port = 0
  · have hbind : s.world.bind p port = (0, { s.world with
        portTable := Function.update s.world.portTable port p }) := if_neg (not_not.mpr hword)
    rw [hbind]
    have hsockets : ({ s with world := { s.world with
        portTable := Function.update s.world.portTable port p } } : Sys).sockets =
        { s.sockets with listening := insert port s.sockets.listening } := by
      refine Sockets.ext (Set.ext fun q => ?_) rfl rfl rfl rfl
      change Listening _ q ↔ q = port ∨ Listening s.world q
      by_cases hq : q = port
      · subst hq
        refine iff_of_true ?_ (.inl rfl)
        change 0 < u32 (Function.update s.world.portTable q (p : ℤ) q) ∧
          u32 (Function.update s.world.portTable q (p : ℤ) q) < 2 ^ maxPidBits
        rw [Function.update_self, u32_natCast (hp.2.trans (by decide))]
        exact hp
      · have hsame : Function.update s.world.portTable port (p : ℤ) q = s.world.portTable q :=
          Function.update_of_ne hq _ _
        exact ⟨fun hl => .inr (hl.congr hsame.symm),
          fun hl => (hl.resolve_left hq).congr hsame⟩
    rw [hsockets]
    exact .bind fun hused => (inUse_iff h port).mp hused hword
  · have hbind : s.world.bind p port = (-1, s.world) := if_pos hword
    rw [hbind]
    exact .bindUsed ((inUse_iff h port).mpr hword)

/-- What a refused `connect` has met. -/
theorem refused_refines {fd serverPort : ℕ} {ret : ℤ} {world : World} (h : Inv s)
    (hint : ∀ port, IsInt (s.world.portTable port))
    (hs : s.world.connect p fd serverPort = some (ret, world)) (hret : ret ≠ 0) :
    Sockets.Step s.sockets (.connect p fd serverPort ret) s.sockets := by
  simp only [World.connect] at hs
  split at hs
  · next hwon =>
    cases hs
    refine .refused ((inUse_iff h serverPort).mpr fun hz => ?_) (.inl fun hl => ?_)
    · rw [hz] at hwon
      exact absurd hwon (by decide)
    · exact absurd hl.2 (not_lt.mpr hwon)
  · next hunwon =>
    split at hs
    · next hzero =>
      cases hs
      refine .noServer fun hused => (inUse_iff h serverPort).mp hused ?_
      rw [← hint serverPort, hzero]
      rfl
    · next hpid =>
      have hused : s.sockets.InUse serverPort := (inUse_iff h serverPort).mpr fun hz => by
        rw [hz] at hpid
        exact hpid rfl
      split at hs
      · next hnone =>
        cases hs
        refine .refused hused (.inr fun port hpos hlt => (inUse_iff h port).mpr fun hz => ?_)
        exact (getFreePort_ne_zero s.world.portTable).mpr ⟨port, hpos, hlt, hz⟩ hnone
      · next hclient =>
        split at hs
        · obtain ⟨r, -, he⟩ := Option.map_eq_some_iff.mp hs
          exact absurd (Prod.mk.inj he).1.symm hret
        · next hswap =>
          -- the word is still what was loaded, so the swap cannot have failed
          refine absurd ?_ hswap
          have hne : serverPort ≠ getFreePort s.world.portTable := fun he => by
            have hfree := (getFreePort_free hclient).1
            rw [← he] at hfree
            rw [hfree] at hpid
            exact hpid rfl
          rw [Function.update_of_ne hne, hint serverPort]

/-- The listener's port is no longer listened at, and the client's never was. -/
theorem listening_joined {serverPort clientPort port : ℕ} {clientFd : ℕ} {world : World}
    (hj : Joins s p clientFd serverPort clientPort world) :
    Listening world port ↔ Listening s.world port ∧ port ≠ serverPort := by
  by_cases hclient : port = clientPort
  · have hword : world.portTable port = -1 := by
      rw [hj.portTable, hclient, Function.update_self]
    refine iff_of_false (fun hl => ?_) fun hl => ?_
    · unfold Listening at hl
      rw [hword] at hl
      exact absurd hl.2 (by decide)
    · have hpos := hl.1.1
      rw [hclient, hj.free] at hpos
      exact absurd hpos (by decide)
  by_cases hserver : port = serverPort
  · have hword : world.portTable port = taken clientPort := by
      rw [hj.portTable, Function.update_of_ne hclient, hserver, Function.update_self]
    refine iff_of_false (fun hl => ?_) fun hl => hl.2 hserver
    unfold Listening at hl
    rw [hword, World.u32_taken hj.client] at hl
    exact absurd hl.2 (not_lt.mpr (taken_ge clientPort))
  · have hword : world.portTable port = s.world.portTable port := by
      rw [hj.portTable, Function.update_of_ne hclient, Function.update_of_ne hserver]
    exact ⟨fun hl => ⟨hl.congr hword.symm, hserver⟩, fun hl => hl.1.congr hword⟩

/-- A successful `connect` takes the listener's place. -/
theorem connect_refines {clientFd serverPort : ℕ} {world : World} (h : Streams t)
    (hj : Joins t.sys p clientFd serverPort (getFreePort t.sys.world.portTable) world)
    (hpending : world.rings.pending = t.sys.world.rings.pending)
    (h' : Streams ⟨t.sys.established p clientFd serverPort world, t.sent, t.received⟩) :
    Sockets.Step t.sys.sockets (.connect p clientFd serverPort 0)
      (t.sys.established p clientFd serverPort world).sockets := by
  have hsockets : (t.sys.established p clientFd serverPort world).sockets =
      t.sys.sockets.connected p clientFd serverPort (getFreePort t.sys.world.portTable) := by
    refine Sockets.ext (Set.ext fun port => listening_joined hj) rfl ?_ rfl ?_
    · change Function.update (Function.update t.sys.port (t.sys.count, .client)
        (localPort (world.clientFdToIdx (p, clientFd)))) _ _ = _
      rw [← established_client, hj.localEnd]
      rfl
    · funext e
      by_cases he : e.1 = t.sys.count
      · -- nothing has been sent to the new ends
        have hempty : (t.sys.established p clientFd serverPort world).sockets.queue e = [] := by
          obtain ⟨-, hreceived⟩ := h.fresh e he.ge
          obtain ⟨hsent, -⟩ := h.fresh (peer e) he.ge
          change (if _ then _ else _) = _
          split_ifs with hopen
          · have hflow := h'.flow e hopen
            rw [hreceived, hsent] at hflow
            exact hflow
          · rfl
        rw [hempty]
        obtain ⟨n, side⟩ := e
        obtain rfl : n = t.sys.count := he
        exact (t.sys.sockets.connected_queue_new _ _ _ _ side).symm
      · have hpeer : (peer e).1 ≠ t.sys.count := he
        have hcell : (t.sys.established p clientFd serverPort world).cell e = t.sys.cell e := by
          rw [Sys.cell, Sys.cell, established_port he, established_port hpeer]
        rw [Sockets.connected_queue_old he]
        change (if _ then world.rings.pending _ else _) = _
        rw [hcell, hpending]
        exact if_congr (established_open he) rfl rfl
  rw [hsockets]
  exact .connect hj.listening ⟨hj.clientPos, hj.client⟩
    fun hused => (inUse_iff h.ports.inv _).mp hused hj.free

/-- A step that changes the ring of one open end. -/
theorem sockets_setQueue {world : World} {bytes : List Byte} (h : Ported s)
    (hopen : (s.status e).Open) (htable : world.portTable = s.world.portTable)
    (hpending : world.rings.pending = Function.update s.world.rings.pending (s.cell e) bytes) :
    ({ s with world } : Sys).sockets = s.sockets.setQueue e bytes := by
  refine Sockets.ext (Set.ext fun port => ?_) rfl rfl rfl (funext fun d => ?_)
  · exact ⟨fun hl => hl.congr (congrFun htable.symm port),
      fun hl => hl.congr (congrFun htable port)⟩
  · change (if (s.status d).Open then world.rings.pending (s.cell d) else []) =
      Function.update s.sockets.queue e bytes d
    rw [hpending]
    by_cases hd : d = e
    · rw [hd, if_pos hopen, Function.update_self, Function.update_self]
    · rw [Function.update_of_ne hd]
      refine if_ctx_congr Iff.rfl (fun hopen' => Function.update_of_ne (fun hc => ?_) _ _)
        fun _ => rfl
      exact hd (h.cell_inj hopen' hopen hc)

/-- `send` fills the queue of the other end, which is open. -/
theorem send_refines {buf : List Byte} {ret : ℤ} {world : World} (h : Streams t)
    (hstatus : t.sys.status e = .connected p fd) (hpeer : (t.sys.status (peer e)).Open)
    (hfd : 0 ≤ fd) (hs : t.sys.world.send p fd buf = some (ret, world)) :
    Sockets.Step t.sys.sockets (.send e buf ret) ({ t.sys with world } : Sys).sockets := by
  obtain ⟨ls, hrings⟩ := h.rings
  obtain ⟨hret, -, hpending, htable, -⟩ := World.send_spec hrings hs
    (h.ports.sendCell hstatus hfd)
  have hroom : t.sys.sockets.room (peer e) =
      shmDataSize - 1 - (t.sys.world.rings.pending (t.sys.cell (peer e))).length := by
    rw [Sockets.room, queue_open hpeer]
  rw [sockets_setQueue h.ports hpeer htable hpending, hret, ← hroom, ← queue_open hpeer]
  exact .send hstatus

/-- `recv` takes from the queue of its end, and returns nothing only at the end of it. -/
theorem recv_refines {len : ℕ} {bytes : List Byte} {world : World} (h : Streams t)
    (hstatus : t.sys.status e = .connected p fd) (hfd : 0 ≤ fd)
    (hs : t.sys.world.recv p fd len = some (bytes, world)) :
    Sockets.Step t.sys.sockets (.recv e len bytes) ({ t.sys with world } : Sys).sockets := by
  obtain ⟨ls, hrings⟩ := h.rings
  have hopen := open_of_connected hstatus
  obtain ⟨hbytes, -, hpending⟩ := recv_takes hrings hs (h.ports.recvCell hstatus hfd)
  have hqueue := queue_open hopen
  rw [sockets_setQueue h.ports hopen (recv_opens hs).portTable hpending, hbytes, ← hqueue]
  refine .recv hstatus fun hempty hused => (inUse_iff h.ports.inv _).mp hused ?_
  rw [hqueue, ← hbytes] at hempty
  rw [hempty] at hs
  have hfree := recv_nil hs
  rwa [h.ports.inv.remotePort_eq hstatus hfd] at hfree

/-- `close` gives up an end with an empty queue. -/
theorem close_refines {ret : ℤ} {world : World} (h : Streams t)
    (hstatus : t.sys.status e = .connected p fd) (hfd : 0 ≤ fd)
    (hempty : t.sys.world.rings.pending (t.sys.cell e) = [])
    (hs : t.sys.world.close p fd = some (ret, world)) :
    Sockets.Step t.sys.sockets (.close e ret)
      ({ t.sys with world, status := Function.update t.sys.status e .closed } : Sys).sockets := by
  obtain ⟨ls, hrings⟩ := h.rings
  have hopen := open_of_connected hstatus
  have htable := (close_changes hs).2.1
  rw [h.ports.inv.localPort_eq hstatus hfd] at htable
  obtain ⟨rings, hring, he⟩ := Option.map_eq_some_iff.mp hs
  obtain ⟨rfl, rfl⟩ := Prod.mk.inj he
  have hcell := h.ports.recvCell hstatus hfd
  obtain ⟨-, -, -, hsame⟩ := hrings.closeRing hring (by rw [hcell]; exact hempty)
  have hsockets : ({ t.sys with
      world := { t.sys.world with
        rings, portTable := Function.update t.sys.world.portTable
          (localPort (t.sys.world.portsOf p fd)) 0 }
      status := Function.update t.sys.status e .closed } : Sys).sockets =
      { t.sys.sockets with status := Function.update t.sys.status e .closed } := by
    refine Sockets.ext (Set.ext fun port => ?_) rfl rfl rfl (funext fun d => ?_)
    · rw [h.ports.inv.localPort_eq hstatus hfd]
      by_cases hport : port = t.sys.port e
      · -- the port of an open end has no listener, and now it is free
        subst hport
        refine iff_of_false (fun hl => ?_) fun hl => ?_
        · have hpos := hl.1
          simp only [Function.update_self] at hpos
          exact absurd hpos (by decide)
        · exact absurd hl.2 (not_lt.mpr (h.ports.inv.word_ge hopen))
      · have hword : Function.update t.sys.world.portTable (t.sys.port e) 0 port =
            t.sys.world.portTable port := Function.update_of_ne hport _ _
        exact ⟨fun hl => hl.congr hword.symm, fun hl => hl.congr hword⟩
    · change (if (Function.update t.sys.status e .closed d).Open then
        rings.pending (t.sys.cell d) else []) =
          if (t.sys.status d).Open then t.sys.world.rings.pending (t.sys.cell d) else []
      rw [hsame]
      by_cases hd : d = e
      · subst hd
        rw [hempty, ite_self, ite_self]
      · rw [Function.update_of_ne hd]
  rw [hsockets]
  exact .close hstatus

/-- `accept` makes its descriptor of the ports of the connection. -/
theorem accept_refines {n : ℕ} {ret : ℤ} {world : World} (h : Streams t)
    (hwaiting : t.sys.status (n, .server) = .waiting)
    (hs : t.sys.world.accept p fd (t.sys.port (n, .server)) = some (ret, world)) :
    Sockets.Step t.sys.sockets (.accept n p ret) ({ t.sys with
      world
      status := Function.update t.sys.status (n, .server) (.connected p ret) } : Sys).sockets := by
  obtain ⟨ls, hrings⟩ := h.rings
  have hopen : (t.sys.status (n, .server)).Open := hwaiting ▸ trivial
  obtain ⟨ho, hret⟩ := accept_opens hs
  obtain ⟨⟨k, rings⟩, hring, he⟩ := Option.map_eq_some_iff.mp hs
  obtain ⟨-, rfl⟩ := Prod.mk.inj he
  obtain ⟨-, -, -, -, -, hsame⟩ := hrings.openRing hring
  have hused : n < t.sys.count := h.ports.inv.used hopen
  have hclient := h.ports.inv.range (n, .client) hused
  have hdescriptor : ret = t.sys.sockets.descriptor n := by
    rw [hret, h.ports.inv.word _ hopen, Sys.word, World.u32_taken hclient, taken_and hclient]
    rfl
  have hstatus : ∀ e, (Function.update t.sys.status (n, .server) (.connected p ret) e).Open ↔
      (t.sys.status e).Open := fun e => by
    by_cases hen : e = (n, .server)
    · rw [hen, Function.update_self]
      exact iff_of_true trivial hopen
    · rw [Function.update_of_ne hen]
  have hsockets : ({ t.sys with
      world := { t.sys.world with rings }
      status := Function.update t.sys.status (n, .server) (.connected p ret) } : Sys).sockets =
      { t.sys.sockets with
        status := Function.update t.sys.status (n, .server) (.connected p ret) } :=
    sockets_eq rfl rfl rfl hstatus (funext hsame)
  rw [hsockets, hdescriptor]
  exact .accept hwaiting

/-- All that the calls return, over whole lives, is what the specification allows. -/
theorem sockets_step {t t' : Traffic} (h : Streams t)
    (hint : ∀ port, IsInt (t.sys.world.portTable port)) (hc : Orderly t a)
    (hs : traffic.step t a = some t') :
    Sockets.Step t.sys.sockets (t.sys.event a) t'.sys.sockets := by
  have h' := h.step hc hs
  obtain ⟨s', hstep, rfl⟩ := Option.map_eq_some_iff.mp hs
  obtain ⟨ls, hrings⟩ := h.rings
  cases a with
  | bind p port =>
    cases step_cases hstep with
    | bind hp => exact bind_refines h.ports.inv hp
  | connect p fd serverPort =>
    simp only [Sys.step] at hstep
    split at hstep
    · next hguard =>
      obtain ⟨⟨ret, world⟩, hconnect, rfl⟩ := Option.map_eq_some_iff.mp hstep
      have hevent : t.sys.event (.connect p fd serverPort) = .connect p fd serverPort ret := by
        simp only [Sys.event, hconnect, Option.elim_some]
      rw [hevent]
      rcases World.connect_spec hconnect with ⟨hret, rfl⟩ | ⟨rfl, hcon⟩
      · simp only [if_neg hret]
        exact refused_refines h.ports.inv hint hconnect hret
      · simp only [if_pos] at h' ⊢
        obtain ⟨pair, k, hopen⟩ := hcon.rings
        obtain ⟨-, -, -, -, -, hsame⟩ := hrings.openRing hopen
        rw [show (fun e => t.sent e ++ t.sys.accepted (.connect p fd serverPort) e) = t.sent from
            funext fun e => List.append_nil _,
          show (fun e => t.received e ++ t.sys.returned (.connect p fd serverPort) e) = t.received
            from funext fun e => List.append_nil _] at h'
        exact connect_refines h (.of_connected hcon hguard.2.1 hguard.2.2) (funext hsame) h'
    · cases hstep
  | accept n p fd =>
    cases step_cases hstep with
    | @accept _ _ _ ret world hwaiting haccept =>
      have hevent : t.sys.event (.accept n p fd) = .accept n p ret := by
        simp only [Sys.event, haccept, Option.elim_some]
      rw [hevent]
      exact accept_refines h hwaiting haccept
  | send e buf =>
    cases step_cases hstep with
    | @send _ _ p fd ret world hstatus hfd hsend =>
      have hevent : t.sys.event (.send e buf) = .send e buf ret := by
        simp only [Sys.event, Sys.result, hstatus, hsend, Option.map_some, Option.getD_some]
      rw [hevent]
      exact send_refines h hstatus hc hfd hsend
  | recv e len =>
    cases step_cases hstep with
    | @recv _ _ p fd bytes world hstatus hfd hrecv =>
      have hevent : t.sys.event (.recv e len) = .recv e len bytes := by
        simp only [Sys.event, Sys.result, hstatus, hrecv, Option.map_some, Option.getD_some]
      rw [hevent]
      exact recv_refines h hstatus hfd hrecv
  | close e =>
    cases step_cases hstep with
    | @close _ p fd ret world hstatus hfd hclose =>
      have hevent : t.sys.event (.close e) = .close e ret := by
        simp only [Sys.event, Sys.result, hstatus, hclose, Option.map_some, Option.getD_some]
      rw [hevent]
      exact close_refines h hstatus hfd hc hclose
  | other => exact hc.elim

end ShmSocket.Session
