import ShmSocket.Connection.Network

/-! Isolation of connections: every direction is a queue of its own. The ring of a
direction holds the bytes that are on their way in it. -/
namespace ShmSocket.Net
open StepMachine PortTable

/-- Each direction is a queue of its own with room for `shmDataSize - 1` bytes: `send`
appends to one direction, `recv` takes from one direction, nothing else touches any.
`send` fails only when a ring must be made and the pool has no index left. -/
structure Isolated (s : Sys) : Prop where
  delivered : ∀ e, s.received e <+: s.sent e
  capacity : ∀ e, (s.inFlight e).length ≤ shmDataSize - 1
  send : ∀ e buf s', s.step (.send e buf) = some s' → s'.received = s.received ∧
    s'.sent = Function.update s.sent e
      (s.sent e ++ buf.take (shmDataSize - 1 - (s.inFlight e).length))
  recv : ∀ e len s', s.step (.recv e len) = some s' → s'.sent = s.sent ∧
    s'.received = Function.update s.received (peer e)
      (s.received (peer e) ++ (s.inFlight (peer e)).take len)
  canSend : ∀ e p fd buf, s.socket e = some (p, fd) →
    (∃ s', s.step (.send e buf) = some s') ∨
      ∀ k, IsIndex k → ∃ c, s.world.rings.tables.table c = k
  canRecv : ∀ e p fd len, s.socket e = some (p, fd) → 0 < len → s.inFlight (peer e) ≠ [] →
    ∃ s', s.step (.recv e len) = some s'

/-- The table entry of the ring for what one side sends. -/
def Link.pair (l : Link) : Side → Pair
  | .client => (l.clientPort, l.serverPort)
  | .server => (l.serverPort, l.clientPort)

/-- The table entry of a pair with a source port other than 0. -/
def Link.cell (l : Link) (side : Side) : Cell := ShmSocket.cell 0 (l.pair side)

/-- A connection owns its two ports, and both descriptors pack them. -/
structure LinkOk (w : World) (l : Link) : Prop where
  serverPos : 0 < l.serverPort
  serverLt : l.serverPort < portNumber
  clientPos : 0 < l.clientPort
  clientLt : l.clientPort < 2 ^ 15
  fdLt : l.clientFd < 1024
  serverWord : w.portTable l.serverPort = taken l.clientPort
  clientWord : w.portTable l.clientPort = -1
  clientIdx : w.clientFdToIdx (l.clientPid, l.clientFd) = packPorts l.serverPort l.clientPort
  serverFd : ∀ p fd, l.server = some (p, fd) → fd = packPorts l.clientPort l.serverPort

/-- The ring of a direction holds the bytes on their way, and rings of no direction are
empty. -/
structure NetInv (s : Sys) : Prop where
  rings : ∃ ls, RingsInv s.world.rings ls
  links : ∀ (n : ℕ) l, s.links[n]? = some l → LinkOk s.world l
  distinct : ∀ (n m : ℕ) l l', s.links[n]? = some l → s.links[m]? = some l' →
    l.serverPort = l'.serverPort ∨ l.clientPort = l'.clientPort → n = m
  flow : ∀ (n : ℕ) side l, s.links[n]? = some l →
    s.received (n, side) ++ s.world.rings.pending (l.cell side) = s.sent (n, side)
  absent : ∀ (n : ℕ) side, s.links[n]? = none → s.sent (n, side) = [] ∧ s.received (n, side) = []
  quiet : ∀ c, (∀ (n : ℕ) side l, s.links[n]? = some l → c ≠ l.cell side) →
    s.world.rings.pending c = []

variable {s s' : Sys} {w : World} {l : Link} {n : ℕ} {side : Side} {e : End} {p : Pid} {fd : ℤ}

theorem LinkOk.clientLt' (h : LinkOk w l) : l.clientPort < portNumber :=
  h.clientLt.trans (by decide)

theorem LinkOk.pair_ne (h : LinkOk w l) (side : Side) : (l.pair side).1 ≠ 0 := by
  cases side with
  | client => exact h.clientPos.ne'
  | server => exact h.serverPos.ne'

/-- The calls of one side compute the pair of its direction, in this order for `send` and
crossed for `recv`. -/
theorem LinkOk.ports (h : LinkOk w l) (hsocket : l.socket side = some (p, fd)) :
    localPort (w.portsOf p fd) = (l.pair side).1 ∧
      remotePort (w.portsOf p fd) = (l.pair side).2 := by
  cases side with
  | client =>
    obtain ⟨rfl, rfl⟩ := Prod.mk.inj (Option.some.inj hsocket)
    have hfd : ((l.clientFd : ℕ) : ℤ) < 1024 := by
      have := h.fdLt
      omega
    rw [World.portsOf, if_pos hfd, h.clientIdx,
      localPort_pack h.serverLt h.clientLt', remotePort_pack h.serverLt h.clientLt']
    exact ⟨rfl, rfl⟩
  | server =>
    have hfd := h.serverFd p fd hsocket
    have hge := packPorts_ge h.clientLt h.clientPos h.serverLt
    rw [World.portsOf, if_neg (by omega), hfd, localPort_pack h.clientLt' h.serverLt,
      remotePort_pack h.clientLt' h.serverLt]
    exact ⟨rfl, rfl⟩

/-- The port of the other end is in use. -/
theorem LinkOk.remoteWord_ne (h : LinkOk w l) (hsocket : l.socket side = some (p, fd)) :
    w.portTable (remotePort (w.portsOf p fd)) ≠ 0 := by
  obtain ⟨-, hremote⟩ := h.ports hsocket
  rw [hremote]
  cases side with
  | client =>
    rw [Link.pair, h.serverWord]
    exact taken_ne_zero _
  | server =>
    rw [Link.pair, h.clientWord]
    decide

theorem pair_other (l : Link) (side : Side) :
    l.pair side.other = ((l.pair side).2, (l.pair side).1) := by
  cases side <;> rfl

theorem cell_of_socket (h : LinkOk w l) (hsocket : l.socket side = some (p, fd)) (q : Pid) :
    ShmSocket.cell q (localPort (w.portsOf p fd), remotePort (w.portsOf p fd)) = l.cell side := by
  obtain ⟨hlocal, hremote⟩ := h.ports hsocket
  rw [hlocal, hremote]
  exact cell_shared q 0 (h.pair_ne side)

theorem cell_of_socket_other (h : LinkOk w l) (hsocket : l.socket side = some (p, fd)) (q : Pid) :
    ShmSocket.cell q (remotePort (w.portsOf p fd), localPort (w.portsOf p fd)) =
      l.cell side.other := by
  obtain ⟨hlocal, hremote⟩ := h.ports hsocket
  rw [hlocal, hremote, Link.cell, pair_other]
  have hne := h.pair_ne side.other
  rw [pair_other] at hne
  exact cell_shared q 0 hne

namespace NetInv

/-- Different directions have different table entries. -/
theorem cell_inj (h : NetInv s) {m : ℕ} {l' : Link} {side' : Side} (hl : s.links[n]? = some l)
    (hl' : s.links[m]? = some l') (hc : l.cell side = l'.cell side') :
    n = m ∧ side = side' := by
  have hok := h.links n l hl
  have hok' := h.links m l' hl'
  obtain ⟨hfst, hsnd⟩ := Prod.mk.inj (cell_pair hc)
  have hcross : ∀ {l l' : Link}, LinkOk s.world l → LinkOk s.world l' →
      l.clientPort ≠ l'.serverPort := by
    intro l l' hok hok' he
    have hword := hok.clientWord
    rw [he, hok'.serverWord] at hword
    omega
  cases side <;> cases side'
  · exact ⟨h.distinct n m l l' hl hl' (.inr hfst), rfl⟩
  · exact absurd hfst (hcross hok hok')
  · exact absurd hfst.symm (hcross hok' hok)
  · exact ⟨h.distinct n m l l' hl hl' (.inl hfst), rfl⟩

theorem inFlight_eq (h : NetInv s) (hl : s.links[n]? = some l) :
    s.inFlight (n, side) = s.world.rings.pending (l.cell side) := by
  rw [Sys.inFlight, ← h.flow n side l hl, List.drop_left]

theorem inFlight_absent (h : NetInv s) (hl : s.links[n]? = none) : s.inFlight (n, side) = [] := by
  rw [Sys.inFlight, (h.absent n side hl).1, List.drop_nil]

/-- The descriptor of an end belongs to its connection. -/
theorem link_of_socket (hs : s.socket e = some (p, fd)) :
    ∃ l, s.links[e.1]? = some l ∧ l.socket e.2 = some (p, fd) := by
  obtain ⟨l, hl, hsocket⟩ := Option.bind_eq_some_iff.mp hs
  exact ⟨l, hl, hsocket⟩

theorem start (h : machine.init s) : NetInv s := by
  obtain ⟨⟨a, htables⟩, hnattch, hmemo, hports, hlinks, hsent, hreceived⟩ := h
  have hnone : ∀ n, s.links[n]? = none := fun n => by rw [hlinks, List.getElem?_nil]
  constructor
  · exact ⟨_, .start htables hnattch hmemo⟩
  · intro n l hl
    rw [hnone] at hl
    cases hl
  · intro n m l l' hl
    rw [hnone] at hl
    cases hl
  · intro n side l hl
    rw [hnone] at hl
    cases hl
  · exact fun n side _ => ⟨hsent _, hreceived _⟩
  · intro c _
    rw [Rings.pending, htables, if_pos rfl]

/-- An operation that leaves the rings of all directions, the links and the history. -/
theorem of_world (h : NetInv s) {world : World} (hrings : ∃ ls, RingsInv world.rings ls)
    (hlinks : ∀ l, LinkOk s.world l → LinkOk world l)
    (hpending : ∀ c, world.rings.pending c = s.world.rings.pending c) :
    NetInv { s with world } where
  rings := hrings
  links := fun n l hl => hlinks l (h.links n l hl)
  distinct := h.distinct
  flow := by
    intro n side l hl
    change s.received (n, side) ++ world.rings.pending (l.cell side) = s.sent (n, side)
    rw [hpending]
    exact h.flow n side l hl
  absent := h.absent
  quiet := by
    intro c hc
    exact (hpending c).trans (h.quiet c hc)

end NetInv

/-- The ports of a connection neither listen nor are free. -/
theorem LinkOk.ports_ne {port : ℕ} (h : LinkOk w l)
    (hport : u32 (w.portTable port) < 2 ^ maxPidBits) :
    l.serverPort ≠ port ∧ l.clientPort ≠ port := by
  constructor
  · rintro rfl
    rw [h.serverWord, World.u32_taken h.clientLt'] at hport
    exact absurd (taken_ge l.clientPort) (Nat.not_le.mpr hport)
  · rintro rfl
    rw [h.clientWord] at hport
    exact absurd hport (by decide)

theorem LinkOk.of_words {w' : World} (h : LinkOk w l)
    (hserver : w'.portTable l.serverPort = w.portTable l.serverPort)
    (hclient : w'.portTable l.clientPort = w.portTable l.clientPort)
    (hidx : w'.clientFdToIdx (l.clientPid, l.clientFd) =
      w.clientFdToIdx (l.clientPid, l.clientFd)) : LinkOk w' l :=
  { h with
    serverWord := hserver.trans h.serverWord
    clientWord := hclient.trans h.clientWord
    clientIdx := hidx.trans h.clientIdx }

/-- `bind` writes to a free port only. -/
theorem LinkOk.bind {port : ℕ} (h : LinkOk w l) : LinkOk (w.bind p port).2 l := by
  unfold World.bind
  split_ifs with hused
  · exact h
  · have hfree : u32 (w.portTable port) < 2 ^ maxPidBits := by
      rw [not_not.mp hused]
      decide
    obtain ⟨hserver, hclient⟩ := h.ports_ne hfree
    exact h.of_words (Function.update_of_ne hserver _ _) (Function.update_of_ne hclient _ _) rfl

namespace NetInv

theorem bind {port : ℕ} (h : NetInv s) (hs : s.step (.bind p port) = some s') : NetInv s' := by
  obtain rfl := Option.some.inj hs
  have hrings : (s.world.bind p port).2.rings = s.world.rings := by
    unfold World.bind
    split_ifs <;> rfl
  exact h.of_world (hrings ▸ h.rings) (fun l hl => hl.bind) fun c => by rw [hrings]

/-- A step on the ring of one direction. -/
theorem of_direction (h : NetInv s) (hl : s.links[n]? = some l) {sent received bytes : List Byte}
    (hrings : ∃ ls, RingsInv s'.world.rings ls)
    (hpending : s'.world.rings.pending =
      Function.update s.world.rings.pending (l.cell side) bytes)
    (htable : s'.world.portTable = s.world.portTable)
    (hidx : s'.world.clientFdToIdx = s.world.clientFdToIdx) (hlinks : s'.links = s.links)
    (hsent : s'.sent = Function.update s.sent (n, side) sent)
    (hreceived : s'.received = Function.update s.received (n, side) received)
    (hflow : received ++ bytes = sent) : NetInv s' where
  rings := hrings
  links := by
    intro m l' hl'
    rw [hlinks] at hl'
    exact (h.links m l' hl').of_words (by rw [htable]) (by rw [htable]) (by rw [hidx])
  distinct := by
    rw [hlinks]
    exact h.distinct
  flow := by
    intro m side' l' hl'
    rw [hlinks] at hl'
    rw [hpending, hsent, hreceived]
    by_cases he : (m, side') = (n, side)
    · obtain ⟨rfl, rfl⟩ := Prod.mk.inj he
      obtain rfl := Option.some.inj (hl'.symm.trans hl)
      rw [Function.update_self, Function.update_self, Function.update_self, hflow]
    · have hcell : l'.cell side' ≠ l.cell side := by
        intro hc
        obtain ⟨rfl, rfl⟩ := h.cell_inj hl' hl hc
        exact he rfl
      rw [Function.update_of_ne he, Function.update_of_ne he, Function.update_of_ne hcell]
      exact h.flow m side' l' hl'
  absent := by
    intro m side' hm
    rw [hlinks] at hm
    have he : (m, side') ≠ (n, side) := by
      rintro he
      obtain ⟨rfl, rfl⟩ := Prod.mk.inj he
      rw [hm] at hl
      cases hl
    rw [hsent, hreceived, Function.update_of_ne he, Function.update_of_ne he]
    exact h.absent m side' hm
  quiet := by
    intro c hc
    rw [hlinks] at hc
    rw [hpending, Function.update_of_ne (hc n side l hl)]
    exact h.quiet c hc

/-- `send` appends to its own direction what fits. -/
theorem send {buf : List Byte} (h : NetInv s) (hs : s.step (.send e buf) = some s') :
    NetInv s' ∧ s'.received = s.received ∧ s'.sent = Function.update s.sent e
      (s.sent e ++ buf.take (shmDataSize - 1 - (s.inFlight e).length)) := by
  obtain ⟨⟨p, fd⟩, hsocket, hrest⟩ := Option.bind_eq_some_iff.mp hs
  obtain ⟨⟨ret, world⟩, hsend, rfl⟩ := Option.map_eq_some_iff.mp hrest
  obtain ⟨l, hl, hside⟩ := link_of_socket hsocket
  obtain ⟨ls, hrings⟩ := h.rings
  obtain ⟨hret, hrings', hpending, htable, hidx⟩ :=
    World.send_spec hrings hsend (cell_of_socket (h.links e.1 l hl) hside p)
  have htake : buf.take ret.toNat =
      buf.take (shmDataSize - 1 - (s.inFlight e).length) := by
    rw [h.inFlight_eq (n := e.1) hl, hret, Int.toNat_natCast, Nat.min_comm, ← List.take_take,
      List.take_length]
  refine ⟨h.of_direction hl hrings' hpending htable hidx rfl rfl
    (Function.update_eq_self e s.received).symm ?_, rfl, by rw [← htake]⟩
  rw [htake, h.inFlight_eq (n := e.1) hl, ← List.append_assoc, h.flow e.1 e.2 l hl]

/-- `recv` takes the first bytes of the direction to its end. -/
theorem recv {len : ℕ} (h : NetInv s) (hs : s.step (.recv e len) = some s') :
    NetInv s' ∧ s'.sent = s.sent ∧ s'.received = Function.update s.received (peer e)
      (s.received (peer e) ++ (s.inFlight (peer e)).take len) := by
  obtain ⟨⟨p, fd⟩, hsocket, hrest⟩ := Option.bind_eq_some_iff.mp hs
  obtain ⟨⟨bytes, world⟩, hrecv, rfl⟩ := Option.map_eq_some_iff.mp hrest
  obtain ⟨l, hl, hside⟩ := link_of_socket hsocket
  have hok := h.links e.1 l hl
  obtain ⟨ls, hrings⟩ := h.rings
  obtain ⟨hbytes, hrings', hpending, htable, hidx⟩ :=
    World.recv_spec hrings hrecv (cell_of_socket_other hok hside p) (hok.remoteWord_ne hside)
  have hflight : s.inFlight (peer e) = s.world.rings.pending (l.cell e.2.other) :=
    h.inFlight_eq (n := e.1) hl
  rw [hflight]
  refine ⟨h.of_direction hl hrings' hpending htable hidx rfl
    (Function.update_eq_self (peer e) s.sent).symm rfl ?_, rfl, by rw [hbytes]⟩
  rw [hbytes, List.append_assoc, List.take_append_drop]
  exact h.flow e.1 e.2.other l hl

/-- A new connection whose ports no other connection has. -/
theorem add {l₀ : Link} (h : NetInv s) {world : World} (hrings : ∃ ls, RingsInv world.rings ls)
    (hpending : ∀ c, world.rings.pending c = s.world.rings.pending c)
    (hold : ∀ (n : ℕ) l, s.links[n]? = some l → LinkOk world l ∧
      (l.serverPort ≠ l₀.serverPort ∧ l.clientPort ≠ l₀.serverPort) ∧
      l.serverPort ≠ l₀.clientPort ∧ l.clientPort ≠ l₀.clientPort)
    (hnew : LinkOk world l₀) : NetInv { s with world, links := s.links ++ [l₀] } := by
  have hcase : ∀ {n : ℕ} {l}, (s.links ++ [l₀])[n]? = some l →
      s.links[n]? = some l ∨ n = s.links.length ∧ l = l₀ := by
    intro n l hl
    rcases lt_trichotomy n s.links.length with hlt | rfl | hgt
    · rw [List.getElem?_append_left hlt] at hl
      exact .inl hl
    · rw [List.getElem?_concat_length] at hl
      exact .inr ⟨rfl, (Option.some.inj hl).symm⟩
    · rw [List.getElem?_eq_none (by rw [List.length_append, List.length_singleton]; omega)] at hl
      cases hl
  have hkeep : ∀ {n : ℕ} {l}, s.links[n]? = some l → (s.links ++ [l₀])[n]? = some l := by
    intro n l hl
    rw [List.getElem?_append_left (List.getElem?_eq_some_iff.mp hl).1, hl]
  have hnone : s.links[s.links.length]? = none := List.getElem?_eq_none le_rfl
  constructor
  · exact hrings
  · intro n l hl
    rcases hcase hl with hl | ⟨-, rfl⟩
    · exact (hold n l hl).1
    · exact hnew
  · intro n m l l' hl hl' hports
    rcases hcase hl with hn | ⟨rfl, rfl⟩ <;> rcases hcase hl' with hm | ⟨rfl, rfl⟩
    · exact h.distinct n m l l' hn hm hports
    · obtain ⟨-, ⟨hserver, -⟩, -, hclient⟩ := hold n l hn
      exact absurd hports (not_or.mpr ⟨hserver, hclient⟩)
    · obtain ⟨-, ⟨hserver, -⟩, -, hclient⟩ := hold m l' hm
      exact absurd hports (not_or.mpr ⟨hserver.symm, hclient.symm⟩)
    · rfl
  · intro n side l hl
    change s.received (n, side) ++ world.rings.pending (l.cell side) = s.sent (n, side)
    rw [hpending]
    rcases hcase hl with hl | ⟨rfl, rfl⟩
    · exact h.flow n side l hl
    · obtain ⟨hsent, hreceived⟩ := h.absent s.links.length side hnone
      rw [hsent, hreceived, h.quiet, List.nil_append]
      intro n side' l' hl' hc
      obtain ⟨-, hserver, hclient⟩ := hold n l' hl'
      obtain ⟨hfst, -⟩ := Prod.mk.inj (cell_pair hc)
      cases side <;> cases side'
      · exact hclient.2 hfst.symm
      · exact hclient.1 hfst.symm
      · exact hserver.2 hfst.symm
      · exact hserver.1 hfst.symm
  · intro n side hn
    refine h.absent n side (Option.eq_none_iff_forall_ne_some.mpr fun l hl => ?_)
    rw [hkeep hl] at hn
    cases hn
  · intro c hc
    exact (hpending c).trans (h.quiet c fun n side l hl => hc n side l (hkeep hl))

theorem connect {clientFd serverPort : ℕ} (h : NetInv s)
    (hd : Domain s (.connect p clientFd serverPort))
    (hs : s.step (.connect p clientFd serverPort) = some s') : NetInv s' := by
  obtain ⟨hfd, hpos, hlt, hclient, hfresh⟩ := hd
  obtain ⟨⟨ret, world⟩, hconnect, hs'⟩ := Option.map_eq_some_iff.mp hs
  rcases World.connect_spec hconnect with ⟨hret, rfl⟩ | ⟨rfl, hc⟩
  · simp only [if_neg hret] at hs'
    exact hs' ▸ h
  · simp only [if_true] at hs'
    subst hs'
    have hport := (getFreePort_free hc.clientPos.ne').1
    have hclientPos := hc.clientPos
    have hclientLt : getFreePort s.world.portTable < portNumber := hclient.trans (by decide)
    obtain ⟨ls, hrings⟩ := h.rings
    obtain ⟨pair, k, hopen⟩ := hc.rings
    obtain ⟨ls', hrings', -, -, -, hpending⟩ := hrings.openRing hopen
    have hidx := hc.clientFdToIdx
    have htable := hc.portTable
    have hne : serverPort ≠ getFreePort s.world.portTable := by
      intro he
      have hlistening := hc.listening
      rw [he, hport] at hlistening
      exact hlistening rfl
    rw [hidx, Function.update_self, localPort_pack hlt hclientLt]
    generalize getFreePort s.world.portTable = clientPort at *
    refine h.add ⟨ls', hrings'⟩ hpending (fun n l hl => ?_) ?_
    · have hok := h.links n l hl
      have hfree : u32 (s.world.portTable clientPort) < 2 ^ maxPidBits := by
        rw [hport]
        decide
      obtain ⟨hserver, hclient'⟩ := hok.ports_ne hc.unwon
      obtain ⟨hserver', hclient''⟩ := hok.ports_ne hfree
      refine ⟨hok.of_words ?_ ?_ ?_, ⟨hserver, hclient'⟩, hserver', hclient''⟩
      · rw [htable, Function.update_of_ne hserver', Function.update_of_ne hserver]
      · rw [htable, Function.update_of_ne hclient'', Function.update_of_ne hclient']
      · rw [hidx, Function.update_of_ne]
        intro hfd
        obtain ⟨hp, hfd⟩ := Prod.mk.inj hfd
        exact hfresh l (List.mem_of_getElem? hl) (Prod.ext hp (Int.ofNat_inj.mp hfd))
    · refine ⟨hpos, hlt, hclientPos, hclient, hfd, ?_, ?_, ?_, ?_⟩
      · rw [htable, Function.update_of_ne hne, Function.update_self]
      · rw [htable, Function.update_self]
      · rw [hidx, Function.update_self]
      · rintro p fd ⟨⟩

/-- The `accept` of a connection gets the descriptor of its two ports. -/
theorem answer (h : NetInv s) (hl : s.links[n]? = some l)
    (hfd : fd = packPorts l.clientPort l.serverPort) :
    NetInv { s with links := s.links.set n { l with server := some (p, fd) } } := by
  have hlt : n < s.links.length := (List.getElem?_eq_some_iff.mp hl).1
  -- the links keep their ports
  have hback : ∀ {m : ℕ} {l'}, (s.links.set n { l with server := some (p, fd) })[m]? = some l' →
      ∃ l₁, s.links[m]? = some l₁ ∧ l'.serverPort = l₁.serverPort ∧
        l'.clientPort = l₁.clientPort ∧ LinkOk s.world l' := by
    intro m l' hl'
    by_cases hm : n = m
    · subst hm
      rw [List.getElem?_set_self hlt] at hl'
      obtain rfl := Option.some.inj hl'
      refine ⟨l, hl, rfl, rfl, { h.links n l hl with serverFd := ?_ }⟩
      rintro q fd' ⟨⟩
      exact hfd
    · rw [List.getElem?_set_ne hm] at hl'
      exact ⟨l', hl', rfl, rfl, h.links m l' hl'⟩
  have hcell : ∀ {l₁ l₂ : Link} (side), l₁.serverPort = l₂.serverPort →
      l₁.clientPort = l₂.clientPort → l₁.cell side = l₂.cell side := by
    intro l₁ l₂ side hserver hclient
    cases side <;> simp only [Link.cell, Link.pair, hserver, hclient]
  constructor
  · exact h.rings
  · intro m l' hl'
    obtain ⟨-, -, -, -, hok⟩ := hback hl'
    exact hok
  · intro m m' l₁ l₂ hl₁ hl₂ hports
    obtain ⟨l₁', hl₁', hserver, hclient, -⟩ := hback hl₁
    obtain ⟨l₂', hl₂', hserver', hclient', -⟩ := hback hl₂
    rw [hserver, hclient, hserver', hclient'] at hports
    exact h.distinct m m' l₁' l₂' hl₁' hl₂' hports
  · intro m side l' hl'
    obtain ⟨l₁, hl₁, hserver, hclient, -⟩ := hback hl'
    rw [hcell side hserver hclient]
    exact h.flow m side l₁ hl₁
  · intro m side hm
    refine h.absent m side (List.getElem?_eq_none ?_)
    rw [← List.length_set]
    exact List.getElem?_eq_none_iff.mp hm
  · intro c hc
    refine h.quiet c fun m side l₁ hl₁ he => ?_
    obtain ⟨l', hl'⟩ : ∃ l', (s.links.set n { l with server := some (p, fd) })[m]? = some l' := by
      refine ⟨_, List.getElem?_eq_getElem ?_⟩
      rw [List.length_set]
      exact (List.getElem?_eq_some_iff.mp hl₁).1
    obtain ⟨l₂, hl₂, hserver, hclient, -⟩ := hback hl'
    obtain rfl := Option.some.inj (hl₂.symm.trans hl₁)
    exact hc m side l' hl' (he.trans (hcell side hserver hclient).symm)

theorem accept (h : NetInv s) (hs : s.step (.accept n p fd) = some s') : NetInv s' := by
  obtain ⟨l, hl, hrest⟩ := Option.bind_eq_some_iff.mp hs
  split at hrest
  · next hopen =>
    obtain ⟨⟨ret, world⟩, haccept, rfl⟩ := Option.map_eq_some_iff.mp hrest
    obtain ⟨⟨k, rings⟩, hopen, he⟩ := Option.map_eq_some_iff.mp haccept
    obtain ⟨rfl, rfl⟩ := Prod.mk.inj he
    obtain ⟨ls, hrings⟩ := h.rings
    obtain ⟨ls', hrings', -, -, -, hpending⟩ := hrings.openRing hopen
    have hok := h.links n l hl
    have hworld : NetInv { s with world := { s.world with rings } } :=
      h.of_world ⟨ls', hrings'⟩ (fun l hl => hl.of_words rfl rfl rfl) hpending
    refine hworld.answer hl ?_
    rw [hok.serverWord, World.u32_taken hok.clientLt', taken_and hok.clientLt']
  · cases hrest

theorem step {a : Act} (h : NetInv s) (hd : Domain s a) (hs : s.step a = some s') :
    NetInv s' := by
  cases a with
  | bind p port => exact h.bind hs
  | connect p fd serverPort => exact h.connect hd hs
  | accept n p fd => exact h.accept hs
  | send e buf => exact (h.send hs).1
  | recv e len => exact (h.recv hs).1

theorem canSend {buf : List Byte} (h : NetInv s) (hs : s.socket e = some (p, fd)) :
    (∃ s', s.step (.send e buf) = some s') ∨
      ∀ k, IsIndex k → ∃ c, s.world.rings.tables.table c = k := by
  obtain ⟨ls, hrings⟩ := h.rings
  by_cases hidx : s.world.rings.getIdx p (localPort (s.world.portsOf p fd),
      remotePort (s.world.portsOf p fd)) = none
  · exact .inr fun k hk => hrings.getIdx_none hidx hk
  · obtain ⟨ret, world, hsend⟩ := World.send_returns hrings hidx buf
    left
    simp only [Sys.step, hs, Option.bind_some, hsend, Option.map_some]
    exact ⟨_, rfl⟩

theorem canRecv {len : ℕ} (h : NetInv s) (hs : s.socket e = some (p, fd)) (hlen : 0 < len)
    (hne : s.inFlight (peer e) ≠ []) : ∃ s', s.step (.recv e len) = some s' := by
  obtain ⟨l, hl, hside⟩ := link_of_socket hs
  obtain ⟨ls, hrings⟩ := h.rings
  have hflight : s.inFlight (peer e) = s.world.rings.pending (l.cell e.2.other) :=
    h.inFlight_eq (n := e.1) hl
  obtain ⟨bytes, world, hrecv⟩ := World.recv_returns hrings
    (cell_of_socket_other (h.links e.1 l hl) hside p) (hflight ▸ hne) hlen
  simp only [Sys.step, hs, Option.bind_some, hrecv, Option.map_some]
  exact ⟨_, rfl⟩

theorem isolated (h : NetInv s) : Isolated s where
  delivered := by
    rintro ⟨n, side⟩
    cases hl : s.links[n]? with
    | none =>
      rw [(h.absent n side hl).2]
      exact List.nil_prefix
    | some l => exact ⟨_, h.flow n side l hl⟩
  capacity := by
    rintro ⟨n, side⟩
    cases hl : s.links[n]? with
    | none =>
      rw [h.inFlight_absent hl]
      exact Nat.zero_le _
    | some l =>
      obtain ⟨ls, hrings⟩ := h.rings
      rw [h.inFlight_eq hl]
      exact Nat.le_sub_one_of_lt (hrings.pending_lt _)
  send := fun e buf s' hs => (h.send hs).2
  recv := fun e len s' hs => (h.recv hs).2
  canSend := fun e p fd buf hs => h.canSend hs
  canRecv := fun e p fd len hs hlen hne => h.canRecv hs hlen hne

end NetInv

/-- Connections and their two directions do not disturb each other. -/
theorem connections_isolated {s : Sys} (h : machine.Reachable Domain s) : Isolated s :=
  (h.invariant (fun _ => NetInv.start) fun _ _ _ => NetInv.step).isolated

instance (s : Sys) (a : Act) : Decidable (Domain s a) := by
  cases a <;> unfold Domain <;> infer_instance

/-- Two clients connect to two ports of process 7. Both ends of both connections send a byte,
and all four are received, in another order. -/
def fourBytes : List Act :=
  [.bind 7 80, .bind 7 90, .connect 8 3 80, .connect 9 3 90, .accept 1 7 4, .accept 0 7 5,
    .send (0, .client) [5], .send (1, .client) [6], .send (0, .server) [7],
    .send (1, .server) [8], .recv (1, .client) 2, .recv (0, .server) 2, .recv (0, .client) 2,
    .recv (1, .server) 2]

theorem connections_isolated_twoPorts : ∃ s, s.received (0, .client) = [5] ∧
    s.received (1, .client) = [6] ∧ s.received (0, .server) = [7] ∧
    s.received (1, .server) = [8] ∧ Isolated s := by
  obtain ⟨s, h, hs⟩ := reachable_of_guarded (M := machine) (C := Domain)
    (c := fun s a => decide (Domain s a)) (l := fourBytes) (s := blank)
    (P := fun s => decide (s.received (0, .client) = [5] ∧ s.received (1, .client) = [6] ∧
      s.received (0, .server) = [7] ∧ s.received (1, .server) = [8]))
    (fun _ _ => of_decide_eq_true) blank_init (by decide +kernel)
  obtain ⟨h1, h2, h3, h4⟩ := of_decide_eq_true hs
  exact ⟨s, h1, h2, h3, h4, connections_isolated h⟩

end ShmSocket.Net
