import ShmSocket.Connection.Sessions

/-! The invariants of connections over their whole life: who owns a word of the port table,
and that descriptors still resolve to the ports they were made for. -/
namespace ShmSocket.Session
open StepMachine PortTable Indices
open Net (Side End peer)

section calls
variable {r r' : Rings} {w w' : World} {ls : List (List ℕ)} {p : Pid} {fd ret : ℤ} {pair : Pair}
  {c c' : Cell}

theorem Opened.partitioned (h : Partitioned r.tables ls) (ho : Opened r r' c) :
    ∃ ls', Partitioned r'.tables ls' := by
  obtain ⟨ls', hpart, -⟩ := h.getIdx 0 c
  exact ⟨ls', ho.1 ▸ hpart⟩

/-- `get_idx` fills at most the entry of its pair. -/
theorem Opened.table_of_ne (ho : Opened r r' c) (hc : c' ≠ c) :
    r'.tables.table c' = r.tables.table c' := by
  rw [ho.1, getIdx]
  split
  · exact Function.update_of_ne hc _ _
  · rfl

/-- `close` leaves the entry of its pair 0 and the others as they were. -/
theorem closeRing_table (hs : r.closeRing p pair = some r') :
    r'.tables.table = Function.update r.tables.table (ShmSocket.cell p pair) 0 := by
  obtain ⟨⟨k, r₁⟩, hopen, hclose⟩ := Option.bind_eq_some_iff.mp hs
  obtain ⟨pool, -, rfl⟩ := Option.map_eq_some_iff.mp hclose
  funext c'
  change Function.update r₁.tables.table (ShmSocket.cell p pair) 0 c' = _
  by_cases hc : c' = ShmSocket.cell p pair
  · rw [hc, Function.update_self, Function.update_self]
  · rw [Function.update_of_ne hc, Function.update_of_ne hc, (openRing_opened hopen).table_of_ne hc]

/-- `close` gives the index of its pair back. -/
theorem closeRing_pool (h : Partitioned r.tables ls) (hs : r.closeRing p pair = some r') :
    (∃ ls', Partitioned r'.tables ls') ∧ r'.tables.pool.length = r.tables.pool.length := by
  obtain ⟨⟨k, r₁⟩, hopen, hclose⟩ := Option.bind_eq_some_iff.mp hs
  have ho := openRing_opened hopen
  obtain ⟨ls₁, hpart, hentry, hne⟩ := h.getIdx 0 (ShmSocket.cell p pair)
  rw [← ho.1] at hpart hentry
  have hk : (Indices.getIdx 0 r.tables (ShmSocket.cell p pair)).1 = k := by
    obtain ⟨⟨j, r₂⟩, hget, he⟩ := Option.map_eq_some_iff.mp hopen
    obtain ⟨rfl, -⟩ := Prod.mk.inj he
    simp only [Rings.getIdx] at hget
    split at hget
    · cases hget
      rfl
    · cases hget
  rw [hk] at hentry hne
  obtain ⟨pool, ls₂, hrel, hlen, hpart₂⟩ := hpart.release (hentry.trans_ne hne)
  rw [hentry] at hrel
  obtain ⟨pool', hrel', rfl⟩ := Option.map_eq_some_iff.mp hclose
  obtain rfl : pool = pool' := Option.some.inj (hrel.symm.trans hrel')
  exact ⟨⟨ls₂, hpart₂⟩, hlen.trans ho.2⟩

/-- A call that opens a ring changes neither the port table nor any mapping. -/
structure OpensOnly (w w' : World) (c : Cell) : Prop where
  opened : Opened w.rings w'.rings c
  portTable : w'.portTable = w.portTable
  clientFdToIdx : w'.clientFdToIdx = w.clientFdToIdx

theorem write_tables {k : ℕ} {buf : List Byte} (h : r.write p k buf = some (ret, r')) :
    r'.tables = r.tables := by
  obtain ⟨⟨ret', ring⟩, -, he⟩ := Option.map_eq_some_iff.mp h
  obtain ⟨-, rfl⟩ := Prod.mk.inj he
  rfl

theorem read_tables (k len : ℕ) : (r.read p k len).2.tables = r.tables := by
  unfold Rings.read
  generalize rbRead _ _ _ = result
  rfl

theorem send_opens {buf : List Byte} (hs : w.send p fd buf = some (ret, w')) :
    OpensOnly w w' (ShmSocket.cell p
      (localPort (w.portsOf p fd), remotePort (w.portsOf p fd))) := by
  obtain ⟨⟨k, r₁⟩, hopen, hrest⟩ := Option.bind_eq_some_iff.mp hs
  obtain ⟨⟨ret', r₂⟩, hwrite, he⟩ := Option.map_eq_some_iff.mp hrest
  obtain ⟨-, rfl⟩ := Prod.mk.inj he
  refine ⟨?_, rfl, rfl⟩
  have ho := openRing_opened hopen
  unfold Opened at ho ⊢
  rwa [← write_tables hwrite] at ho

theorem recv_opens {len : ℕ} {bytes : List Byte} (hs : w.recv p fd len = some (bytes, w')) :
    OpensOnly w w' (ShmSocket.cell p
      (remotePort (w.portsOf p fd), localPort (w.portsOf p fd))) := by
  obtain ⟨⟨k, r₁⟩, hopen, hrest⟩ := Option.bind_eq_some_iff.mp hs
  have ho := openRing_opened hopen
  have hread : ∀ r : Rings, r.tables = r₁.tables → Opened w.rings r (ShmSocket.cell p
      (remotePort (w.portsOf p fd), localPort (w.portsOf p fd))) := fun r hr => by
    unfold Opened at ho ⊢
    rwa [hr]
  obtain ⟨first, hfirst⟩ : ∃ x, r₁.read p k len = x := ⟨_, rfl⟩
  obtain ⟨second, hsecond⟩ : ∃ x, first.2.read p k len = x := ⟨_, rfl⟩
  have htables : first.2.tables = r₁.tables := by rw [← hfirst, read_tables]
  have htables' : second.2.tables = r₁.tables := by rw [← hsecond, read_tables, htables]
  simp only [hfirst, hsecond] at hrest
  split at hrest
  · cases hrest
    exact ⟨hread _ htables, rfl, rfl⟩
  · split at hrest
    · cases hrest
      exact ⟨hread _ htables', rfl, rfl⟩
    · cases hrest

theorem accept_opens {serverPort : ℕ} (hs : w.accept p fd serverPort = some (ret, w')) :
    OpensOnly w w' (ShmSocket.cell p (remotePort fd, localPort fd)) ∧
      ret = packPorts (u32 (w.portTable serverPort) &&& 0xFFFF) serverPort := by
  obtain ⟨⟨k, r₁⟩, hopen, he⟩ := Option.map_eq_some_iff.mp hs
  obtain ⟨rfl, rfl⟩ := Prod.mk.inj he
  exact ⟨⟨openRing_opened hopen, rfl, rfl⟩, rfl⟩

/-- A successful `connect` opens the ring it will receive from. -/
theorem connect_opens {clientFd serverPort : ℕ} (hserver : serverPort < portNumber)
    (hs : w.connect p clientFd serverPort = some (0, w')) :
    Opened w.rings w'.rings (ShmSocket.cell p (serverPort, getFreePort w.portTable)) := by
  simp only [World.connect] at hs
  split at hs
  · cases hs
  · split at hs
    · cases hs
    · split at hs
      · cases hs
      · next hport =>
        obtain ⟨-, hrange⟩ := getFreePort_free hport
        split at hs
        · obtain ⟨⟨k, r₁⟩, hopen, he⟩ := Option.map_eq_some_iff.mp hs
          obtain ⟨-, rfl⟩ := Prod.mk.inj he
          have ho := openRing_opened hopen
          rwa [remotePort_pack hserver hrange, localPort_pack hserver hrange] at ho
        · cases hs

/-- What `close` changes. -/
theorem close_changes (hs : w.close p fd = some (ret, w')) :
    w'.rings.tables.table = Function.update w.rings.tables.table
        (ShmSocket.cell p (remotePort (w.portsOf p fd), localPort (w.portsOf p fd))) 0 ∧
      w'.portTable = Function.update w.portTable (localPort (w.portsOf p fd)) 0 ∧
      w'.clientFdToIdx = w.clientFdToIdx := by
  obtain ⟨rings, hclose, he⟩ := Option.map_eq_some_iff.mp hs
  obtain ⟨-, rfl⟩ := Prod.mk.inj he
  exact ⟨closeRing_table hclose, rfl, rfl⟩

/-- What `close` leaves. -/
theorem close_spec (h : Partitioned w.rings.tables ls) (hs : w.close p fd = some (ret, w')) :
    (∃ ls', Partitioned w'.rings.tables ls') ∧
      w'.rings.tables.pool.length = w.rings.tables.pool.length ∧
      w'.rings.tables.table = Function.update w.rings.tables.table
        (ShmSocket.cell p (remotePort (w.portsOf p fd), localPort (w.portsOf p fd))) 0 ∧
      w'.portTable = Function.update w.portTable (localPort (w.portsOf p fd)) 0 ∧
      w'.clientFdToIdx = w.clientFdToIdx := by
  have hchanges := close_changes hs
  obtain ⟨rings, hclose, he⟩ := Option.map_eq_some_iff.mp hs
  obtain ⟨-, rfl⟩ := Prod.mk.inj he
  obtain ⟨hpart, hlen⟩ := closeRing_pool h hclose
  exact ⟨hpart, hlen, hchanges⟩

end calls

/-- The word of a listener is its process id. -/
def Listening (w : World) (port : ℕ) : Prop :=
  0 < u32 (w.portTable port) ∧ u32 (w.portTable port) < 2 ^ maxPidBits

theorem Listening.congr {w w' : World} {port : ℕ} (h : Listening w port)
    (hw : w'.portTable port = w.portTable port) : Listening w' port := by
  unfold Listening at h ⊢
  rwa [hw]

/-- A listener or an end that has not called `close` has the port. -/
def Sys.Owned (s : Sys) (port : ℕ) : Prop :=
  Listening s.world port ∨ ∃ e, (s.status e).Open ∧ s.port e = port

section established
variable {s : Sys} {e : End} {p : Pid} {clientFd serverPort : ℕ} {world : World}

theorem established_port (he : e.1 ≠ s.count) :
    (s.established p clientFd serverPort world).port e = s.port e := by
  have hclient : e ≠ (s.count, .client) := fun h => he (h ▸ rfl)
  have hserver : e ≠ (s.count, .server) := fun h => he (h ▸ rfl)
  exact (Function.update_of_ne hserver _ _).trans (Function.update_of_ne hclient _ _)

/-- A `connect` with a descriptor that was connected takes it from the older connection. -/
theorem established_status (he : e.1 ≠ s.count) :
    (s.established p clientFd serverPort world).status e =
      if s.status e = .connected p clientFd then .lost p else s.status e := by
  have hclient : e ≠ (s.count, .client) := fun h => he (h ▸ rfl)
  have hserver : e ≠ (s.count, .server) := fun h => he (h ▸ rfl)
  exact (Function.update_of_ne hserver _ _).trans (Function.update_of_ne hclient _ _)

theorem established_open (he : e.1 ≠ s.count) :
    ((s.established p clientFd serverPort world).status e).Open ↔ (s.status e).Open := by
  rw [established_status he]
  split_ifs with hs
  · rw [hs]
    exact ⟨id, id⟩
  · rfl

theorem established_client : (s.established p clientFd serverPort world).port (s.count, .client) =
    localPort (world.clientFdToIdx (p, clientFd)) :=
  (Function.update_of_ne (by simp) _ _).trans (Function.update_self _ _ _)

theorem established_connected :
    (s.established p clientFd serverPort world).status (s.count, .client) =
      .connected p clientFd :=
  (Function.update_of_ne (by simp) _ _).trans (Function.update_self _ _ _)

theorem established_waiting :
    (s.established p clientFd serverPort world).status (s.count, .server) = .waiting :=
  Function.update_self _ _ _

theorem established_server :
    (s.established p clientFd serverPort world).port (s.count, .server) = serverPort :=
  Function.update_self _ _ _

end established

theorem open_of_connected {s : Sys} {e : End} {p : Pid} {fd : ℤ}
    (hs : s.status e = .connected p fd) : (s.status e).Open := by
  rw [hs]
  trivial

/-- `accept` would read the word of the client that it answers. -/
def Sys.OwnWord (s : Sys) (n : ℕ) : Prop :=
  u32 (s.world.portTable (s.port (n, .server))) &&& 0xFFFF = s.port (n, .client)

/-- What holds as long as `accept` reads the words of its own clients. -/
structure Sound (s : Sys) : Prop where
  indices : ∃ ls, Partitioned s.world.rings.tables ls
  single : s.world.rings.tables.pool.length = 1
  range : ∀ e : End, e.1 < s.count → s.port e < portNumber
  clientPos : ∀ n < s.count, 0 < s.port (n, .client)
  fresh : ∀ e : End, s.count ≤ e.1 → s.status e = .unused
  owned : ∀ port, s.world.portTable port ≠ 0 → s.Owned port
  clientFd : ∀ n p fd, s.status (n, .client) = .connected p fd → 0 ≤ fd ∧ fd < 1024 ∧
    s.world.clientFdToIdx (p, fd) = packPorts (s.port (n, .server)) (s.port (n, .client))
  serverFd : ∀ n p fd, s.status (n, .server) = .connected p fd →
    fd = packPorts (s.port (n, .client)) (s.port (n, .server))

/-- In addition every open end has its word, and a port of its own. -/
structure Inv (s : Sys) : Prop extends Sound s where
  word : ∀ e, (s.status e).Open → s.world.portTable (s.port e) = s.word e
  apart : ∀ e e', (s.status e).Open → (s.status e').Open → s.port e = s.port e' → e = e'

namespace Sound
variable {s s' : Sys} {e : End} {p : Pid} {fd : ℤ}

theorem start (h : machine.init s) : Sound s := by
  obtain ⟨⟨a, htables⟩, -, -, htable, hcount, hunused⟩ := h
  constructor
  · rw [htables]
    exact ⟨_, .start a⟩
  · rw [htables]
    rfl
  · intro e he
    omega
  · intro n hn
    omega
  · exact fun e _ => hunused e
  · exact fun port hport => absurd (htable port) hport
  · intro n p fd hs
    rw [hunused] at hs
    cases hs
  · intro n p fd hs
    rw [hunused] at hs
    cases hs

theorem used (h : Sound s) (hopen : (s.status e).Open) : e.1 < s.count := by
  by_contra hlt
  rw [h.fresh e (Nat.le_of_not_lt hlt)] at hopen
  exact hopen

/-- `send`, `recv` and `close` find the ports of the end. -/
theorem portsOf (h : Sound s) (hs : s.status e = .connected p fd) (hfd : 0 ≤ fd) :
    s.world.portsOf p fd = packPorts (s.port (peer e)) (s.port e) := by
  have hused := h.used (open_of_connected hs)
  obtain ⟨n, side⟩ := e
  cases side with
  | client =>
    obtain ⟨-, hlt, hmap⟩ := h.clientFd n p fd hs
    rw [World.portsOf, if_pos hlt]
    exact hmap
  | server =>
    have hpack := h.serverFd n p fd hs
    have hpos := h.clientPos n hused
    have hc := h.range (n, .client) hused
    have hserver := h.range (n, .server) hused
    rw [World.portsOf, if_neg, hpack]
    · rfl
    · rw [hpack] at hfd ⊢
      exact not_lt.mpr (packPorts_ge (packPorts_nonneg hc hserver hfd) hpos hserver)

theorem localPort_eq (h : Sound s) (hs : s.status e = .connected p fd) (hfd : 0 ≤ fd) :
    localPort (s.world.portsOf p fd) = s.port e := by
  have hused := h.used (open_of_connected hs)
  rw [h.portsOf hs hfd, localPort_pack (h.range (peer e) hused) (h.range e hused)]

theorem remotePort_eq (h : Sound s) (hs : s.status e = .connected p fd) (hfd : 0 ≤ fd) :
    remotePort (s.world.portsOf p fd) = s.port (peer e) := by
  have hused := h.used (open_of_connected hs)
  rw [h.portsOf hs hfd, remotePort_pack (h.range (peer e) hused) (h.range e hused)]

theorem indices_of (h : Sound s) {w : World} {c : Cell} (ho : Opened s.world.rings w.rings c) :
    (∃ ls, Partitioned w.rings.tables ls) ∧ w.rings.tables.pool.length = 1 := by
  obtain ⟨ls, hpart⟩ := h.indices
  exact ⟨ho.partitioned hpart, ho.2.trans h.single⟩

/-- Opening a ring touches nothing else. -/
theorem of_opens (h : Sound s) {world : World} {c : Cell} (ho : OpensOnly s.world world c) :
    Sound { s with world } := by
  obtain ⟨hind, hsingle⟩ := h.indices_of ho.opened
  have htable := ho.portTable
  have hfds := ho.clientFdToIdx
  refine ⟨hind, hsingle, h.range, h.clientPos, h.fresh, ?_, ?_, h.serverFd⟩
  · intro port hport
    change world.portTable port ≠ 0 at hport
    rw [htable] at hport
    rcases h.owned port hport with hlisten | hend
    · exact .inl (hlisten.congr (congrFun htable port))
    · exact .inr hend
  · intro n p fd hs
    change _ ∧ _ ∧ world.clientFdToIdx _ = _
    rw [hfds]
    exact h.clientFd n p fd hs

/-- A free port becomes a listener. -/
theorem bind (h : Sound s) {port : ℕ} (hp : IsPid p) :
    Sound { s with world := (s.world.bind p port).2 } := by
  unfold World.bind
  split
  · exact h
  · have hother : ∀ q, q ≠ port → Function.update s.world.portTable port (p : ℤ) q =
        s.world.portTable q := fun q hq => Function.update_of_ne hq _ _
    refine ⟨h.indices, h.single, h.range, h.clientPos, h.fresh, ?_, h.clientFd, h.serverFd⟩
    intro q hq
    change Function.update s.world.portTable port (p : ℤ) q ≠ 0 at hq
    by_cases he : q = port
    · refine .inl ?_
      have hlt : p < 2 ^ 32 := hp.2.trans (by decide)
      have hself : u32 (Function.update s.world.portTable port (p : ℤ) port) = p := by
        rw [Function.update_self, u32_natCast hlt]
      rw [he]
      exact ⟨hp.1.trans_eq hself.symm, hself.trans_lt hp.2⟩
    · rw [hother q he] at hq
      rcases h.owned q hq with hlisten | hend
      · exact .inl (hlisten.congr (hother q he))
      · exact .inr hend

/-- A port is freed. -/
theorem freed (h : Sound s) {world : World} {port : ℕ}
    (hind : ∃ ls, Partitioned world.rings.tables ls)
    (hsingle : world.rings.tables.pool.length = 1)
    (htable : world.portTable = Function.update s.world.portTable port 0)
    (hfds : world.clientFdToIdx = s.world.clientFdToIdx) : Sound { s with world } := by
  refine ⟨hind, hsingle, h.range, h.clientPos, h.fresh, ?_, ?_, h.serverFd⟩
  · intro q hq
    change world.portTable q ≠ 0 at hq
    rw [htable] at hq
    have hne : q ≠ port := fun he => hq (by rw [he, Function.update_self])
    rw [Function.update_of_ne hne] at hq
    rcases h.owned q hq with hlisten | hend
    · exact .inl (hlisten.congr (by rw [htable, Function.update_of_ne hne]))
    · exact .inr hend
  · intro n p fd hs
    change _ ∧ _ ∧ world.clientFdToIdx _ = _
    rw [hfds]
    exact h.clientFd n p fd hs

/-- The server end gets a descriptor for the ports of its connection. -/
theorem accepted (h : Sound s) {n : ℕ} {ret : ℤ} {world : World} {c : Cell}
    (hwaiting : s.status (n, .server) = .waiting) (hword : s.OwnWord n)
    (ho : OpensOnly s.world world c)
    (hret : ret = packPorts (u32 (s.world.portTable (s.port (n, .server))) &&& 0xFFFF)
      (s.port (n, .server))) :
    Sound { s with
      world
      status := Function.update s.status (n, .server) (.connected p ret) } := by
  have hopen : (s.status (n, .server)).Open := hwaiting ▸ trivial
  rw [hword] at hret
  have hw := h.of_opens ho
  refine ⟨hw.indices, hw.single, h.range, h.clientPos, ?_, ?_, ?_, ?_⟩
  · intro e he
    have hne : e ≠ (n, .server) := fun hen => absurd (h.used hopen) (not_lt.mpr (hen ▸ he))
    exact (Function.update_of_ne hne _ _).trans (h.fresh e he)
  · intro port hport
    refine (hw.owned port hport).imp id ?_
    rintro ⟨e, he, hport⟩
    refine ⟨e, ?_, hport⟩
    change (Function.update s.status (n, .server) (.connected p ret) e).Open
    by_cases hen : e = (n, .server)
    · rw [hen, Function.update_self]
      trivial
    · rw [Function.update_of_ne hen]
      exact he
  · intro m q fd hs
    have hne : (m, Side.client) ≠ (n, Side.server) := by simp
    exact hw.clientFd m q fd ((Function.update_of_ne hne _ _).symm.trans hs)
  · intro m q fd hs
    change Function.update s.status (n, .server) (.connected p ret) (m, .server) = _ at hs
    by_cases hm : m = n
    · subst hm
      rw [Function.update_self] at hs
      cases hs
      exact hret
    · rw [Function.update_of_ne (by simpa using hm)] at hs
      exact h.serverFd m q fd hs

/-- `close` frees the port of its end. -/
theorem closed (h : Sound s) {world : World} (hs : s.status e = .connected p fd)
    (hind : ∃ ls, Partitioned world.rings.tables ls)
    (hsingle : world.rings.tables.pool.length = 1)
    (htable : world.portTable = Function.update s.world.portTable (s.port e) 0)
    (hfds : world.clientFdToIdx = s.world.clientFdToIdx) :
    Sound { s with world, status := Function.update s.status e .closed } := by
  have hw := h.freed hind hsingle htable hfds
  have hother : ∀ {e'}, e' ≠ e → Function.update s.status e .closed e' = s.status e' :=
    fun he => Function.update_of_ne he _ _
  have hfds' : ∀ m side q fd', Function.update s.status e .closed (m, side) =
      .connected q fd' → s.status (m, side) = .connected q fd' := fun m side q fd' hm => by
    by_cases he : (m, side) = e
    · rw [he, Function.update_self] at hm
      cases hm
    · rwa [hother he] at hm
  refine ⟨hind, hsingle, h.range, h.clientPos, ?_, ?_, ?_, ?_⟩
  · intro e' he'
    have hne : e' ≠ e := fun he =>
      absurd (h.used (open_of_connected hs)) (not_lt.mpr (he ▸ he'))
    exact (hother hne).trans (h.fresh e' he')
  · intro port hport
    refine (hw.owned port hport).imp id ?_
    rintro ⟨e', ho, hp⟩
    have he : e' ≠ e := by
      rintro rfl
      change world.portTable port ≠ 0 at hport
      rw [htable, ← hp] at hport
      exact hport (Function.update_self _ _ _)
    exact ⟨e', (congrArg Status.Open (hother he)).mpr ho, hp⟩
  · exact fun m q fd' hm => hw.clientFd m q fd' (hfds' m .client q fd' hm)
  · exact fun m q fd' hm => h.serverFd m q fd' (hfds' m .server q fd' hm)

end Sound

namespace Inv
variable {s s' : Sys} {e : End} {p : Pid} {fd : ℤ}

theorem start (h : machine.init s) : Inv s := by
  have hopen : ∀ e, ¬ (s.status e).Open := fun e => by
    rw [h.2.2.2.2.2 e]
    exact id
  exact ⟨.start h, fun e he => absurd he (hopen e), fun e _ he => absurd he (hopen e)⟩

/-- The word of an open end is no pid. -/
theorem word_ge (h : Inv s) (hopen : (s.status e).Open) :
    2 ^ maxPidBits ≤ u32 (s.world.portTable (s.port e)) := by
  rw [h.word e hopen]
  obtain ⟨n, side⟩ := e
  cases side with
  | client =>
    change 2 ^ maxPidBits ≤ u32 (-1)
    decide
  | server =>
    have hused := h.used hopen
    have hc := h.range (n, .client) hused
    change 2 ^ maxPidBits ≤ u32 (taken _)
    rw [World.u32_taken hc]
    exact taken_ge _

theorem word_ne_zero (h : Inv s) (hopen : (s.status e).Open) :
    s.world.portTable (s.port e) ≠ 0 := by
  intro hz
  have hge := h.word_ge hopen
  rw [hz] at hge
  exact absurd hge (by decide)

/-- A port is in use exactly when a listener or an open end has it. -/
theorem owned_iff (h : Inv s) (port : ℕ) : s.world.portTable port ≠ 0 ↔ s.Owned port := by
  refine ⟨h.owned port, ?_⟩
  rintro (hlisten | ⟨e, hopen, rfl⟩)
  · intro hz
    obtain ⟨hpos, -⟩ := hlisten
    rw [hz] at hpos
    exact absurd hpos (by decide)
  · exact h.word_ne_zero hopen

/-- The server of a waiting connection has the word of its client. -/
theorem ownWord (h : Inv s) {n : ℕ} (hwaiting : s.status (n, .server) = .waiting) :
    s.OwnWord n := by
  have hopen : (s.status (n, .server)).Open := hwaiting ▸ trivial
  have hused : n < s.count := h.used hopen
  have hc := h.range (n, .client) hused
  have hword : s.world.portTable (s.port (n, .server)) = taken (s.port (n, .client)) :=
    h.word _ hopen
  rw [Sys.OwnWord, hword, World.u32_taken hc, taken_and hc]

theorem of_opens (h : Inv s) {world : World} {c : Cell} (ho : OpensOnly s.world world c) :
    Inv { s with world } :=
  ⟨h.toSound.of_opens ho, fun e hopen => (congrFun ho.portTable _).trans (h.word e hopen), h.apart⟩

theorem bind (h : Inv s) {port : ℕ} (hp : IsPid p) :
    Inv { s with world := (s.world.bind p port).2 } := by
  refine ⟨h.toSound.bind hp, fun e hopen => ?_, h.apart⟩
  change (s.world.bind p port).2.portTable (s.port e) = s.word e
  unfold World.bind
  split
  · exact h.word e hopen
  · next hfree =>
    have hne : s.port e ≠ port := fun he => h.word_ne_zero hopen (he ▸ not_not.mp hfree)
    exact (Function.update_of_ne hne _ _).trans (h.word e hopen)

end Inv

/-- A successful `connect` takes a free port for the client and the port of a listener. -/
structure Joins (s : Sys) (p : Pid) (clientFd serverPort clientPort : ℕ) (world : World) :
    Prop where
  fd : clientFd < 1024
  server : serverPort < portNumber
  client : clientPort < portNumber
  clientPos : 0 < clientPort
  free : s.world.portTable clientPort = 0
  listening : Listening s.world serverPort
  portTable : world.portTable = Function.update
    (Function.update s.world.portTable serverPort (taken clientPort)) clientPort (-1)
  clientFdToIdx : world.clientFdToIdx =
    Function.update s.world.clientFdToIdx (p, clientFd) (packPorts serverPort clientPort)

namespace Joins
variable {s : Sys} {e e' : End} {p q : Pid} {clientFd serverPort clientPort m : ℕ} {fd : ℤ}
  {world : World}

theorem of_connected (hc : World.Connected s.world p clientFd serverPort world)
    (hfd : clientFd < 1024) (hserver : serverPort < portNumber) :
    Joins s p clientFd serverPort (getFreePort s.world.portTable) world := by
  obtain ⟨hfree, hclient⟩ := getFreePort_free hc.clientPos.ne'
  exact ⟨hfd, hserver, hclient, hc.clientPos, hfree,
    ⟨Nat.pos_of_ne_zero hc.listening, hc.unwon⟩, hc.portTable, hc.clientFdToIdx⟩

theorem localEnd (h : Joins s p clientFd serverPort clientPort world) :
    (s.established p clientFd serverPort world).port (s.count, .client) = clientPort := by
  rw [established_client, h.clientFdToIdx, Function.update_self, localPort_pack h.server h.client]

theorem ports_ne (h : Joins s p clientFd serverPort clientPort world) :
    serverPort ≠ clientPort := by
  intro he
  have hlisten := h.listening.1
  rw [he, h.free] at hlisten
  exact absurd hlisten (by decide)

/-- The ports of the older ends are neither free nor listening. -/
theorem older (h : Joins s p clientFd serverPort clientPort world) (hi : Inv s)
    (hopen : (s.status e).Open) : s.port e ≠ clientPort ∧ s.port e ≠ serverPort := by
  refine ⟨fun he => hi.word_ne_zero hopen (he ▸ h.free), fun he => ?_⟩
  exact absurd (hi.word_ge hopen) (not_le.mpr (he ▸ h.listening.2))

/-- An open end is one of the two new ones, or it was open before. -/
theorem ends (hopen : ((s.established p clientFd serverPort world).status e).Open) :
    e = (s.count, .client) ∨ e = (s.count, .server) ∨ e.1 ≠ s.count ∧ (s.status e).Open ∧
      (s.established p clientFd serverPort world).port e = s.port e := by
  obtain ⟨m, side⟩ := e
  by_cases hm : m = s.count
  · subst hm
    cases side
    · exact .inl rfl
    · exact .inr (.inl rfl)
  · exact .inr (.inr ⟨hm, (established_open hm).mp hopen, established_port hm⟩)

theorem range (h : Joins s p clientFd serverPort clientPort world) (hi : Sound s)
    (he : e.1 < s.count + 1) :
    (s.established p clientFd serverPort world).port e < portNumber := by
  obtain ⟨m, side⟩ := e
  by_cases hm : m = s.count
  · subst hm
    cases side
    · exact h.localEnd.trans_lt h.client
    · exact established_server.trans_lt h.server
  · rw [established_port hm]
    exact hi.range _ (lt_of_le_of_ne (Nat.lt_succ_iff.mp he) hm)

theorem pos (h : Joins s p clientFd serverPort clientPort world) (hi : Sound s)
    (hm : m < s.count + 1) :
    0 < (s.established p clientFd serverPort world).port (m, .client) := by
  by_cases hms : m = s.count
  · subst hms
    exact h.clientPos.trans_eq h.localEnd.symm
  · rw [established_port hms]
    exact hi.clientPos m (lt_of_le_of_ne (Nat.lt_succ_iff.mp hm) hms)

theorem word (h : Joins s p clientFd serverPort clientPort world) (hi : Inv s)
    (hopen : ((s.established p clientFd serverPort world).status e).Open) :
    world.portTable ((s.established p clientFd serverPort world).port e) =
      (s.established p clientFd serverPort world).word e := by
  rw [h.portTable]
  rcases ends hopen with rfl | rfl | ⟨hm, hold, hport⟩
  · rw [h.localEnd, Function.update_self]
    rfl
  · rw [established_server, Function.update_of_ne h.ports_ne, Function.update_self]
    exact congrArg (fun port => (taken port : ℤ)) h.localEnd.symm
  · obtain ⟨hne, hne'⟩ := h.older hi hold
    rw [hport, Function.update_of_ne hne, Function.update_of_ne hne', hi.word e hold]
    obtain ⟨m, side⟩ := e
    cases side
    · rfl
    · have hclient : (s.established p clientFd serverPort world).port (m, .client) =
          s.port (m, .client) := established_port hm
      exact congrArg (fun port => (taken port : ℤ)) hclient.symm

theorem apart (h : Joins s p clientFd serverPort clientPort world) (hi : Inv s)
    (hopen : ((s.established p clientFd serverPort world).status e).Open)
    (hopen' : ((s.established p clientFd serverPort world).status e').Open)
    (he : (s.established p clientFd serverPort world).port e =
      (s.established p clientFd serverPort world).port e') : e = e' := by
  have hlocal := h.localEnd
  have hremote : (s.established p clientFd serverPort world).port (s.count, .server) =
      serverPort := established_server
  rcases ends hopen with rfl | rfl | ⟨-, hold, hport⟩ <;>
    rcases ends hopen' with rfl | rfl | ⟨-, hold', hport'⟩
  · rfl
  · exact absurd (hremote.symm.trans (he.symm.trans hlocal)) h.ports_ne
  · exact absurd (hport'.symm.trans (he.symm.trans hlocal)) (h.older hi hold').1
  · exact absurd (hremote.symm.trans (he.trans hlocal)) h.ports_ne
  · rfl
  · exact absurd (hport'.symm.trans (he.symm.trans hremote)) (h.older hi hold').2
  · exact absurd (hport.symm.trans (he.trans hlocal)) (h.older hi hold).1
  · exact absurd (hport.symm.trans (he.trans hremote)) (h.older hi hold).2
  · exact hi.apart e e' hold hold' (hport.symm.trans (he.trans hport'))

theorem owned (h : Joins s p clientFd serverPort clientPort world) (hi : Sound s) {port : ℕ}
    (hport : world.portTable port ≠ 0) :
    (s.established p clientFd serverPort world).Owned port := by
  by_cases hclient : port = clientPort
  · refine .inr ⟨(s.count, .client), ?_, h.localEnd.trans hclient.symm⟩
    rw [established_connected]
    trivial
  by_cases hserver : port = serverPort
  · refine .inr ⟨(s.count, .server), ?_, established_server.trans hserver.symm⟩
    rw [established_waiting]
    trivial
  have hkept : world.portTable port = s.world.portTable port := by
    rw [h.portTable, Function.update_of_ne hclient, Function.update_of_ne hserver]
  rw [hkept] at hport
  rcases hi.owned port hport with hlisten | ⟨e, hopen, hport⟩
  · exact .inl (hlisten.congr hkept)
  · have hne : e.1 ≠ s.count := (hi.used hopen).ne
    exact .inr ⟨e, (established_open hne).mpr hopen, (established_port hne).trans hport⟩

theorem clientEntry (h : Joins s p clientFd serverPort clientPort world) (hi : Sound s)
    (hs : (s.established p clientFd serverPort world).status (m, .client) = .connected q fd) :
    0 ≤ fd ∧ fd < 1024 ∧ world.clientFdToIdx (q, fd) =
      packPorts ((s.established p clientFd serverPort world).port (m, .server))
        ((s.established p clientFd serverPort world).port (m, .client)) := by
  have hfd := h.fd
  rw [h.clientFdToIdx]
  by_cases hm : m = s.count
  · subst hm
    rw [established_connected] at hs
    cases hs
    rw [h.localEnd, established_server, Function.update_self]
    exact ⟨by omega, by omega, rfl⟩
  · rw [established_status hm] at hs
    split_ifs at hs with hlost
    obtain ⟨hnonneg, hlt, hold⟩ := hi.clientFd m q fd hs
    rw [established_port hm, established_port hm, Function.update_of_ne, hold]
    · exact ⟨hnonneg, hlt, rfl⟩
    · intro he
      obtain ⟨rfl, rfl⟩ := Prod.mk.inj he
      exact hlost hs

theorem serverEntry (hi : Sound s)
    (hs : (s.established p clientFd serverPort world).status (m, .server) = .connected q fd) :
    fd = packPorts ((s.established p clientFd serverPort world).port (m, .client))
      ((s.established p clientFd serverPort world).port (m, .server)) := by
  by_cases hm : m = s.count
  · subst hm
    rw [established_waiting] at hs
    cases hs
  · rw [established_status hm] at hs
    split_ifs at hs
    rw [established_port hm, established_port hm]
    exact hi.serverFd m q fd hs

end Joins

/-- A successful `connect` adds a connection. -/
theorem Sound.established {s : Sys} {p : Pid} (h : Sound s) {clientFd serverPort : ℕ}
    {world : World} {c : Cell} (hfd : clientFd < 1024) (hserver : serverPort < portNumber)
    (hc : World.Connected s.world p clientFd serverPort world)
    (ho : Opened s.world.rings world.rings c) :
    Sound (s.established p clientFd serverPort world) := by
  have hjoins := Joins.of_connected hc hfd hserver
  obtain ⟨hind, hsingle⟩ := h.indices_of ho
  refine ⟨hind, hsingle, fun _ => hjoins.range h, fun _ => hjoins.pos h, fun e he => ?_,
    fun _ => hjoins.owned h, fun _ _ _ => hjoins.clientEntry h, fun _ _ _ => Joins.serverEntry h⟩
  have hlt : s.count < e.1 := he
  rw [established_status hlt.ne', h.fresh e hlt.le]
  rfl

section other
variable {w w' : World} {p : Pid} {fd : ℤ} {call : Call}

/-- A call opens a ring and nothing else, or it is `close`. -/
theorem run_cases (hs : call.run w p fd = some w') :
    call ≠ .close ∧ OpensOnly w w' (call.cell w p fd) ∨
      call = .close ∧ ∃ ret, w.close p fd = some (ret, w') := by
  cases call with
  | send buf =>
    obtain ⟨⟨ret, w₁⟩, hsend, rfl⟩ := Option.map_eq_some_iff.mp hs
    exact .inl ⟨nofun, send_opens hsend⟩
  | recv len =>
    obtain ⟨⟨bytes, w₁⟩, hrecv, rfl⟩ := Option.map_eq_some_iff.mp hs
    exact .inl ⟨nofun, recv_opens hrecv⟩
  | close =>
    obtain ⟨⟨ret, w₁⟩, hclose, rfl⟩ := Option.map_eq_some_iff.mp hs
    exact .inr ⟨rfl, ret, hclose⟩

end other

theorem Sound.step {s s' : Sys} {a : Act} (h : Sound s)
    (hword : ∀ n p fd, a = .accept n p fd → s.OwnWord n) (hs : s.step a = some s') :
    Sound s' := by
  cases step_cases hs with
  | bind hp => exact h.bind hp
  | refused => exact h
  | connect hfd hserver hconnect hc =>
    exact h.established hfd hserver hc (connect_opens hserver hconnect)
  | accept hwaiting haccept =>
    obtain ⟨ho, hret⟩ := accept_opens haccept
    exact h.accepted hwaiting (hword _ _ _ rfl) ho hret
  | send hstatus hfd hsend => exact h.of_opens (send_opens hsend)
  | recv hstatus hfd hrecv => exact h.of_opens (recv_opens hrecv)
  | close hstatus hfd hclose =>
    obtain ⟨ls, hpart⟩ := h.indices
    obtain ⟨hind, hlen, -, htable, hfds⟩ := close_spec hpart hclose
    rw [h.localPort_eq hstatus hfd] at htable
    exact h.closed hstatus hind (hlen.trans h.single) htable hfds
  | other hfd hno hrun =>
    rcases run_cases hrun with ⟨-, ho⟩ | ⟨-, ret, hclose⟩
    · exact h.of_opens ho
    · obtain ⟨ls, hpart⟩ := h.indices
      obtain ⟨hind, hlen, -, htable, hfds⟩ := close_spec hpart hclose
      exact h.freed hind (hlen.trans h.single) htable hfds

/-- A `close` with a descriptor that no end has frees the port of no open end. -/
def ClosesOwn (s : Sys) : Act → Prop
  | .other p fd .close => s.Unowned (localPort (s.world.portsOf p fd))
  | _ => True

instance (s : Sys) (a : Act) : Decidable (ClosesOwn s a) := by
  unfold ClosesOwn
  split <;> infer_instance

namespace Inv
variable {s s' : Sys} {e : End} {p : Pid} {fd : ℤ}

theorem established (h : Inv s) {clientFd serverPort : ℕ} {world : World} {c : Cell}
    (hfd : clientFd < 1024) (hserver : serverPort < portNumber)
    (hc : World.Connected s.world p clientFd serverPort world)
    (ho : Opened s.world.rings world.rings c) :
    Inv (s.established p clientFd serverPort world) := by
  have hjoins := Joins.of_connected hc hfd hserver
  exact ⟨h.toSound.established hfd hserver hc ho, fun _ => hjoins.word h,
    fun _ _ => hjoins.apart h⟩

theorem accepted (h : Inv s) {n : ℕ} {ret : ℤ} {world : World} {c : Cell}
    (hwaiting : s.status (n, .server) = .waiting) (ho : OpensOnly s.world world c)
    (hret : ret = packPorts (u32 (s.world.portTable (s.port (n, .server))) &&& 0xFFFF)
      (s.port (n, .server))) :
    Inv { s with world, status := Function.update s.status (n, .server) (.connected p ret) } := by
  have hstatus : ∀ e, (Function.update s.status (n, .server) (.connected p ret) e).Open →
      (s.status e).Open := fun e hopen => by
    by_cases he : e = (n, .server)
    · rw [he, hwaiting]
      trivial
    · rwa [Function.update_of_ne he] at hopen
  refine ⟨h.toSound.accepted hwaiting (h.ownWord hwaiting) ho hret, ?_, ?_⟩
  · exact fun e he => (h.of_opens ho).word e (hstatus e he)
  · exact fun e e' he he' => h.apart e e' (hstatus e he) (hstatus e' he')

theorem closed (h : Inv s) {world : World} (hs : s.status e = .connected p fd)
    (hsound : Sound { s with world, status := Function.update s.status e .closed })
    (htable : world.portTable = Function.update s.world.portTable (s.port e) 0) :
    Inv { s with world, status := Function.update s.status e .closed } := by
  have hkept : ∀ {e'}, (Function.update s.status e .closed e').Open →
      e' ≠ e ∧ (s.status e').Open := fun {e'} ho => by
    by_cases he : e' = e
    · rw [he, Function.update_self] at ho
      exact ho.elim
    · rw [Function.update_of_ne he] at ho
      exact ⟨he, ho⟩
  refine ⟨hsound, fun e' ho => ?_, fun e' e'' he' he'' => h.apart e' e'' (hkept he').2 (hkept he'').2⟩
  obtain ⟨he, ho⟩ := hkept ho
  have hport : s.port e' ≠ s.port e := fun hp => he (h.apart e' e ho (open_of_connected hs) hp)
  change world.portTable _ = _
  rw [htable, Function.update_of_ne hport]
  exact h.word e' ho

theorem step {a : Act} (h : Inv s) (ha : ClosesOwn s a) (hs : s.step a = some s') : Inv s' := by
  have hsound : (∀ n p fd, a = .accept n p fd → s.OwnWord n) → Sound s' :=
    fun hword => h.toSound.step hword hs
  cases step_cases hs with
  | bind hp => exact h.bind hp
  | refused => exact h
  | connect hfd hserver hconnect hc =>
    exact h.established hfd hserver hc (connect_opens hserver hconnect)
  | accept hwaiting haccept =>
    obtain ⟨ho, hret⟩ := accept_opens haccept
    exact h.accepted hwaiting ho hret
  | send hstatus hfd hsend => exact h.of_opens (send_opens hsend)
  | recv hstatus hfd hrecv => exact h.of_opens (recv_opens hrecv)
  | close hstatus hfd hclose =>
    obtain ⟨-, htable, -⟩ := close_changes hclose
    rw [h.localPort_eq hstatus hfd] at htable
    exact h.closed hstatus (hsound nofun) htable
  | other hfd hno hrun =>
    rcases run_cases hrun with ⟨-, ho⟩ | ⟨rfl, ret, hclose⟩
    · exact h.of_opens ho
    · obtain ⟨-, htable, -⟩ := close_changes hclose
      refine ⟨hsound nofun, fun e hopen => ?_, h.apart⟩
      exact (congrFun htable _).trans
        ((Function.update_of_ne (ha e.1 (h.used hopen) e.2 hopen) _ _).trans (h.word e hopen))

end Inv

theorem reachable_inv {s : Sys} (h : machine.Reachable ClosesOwn s) : Inv s :=
  h.invariant (fun _ => Inv.start) fun _ _ _ hi ha hs => hi.step ha hs

end ShmSocket.Session
