import ShmSocket.Connection.SessionsInv

/-! What finished connections leave behind: words of the port table, entries of the index
tables, and indices that are not back on the free list. -/
namespace ShmSocket.Session
open StepMachine PortTable Indices
open Net (Side End peer)

/-- Both ends have called `close`. -/
def Sys.Finished (s : Sys) (n : ℕ) : Prop :=
  s.status (n, .client) = .closed ∧ s.status (n, .server) = .closed

/-- The index is on a free list of the pool. -/
def Sys.Free (s : Sys) (k : ℕ) : Prop :=
  ∃ ls, List.Forall₂ FreeList s.world.rings.tables.pool ls ∧ k ∈ freeFrom 0 ls

/-- The process that has or had the descriptor of an end. A waiting server has none yet. -/
def Status.pid : Status → Pid
  | .connected p _ | .lost p => p
  | .unused | .waiting | .closed => 0

/-- The entry of the ring that an end receives from, in the tables of its process. -/
def Sys.inbox (s : Sys) (e : End) : Cell :=
  ShmSocket.cell (s.status e).pid (s.port (peer e), s.port e)

/-- An end that has not closed receives from the ring of the entry. -/
def Sys.Receives (s : Sys) (c : Cell) : Prop :=
  ∃ n < s.count, ∃ side : Side, (s.status (n, side)).Open ∧ s.inbox (n, side) = c

instance {P : Side → Prop} [DecidablePred P] : Decidable (∃ side, P side) :=
  decidable_of_iff (P .client ∨ P .server) ⟨fun h => h.elim (⟨_, ·⟩) (⟨_, ·⟩),
    fun ⟨side, h⟩ => by cases side; exacts [.inl h, .inr h]⟩

instance (s : Sys) (c : Cell) : Decidable (s.Receives c) := by
  unfold Sys.Receives
  infer_instance

/-- A finished connection has given everything back: what its ports and entries hold now
are the words of a `bind` or of open ends, and the indices that open ends receive from. -/
structure NothingLeft (s : Sys) : Prop where
  ports : ∀ n, s.Finished n → ∀ side,
    s.world.portTable (s.port (n, side)) = 0 ∨ s.Owned (s.port (n, side))
  /-- In the tables of every process. -/
  entries : ∀ n, s.Finished n → ∀ side p,
    let c := ShmSocket.cell p (s.port (peer (n, side)), s.port (n, side))
    s.world.rings.tables.table c = 0 ∨ s.Receives c
  /-- An index that is not free is the one an open end receives from. -/
  taken : ∀ k, 1 ≤ k → k ≤ channelSize → ¬ s.Free k →
    ∃ e, (s.status e).Open ∧ s.world.rings.tables.table (s.inbox e) = k
  allBack : (∀ e, ¬ (s.status e).Open) → ∀ s₀, machine.init s₀ → ∀ k, s.Free k ↔ s₀.Free k

/-- `accept` reads the word of its own client, and it, `send`, and the calls other than
`close` with a descriptor that no end has ask for entries that open ends receive from. -/
def GivesBack (s : Sys) : Act → Prop
  | .accept n p fd => s.OwnWord n ∧ s.Receives (ShmSocket.cell p (remotePort fd, localPort fd))
  | .send e buf => match s.status e with
      | .connected p fd => s.Receives ((Call.send buf).cell s.world p fd)
      | _ => True
  | .other p fd call => call = .close ∨ s.Receives (call.cell s.world p fd)
  | _ => True

instance (s : Sys) (a : Act) : Decidable (GivesBack s a) := by
  unfold GivesBack Sys.OwnWord
  split
  · infer_instance
  · split <;> infer_instance
  · infer_instance
  · infer_instance

/-- Every index that is out belongs to the receiving ring of an open end. -/
structure Clean (s : Sys) : Prop where
  sound : Sound s
  live : ∀ c, s.world.rings.tables.table c ≠ 0 → s.Receives c

theorem Sound.receives {s : Sys} {e : End} (h : Sound s) (hopen : (s.status e).Open) :
    s.Receives (s.inbox e) := ⟨e.1, h.used hopen, e.2, hopen, rfl⟩

namespace Clean
variable {s s' : Sys} {e : End} {p : Pid} {fd : ℤ}

theorem start (h : machine.init s) : Clean s := by
  refine ⟨.start h, fun c hc => ?_⟩
  obtain ⟨⟨a, htables⟩, -⟩ := h
  rw [htables] at hc
  exact absurd rfl hc

/-- The entry that `recv` and `close` resolve to. -/
theorem recvCell (h : Clean s) (hs : s.status e = .connected p fd) (hfd : 0 ≤ fd) :
    ShmSocket.cell p (remotePort (s.world.portsOf p fd), localPort (s.world.portsOf p fd)) =
      s.inbox e := by
  rw [h.sound.remotePort_eq hs hfd, h.sound.localPort_eq hs hfd, Sys.inbox, hs]
  rfl

/-- Opening the ring of an open end takes no index that nobody gives back. -/
theorem of_opens {world : World} {c : Cell} (h : Clean s) (ho : OpensOnly s.world world c)
    (hc : s.Receives c) : Clean { s with world } := by
  refine ⟨h.sound.of_opens ho, fun c' hc' => ?_⟩
  by_cases he : c' = c
  · exact he ▸ hc
  · exact h.live c' ((ho.opened.table_of_ne he).symm.trans_ne hc')

theorem bind (h : Clean s) {port : ℕ} (hp : IsPid p) :
    Clean { s with world := (s.world.bind p port).2 } := by
  have htables : (s.world.bind p port).2.rings.tables = s.world.rings.tables := by
    unfold World.bind
    split <;> rfl
  refine ⟨h.sound.bind hp, fun c hc => ?_⟩
  change (s.world.bind p port).2.rings.tables.table c ≠ 0 at hc
  rw [htables] at hc
  exact h.live c hc

/-- An end of an older connection receives from the ring that it did, whether or not its
descriptor has just been taken from it. -/
theorem inbox_established {clientFd serverPort : ℕ} {world : World} (he : e.1 ≠ s.count) :
    (s.established p clientFd serverPort world).inbox e = s.inbox e := by
  have hpeer : (peer e).1 ≠ s.count := he
  rw [Sys.inbox, Sys.inbox, established_port he, established_port hpeer, established_status he]
  split_ifs with hlost
  · rw [hlost]
    rfl
  · rfl

/-- `connect` opens the ring its new client receives from. -/
theorem established (h : Clean s) {clientFd serverPort : ℕ} {world : World}
    (hfd : clientFd < 1024) (hserver : serverPort < portNumber)
    (hconnect : s.world.connect p clientFd serverPort = some (0, world))
    (hc : World.Connected s.world p clientFd serverPort world) :
    Clean (s.established p clientFd serverPort world) := by
  have ho := connect_opens hserver hconnect
  have hj := Joins.of_connected hc hfd hserver
  refine ⟨h.sound.established hfd hserver hc ho, fun c hz => ?_⟩
  change world.rings.tables.table c ≠ 0 at hz
  by_cases he : c = ShmSocket.cell p (serverPort, getFreePort s.world.portTable)
  · refine ⟨s.count, Nat.lt_succ_self _, .client, ?_, ?_⟩
    · rw [established_connected]
      trivial
    · rw [he, Sys.inbox, established_connected, hj.localEnd]
      change ShmSocket.cell p ((s.established p clientFd serverPort world).port
        (s.count, .server), _) = _
      rw [established_server]
  · rw [ho.table_of_ne he] at hz
    obtain ⟨n, hn, side, hopen, hcell⟩ := h.live c hz
    exact ⟨n, hn.trans (Nat.lt_succ_self _), side, (established_open hn.ne).mpr hopen,
      (inbox_established hn.ne).trans hcell⟩

/-- A server that has accepted receives from the ring that was waiting for it. -/
theorem accepted (h : Clean s) {n : ℕ} {ret : ℤ} {world : World} {c : Cell}
    (hwaiting : s.status (n, .server) = .waiting) (hword : s.OwnWord n)
    (ho : OpensOnly s.world world c)
    (hret : ret = packPorts (u32 (s.world.portTable (s.port (n, .server))) &&& 0xFFFF)
      (s.port (n, .server)))
    (hc : s.Receives c) :
    Clean { s with
      world
      status := Function.update s.status (n, .server) (.connected p ret) } := by
  have hused : n < s.count := h.sound.used (e := (n, .server)) (hwaiting ▸ trivial)
  have hpos := (h.sound.clientPos n hused).ne'
  refine ⟨h.sound.accepted hwaiting hword ho hret, fun c' hc' => ?_⟩
  obtain ⟨m, hm, side, hopen, hcell⟩ := (h.of_opens ho hc).live c' hc'
  refine ⟨m, hm, side, ?_⟩
  change (Function.update s.status (n, .server) (.connected p ret) (m, side)).Open ∧
    ShmSocket.cell (Function.update s.status (n, .server) (.connected p ret) (m, side)).pid _ = _
  by_cases he : (m, side) = (n, .server)
  · cases he
    rw [Function.update_self]
    exact ⟨trivial, (cell_shared _ _ hpos).trans hcell⟩
  · rw [Function.update_of_ne he]
    exact ⟨hopen, hcell⟩

/-- `close` gives the index of its end back. -/
theorem closed (h : Clean s) {world : World} 
    (hsound : Sound { s with world, status := Function.update s.status e .closed })
    (hentry : world.rings.tables.table =
      Function.update s.world.rings.tables.table (s.inbox e) 0) :
    Clean { s with world, status := Function.update s.status e .closed } := by
  refine ⟨hsound, fun c hc => ?_⟩
  change world.rings.tables.table c ≠ 0 at hc
  rw [hentry] at hc
  have hne : c ≠ s.inbox e := fun he => hc (by rw [he, Function.update_self])
  rw [Function.update_of_ne hne] at hc
  obtain ⟨n, hn, side, hopen, hcell⟩ := h.live c hc
  have he : (n, side) ≠ e := fun he => hne (by rw [← hcell, he])
  refine ⟨n, hn, side, ?_⟩
  change (Function.update s.status e .closed (n, side)).Open ∧
    ShmSocket.cell (Function.update s.status e .closed (n, side)).pid _ = _
  rw [Function.update_of_ne he]
  exact ⟨hopen, hcell⟩

/-- `close` with a descriptor that no end has takes no index and may give one back. -/
theorem cleared {world : World} {c : Cell} (h : Clean s) (hsound : Sound { s with world })
    (hentry : world.rings.tables.table = Function.update s.world.rings.tables.table c 0) :
    Clean { s with world } := by
  refine ⟨hsound, fun c' hc' => ?_⟩
  change world.rings.tables.table c' ≠ 0 at hc'
  rw [hentry] at hc'
  have hne : c' ≠ c := fun he => hc' (by rw [he, Function.update_self])
  rw [Function.update_of_ne hne] at hc'
  exact h.live c' hc'

theorem step {a : Act} (h : Clean s) (hc : GivesBack s a) (hs : s.step a = some s') :
    Clean s' := by
  have hsound : Sound s' := h.sound.step (fun n p fd ha => by subst ha; exact hc.1) hs
  cases step_cases hs with
  | bind hp => exact h.bind hp
  | refused => exact h
  | connect hfd hserver hconnect hcon => exact h.established hfd hserver hconnect hcon
  | accept hwaiting haccept =>
    obtain ⟨ho, hret⟩ := accept_opens haccept
    exact h.accepted hwaiting hc.1 ho hret hc.2
  | send hstatus hfd hsend =>
    simp only [GivesBack, hstatus] at hc
    exact h.of_opens (send_opens hsend) hc
  | recv hstatus hfd hrecv =>
    have ho := recv_opens hrecv
    rw [h.recvCell hstatus hfd] at ho
    exact h.of_opens ho (h.sound.receives (open_of_connected hstatus))
  | close hstatus hfd hclose =>
    obtain ⟨hentry, -⟩ := close_changes hclose
    rw [h.recvCell hstatus hfd] at hentry
    exact h.closed hsound hentry
  | other hfd hno hrun =>
    rcases run_cases hrun with ⟨hcall, ho⟩ | ⟨-, ret, hclose⟩
    · exact h.of_opens ho (hc.resolve_left hcall)
    · exact h.cleared hsound (close_changes hclose).1

end Clean

theorem free_iff {s : Sys} (h : Sound s) (k : ℕ) : s.Free k ↔
    1 ≤ k ∧ k ≤ channelSize ∧ ∀ c, s.world.rings.tables.table c ≠ k := by
  obtain ⟨ls, hpart⟩ := h.indices
  have hfree := hpart.free k
  rw [h.single, Nat.mul_one] at hfree
  rw [← hfree]
  constructor
  · rintro ⟨ls', hlists, hk⟩
    rwa [List.right_unique_forall₂' (fun _ _ _ hl hl' => hl.unique hl') hlists hpart.lists] at hk
  · exact fun hk => ⟨ls, hpart.lists, hk⟩

theorem Clean.nothingLeft {s : Sys} (h : Clean s) : NothingLeft s := by
  constructor
  · intro n _ side
    exact (em _).imp_right (h.sound.owned _)
  · intro n _ side p
    exact (em _).imp_right (h.live _)
  · intro k hpos hle hk
    obtain ⟨c, hc⟩ : ∃ c, s.world.rings.tables.table c = k := by
      by_contra hno
      exact hk ((free_iff h.sound k).mpr ⟨hpos, hle, fun c he => hno ⟨c, he⟩⟩)
    obtain ⟨n, -, side, hopen, rfl⟩ := h.live c (by omega)
    exact ⟨_, hopen, hc⟩
  · intro hclosed s₀ h₀ k
    have hzero : ∀ c, s.world.rings.tables.table c = 0 := fun c => by
      by_contra hc
      obtain ⟨n, -, side, hopen, -⟩ := h.live c hc
      exact hclosed _ hopen
    have hzero₀ : ∀ c, s₀.world.rings.tables.table c = 0 := fun c => by
      obtain ⟨⟨a, htables⟩, -⟩ := h₀
      rw [htables]
    rw [free_iff h.sound, free_iff (.start h₀)]
    simp only [hzero, hzero₀]

/-- A finished connection leaves nothing behind, as long as each call opens only rings
that somebody will close. -/
theorem finished_leaves_nothing {s : Sys} (h : machine.Reachable GivesBack s) : NothingLeft s :=
  (h.invariant (fun _ => Clean.start) fun _ _ _ hi hc hs => hi.step hc hs).nothingLeft

instance (s : Sys) (n : ℕ) : Decidable (s.Finished n) := by
  unfold Sys.Finished
  infer_instance

/-- The server accepts with a descriptor whose ports are those of the connection. After the
connection both processes call `close` once more, and nobody uses the port 0 that is bound. -/
def lifeOfOne : List Act :=
  [.bind 7 80, .bind 7 0, .connect 8 3 80, .accept 0 7 65616, .send (0, .client) [5],
    .recv (0, .server) 1, .close (0, .client), .close (0, .server), .other 8 3 .close,
    .other 7 65616 .close]

theorem finished_leaves_nothing_port80 : ∃ s, s.Finished 0 ∧ NothingLeft s := by
  obtain ⟨s, hr, hs⟩ := reachable_of_guarded (M := machine) (C := GivesBack)
    (fun _ _ => of_decide_eq_true) (l := lifeOfOne) (P := fun s => decide (s.Finished 0))
    blank_init (by decide +kernel)
  exact ⟨s, of_decide_eq_true hs, finished_leaves_nothing hr⟩

theorem none_open {s : Sys} (h : Sound s) (hcount : s.count = 1) (hf : s.Finished 0) (e : End) :
    ¬ (s.status e).Open := by
  obtain ⟨n, side⟩ := e
  by_cases hn : n = 0
  · subst hn
    cases side
    · rw [hf.1]
      exact id
    · rw [hf.2]
      exact id
  · rw [h.fresh (n, side) (by omega)]
    exact id

/-- An index that some entry holds has not come back. -/
theorem not_nothingLeft {s : Sys} (h : Sound s) (hclosed : ∀ e, ¬ (s.status e).Open) {c : Cell}
    (hpos : s.world.rings.tables.table c ≠ 0)
    (hle : s.world.rings.tables.table c ≤ channelSize) : ¬ NothingLeft s := by
  intro hn
  have hfree := (free_iff (.start blank_init) (s.world.rings.tables.table c)).mpr
    ⟨Nat.pos_of_ne_zero hpos, hle, fun _ => hpos.symm⟩
  have hback := (hn.allBack hclosed blank blank_init _).mpr hfree
  exact ((free_iff h _).mp hback).2.2 c rfl

/-- A run with one connection, whose ends have both closed, that leaves an index in an entry. -/
theorem left_of_run {l : List Act} (c : Cell)
    (h : ((machine.guarded fun s a => decide (ClosesOwn s a)).run blank l).any (fun s =>
      decide (s.count = 1 ∧ s.Finished 0 ∧ s.world.rings.tables.table c ≠ 0 ∧
        s.world.rings.tables.table c ≤ channelSize)) = true) :
    ∃ s, machine.Reachable Any s ∧ s.Finished 0 ∧ (∀ e, ¬ (s.status e).Open) ∧
      s.world.rings.tables.table c ≠ 0 ∧ ¬ NothingLeft s := by
  obtain ⟨s, hr, hs⟩ := reachable_of_guarded (fun _ _ => of_decide_eq_true) blank_init h
  obtain ⟨hcount, hf, hentry, hle⟩ := of_decide_eq_true hs
  have hsound : Sound s := (reachable_inv hr).toSound
  have hclosed := none_open hsound hcount hf
  exact ⟨s, hr.mono fun _ _ _ => trivial, hf, hclosed, hentry,
    not_nothingLeft hsound hclosed hentry hle⟩

def openAndClose : List Act :=
  [.bind 7 80, .connect 8 3 80, .accept 0 7 4, .close (0, .client), .close (0, .server)]

def sendAfterClose : List Act :=
  [.bind 7 80, .connect 8 3 80, .accept 0 7 4, .close (0, .server), .send (0, .client) [5],
    .close (0, .client)]

/-- `accept` leaves an index in the entry of the ports it reads out of the listening
descriptor, `send` one in the entry of a peer that has closed, and `recv` one in the entry
of its own closed descriptor. -/
theorem indices_left : (∃ s, machine.Reachable Any s ∧ s.Finished 0 ∧
      (∀ e, ¬ (s.status e).Open) ∧
      s.world.rings.tables.table (ShmSocket.cell 7 (0, 4)) ≠ 0 ∧ ¬ NothingLeft s) ∧
    (∃ s, machine.Reachable Any s ∧ s.Finished 0 ∧ (∀ e, ¬ (s.status e).Open) ∧
      s.world.rings.tables.table (ShmSocket.cell 8 (1, 80)) ≠ 0 ∧ ¬ NothingLeft s) ∧
    ∃ s, machine.Reachable Any s ∧ s.Finished 0 ∧ (∀ e, ¬ (s.status e).Open) ∧
      s.world.rings.tables.table (ShmSocket.cell 8 (80, 1)) ≠ 0 ∧ ¬ NothingLeft s := by
  refine ⟨left_of_run (l := openAndClose) _ ?_, left_of_run (l := sendAfterClose) _ ?_,
    left_of_run (l := openAndClose ++ [.other 8 3 (.recv 1)]) _ ?_⟩
  · decide +kernel
  · decide +kernel
  · decide +kernel

end ShmSocket.Session
