import ShmSocket.Connection.SessionsInv

/-! Which words and entries `close` changes, for any descriptor: an end of a connection, a
listening one, one that was never connected or has been closed. -/
namespace ShmSocket.Closing
open StepMachine PortTable Indices
open Session (IsPid)

/-- A descriptor of a process. -/
abbrev Desc := Pid × ℤ

/-- What a descriptor has a port for. A listening one waits for `accept` once a client has
connected. -/
inductive Role where
  | listening
  | pending (n : ℕ)
  | server (n : ℕ)
  | client (n : ℕ)
  deriving DecidableEq

/-- A connection, with the processes of its two ends. -/
structure Link where
  serverPort : ℕ
  clientPort : ℕ
  client : Pid
  server : Pid

/-- `owner` has the descriptor that owns a port now. -/
structure Sys where
  world : World
  links : List Link
  owner : ℕ → Option (Desc × Role)

/-- Calls with their descriptors. `accept` answers the connection `n`. Before a call its
process may find anything in the pool: a channel that has been added, other free lists, or
a chain of its own. -/
inductive Act where
  | pool (channels : Pool)
  | bind (p : Pid) (fd port : ℕ)
  | connect (p : Pid) (fd serverPort : ℕ)
  | accept (n : ℕ) (p : Pid) (fd : ℤ)
  | close (p : Pid) (fd : ℤ)

section owner
variable (owner : ℕ → Option (Desc × Role))

/-- The descriptor owns nothing any more. -/
def drop (d : Desc) (q : ℕ) : Option (Desc × Role) := (owner q).filter (·.1 ≠ d)

/-- The descriptor owns port `q` and no other: it stands for what it was given last. -/
def give (d : Desc) (role : Role) (q : ℕ) : ℕ → Option (Desc × Role) :=
  Function.update (drop owner d) q (some (d, role))

/-- A client has won port `q`. -/
def await (n q : ℕ) : ℕ → Option (Desc × Role) :=
  Function.update owner q ((owner q).map fun x => (x.1, .pending n))

end owner

/-- The index-table entries of a connection: both directions, as its processes see them. -/
def Link.cells (l : Link) : List Cell :=
  [cell l.client (l.serverPort, l.clientPort), cell l.client (l.clientPort, l.serverPort),
    cell l.server (l.serverPort, l.clientPort), cell l.server (l.clientPort, l.serverPort)]

namespace Sys

/-- After a successful `connect`. -/
def established (s : Sys) (p : Pid) (fd serverPort : ℕ) (world : World) : Sys where
  world
  links := s.links ++ [⟨serverPort, getFreePort s.world.portTable, p,
    u32 (s.world.portTable serverPort)⟩]
  owner := give (await s.owner s.links.length serverPort) (p, fd) (.client s.links.length)
    (getFreePort s.world.portTable)

/-- The descriptor that `accept` returns takes the server port over. A negative descriptor
makes `close` read in front of `client_fd_to_idx`. -/
def step (s : Sys) : Act → Option Sys
  | .pool channels =>
      let tables := { s.world.rings.tables with pool := channels }
      some { s with world := { s.world with rings := { s.world.rings with tables } } }
  | .bind p fd port =>
      if IsPid p ∧ port < portNumber then
        let (ret, world) := s.world.bind p port
        some (if ret = 0 then { s with world, owner := give s.owner (p, fd) .listening port }
          else { s with world })
      else none
  | .connect p fd serverPort =>
      if IsPid p ∧ fd < 1024 ∧ serverPort < portNumber then
        (s.world.connect p fd serverPort).map fun (ret, world) =>
          if ret = 0 then s.established p fd serverPort world else { s with world }
      else none
  | .accept n p fd =>
      (s.links[n]?).bind fun l =>
        if s.owner l.serverPort = some ((p, fd), .pending n) then
          (s.world.accept p fd l.serverPort).map fun (ret, world) =>
            { s with world, owner := give s.owner (p, ret) (.server n) l.serverPort }
        else none
  | .close p fd =>
      if 0 ≤ fd then
        (s.world.close p fd).map fun (_, world) =>
          { s with world, owner := drop s.owner (p, fd) }
      else none

def Owns (s : Sys) (d : Desc) (q : ℕ) : Prop := ∃ role, s.owner q = some (d, role)

/-- A descriptor has a port for connection `n`. -/
def Open (s : Sys) (n : ℕ) : Prop :=
  ∃ q d role, s.owner q = some (d, role) ∧ (role = .pending n ∨ role = .server n ∨ role = .client n)

def IsEnd (s : Sys) (d : Desc) (n : ℕ) : Prop :=
  ∃ q role, s.owner q = some (d, role) ∧ (role = .server n ∨ role = .client n)

end Sys

/-- Empty tables and no descriptors. -/
def machine : StepMachine Sys Act where
  init s := (∀ c, s.world.rings.tables.table c = 0) ∧
    (∀ port, s.world.portTable port = 0) ∧ s.links = [] ∧ ∀ q, s.owner q = none
  step := Sys.step

/-- `close` zeroes the entry of the port that the descriptor owns, and changes neither
another entry nor one of a connection that the descriptor is no end of. -/
structure Touches (s : Sys) (d : Desc) (w : World) : Prop where
  own : ∀ q, s.Owns d q → w.portTable q = 0
  others : ∀ q, ¬s.Owns d q → w.portTable q = s.world.portTable q
  entries : ∀ n l, s.links[n]? = some l → s.Open n → ¬s.IsEnd d n → ∀ c ∈ l.cells,
    w.rings.tables.table c = s.world.rings.tables.table c

/-- The local port that `close` derives is the descriptor's own, or the descriptor owns none
in use and neither is that one in use; and the pair that it derives has no entry, or not one
of somebody else's connection. -/
structure Derives (s : Sys) (p : Pid) (fd : ℤ) : Prop where
  port : s.Owns (p, fd) (localPort (s.world.portsOf p fd)) ∨
    s.world.portTable (localPort (s.world.portsOf p fd)) = 0 ∧
      ∀ q, s.Owns (p, fd) q → s.world.portTable q = 0
  entry : ∀ n l, s.links[n]? = some l → s.Open n → ¬s.IsEnd (p, fd) n →
    cell p (remotePort (s.world.portsOf p fd), localPort (s.world.portsOf p fd)) ∈ l.cells →
      s.world.rings.tables.table
        (cell p (remotePort (s.world.portsOf p fd), localPort (s.world.portsOf p fd))) = 0

def ClosesDerived (s : Sys) : Act → Prop
  | .close p fd => Derives s p fd
  | _ => True

section owner
variable {owner : ℕ → Option (Desc × Role)} {d e : Desc} {role role' : Role} {n q r : ℕ}

theorem drop_some {x : Desc × Role} : drop owner d q = some x ↔ owner q = some x ∧ x.1 ≠ d := by
  rw [drop, Option.filter_eq_some_iff, decide_eq_true_iff]

theorem give_self : give owner d role q q = some (d, role) := Function.update_self _ _ _

theorem give_of_ne {x : Desc × Role} (h : r ≠ q) :
    give owner d role q r = some x ↔ owner r = some x ∧ x.1 ≠ d := by
  rw [give, Function.update_of_ne h, drop_some]

theorem await_of_ne (h : r ≠ q) : await owner n q r = owner r := Function.update_of_ne h _ _

theorem await_some {x : Desc × Role} (h : await owner n q r = some x) :
    ∃ role, owner r = some (x.1, role) ∧ (r = q ∧ x.2 = .pending n ∨ r ≠ q ∧ role = x.2) := by
  by_cases hr : r = q
  · subst hr
    rw [await, Function.update_self] at h
    obtain ⟨y, hy, rfl⟩ := Option.map_eq_some_iff.mp h
    exact ⟨y.2, hy, .inl ⟨rfl, rfl⟩⟩
  · rw [await_of_ne hr] at h
    exact ⟨x.2, h, .inr ⟨hr, rfl⟩⟩

/-- Every descriptor owns at most one port. -/
def Single (owner : ℕ → Option (Desc × Role)) : Prop :=
  ∀ d q q' role role', owner q = some (d, role) → owner q' = some (d, role') → q = q'

theorem Single.drop (h : Single owner) (d : Desc) : Single (drop owner d) := by
  intro e q q' role role' hq hq'
  exact h e q q' role role' (drop_some.mp hq).1 (drop_some.mp hq').1

theorem Single.give (h : Single owner) (d : Desc) (role : Role) (q : ℕ) :
    Single (give owner d role q) := by
  intro e r r' ρ ρ' hr hr'
  by_cases he : e = d
  · have hown : ∀ {r ρ}, Closing.give owner d role q r = some (e, ρ) → r = q := fun hr => by
      by_contra hne
      exact ((give_of_ne hne).mp hr).2 he
    rw [hown hr, hown hr']
  · have hkept : ∀ {r ρ}, Closing.give owner d role q r = some (e, ρ) → owner r = some (e, ρ) :=
      fun {r ρ} hr => by
        by_cases hrq : r = q
        · rw [hrq, give_self] at hr
          exact absurd (congrArg Prod.fst (Option.some.inj hr)).symm he
        · exact ((give_of_ne hrq).mp hr).1
    exact h e r r' ρ ρ' (hkept hr) (hkept hr')

theorem Single.await (h : Single owner) (n q : ℕ) : Single (await owner n q) := by
  intro e r r' ρ ρ' hr hr'
  obtain ⟨ρ₁, hr, -⟩ := await_some hr
  obtain ⟨ρ₂, hr', -⟩ := await_some hr'
  exact h e r r' ρ₁ ρ₂ hr hr'

end owner

variable {s s' : Sys} {a : Act} {p : Pid} {fd : ℤ} {n : ℕ} {w : World}

/-- All that a step can do, with what it has found. -/
inductive Move (s : Sys) : Act → Sys → Prop
  | failed {a : Act} (ha : ∀ p fd, a ≠ .close p fd) : Move s a s
  | pool {channels : Pool} : Move s (.pool channels)
      { s with world := { s.world with rings := { s.world.rings with
        tables := { s.world.rings.tables with pool := channels } } } }
  | bind {p : Pid} {fd port : ℕ} (hfree : s.world.portTable port = 0) :
      Move s (.bind p fd port)
        { s with
          world := { s.world with portTable := Function.update s.world.portTable port p }
          owner := give s.owner (p, fd) .listening port }
  | connect {p : Pid} {fd serverPort : ℕ} {world : World} (hp : IsPid p) (hfd : fd < 1024)
      (hport : serverPort < portNumber) (hs : s.world.connect p fd serverPort = some (0, world))
      (hc : World.Connected s.world p fd serverPort world) :
      Move s (.connect p fd serverPort) (s.established p fd serverPort world)
  | accept {n : ℕ} {p : Pid} {fd ret : ℤ} {l : Link} {world : World} (hl : s.links[n]? = some l)
      (howner : s.owner l.serverPort = some ((p, fd), .pending n))
      (hs : s.world.accept p fd l.serverPort = some (ret, world)) :
      Move s (.accept n p fd)
        { s with world, owner := give s.owner (p, ret) (.server n) l.serverPort }
  | close {p : Pid} {fd ret : ℤ} {world : World} (hfd : 0 ≤ fd)
      (hs : s.world.close p fd = some (ret, world)) :
      Move s (.close p fd) { s with world, owner := drop s.owner (p, fd) }

theorem step_cases (h : s.step a = some s') : Move s a s' := by
  cases a with
  | pool channels =>
    cases h
    exact .pool
  | bind p fd port =>
    simp only [Sys.step] at h
    split at h
    · cases h
      by_cases hfree : s.world.portTable port = 0
      · simp only [World.bind, hfree, ne_eq, not_true, if_false, if_true]
        exact .bind hfree
      · simp only [World.bind, ne_eq, hfree, not_false_eq_true, if_true]
        exact .failed fun _ _ => nofun
    · cases h
  | connect p fd serverPort =>
    simp only [Sys.step] at h
    split at h
    · next hguard =>
      obtain ⟨⟨ret, world⟩, hs, rfl⟩ := Option.map_eq_some_iff.mp h
      rcases World.connect_spec hs with ⟨hret, rfl⟩ | ⟨rfl, hc⟩
      · rw [if_neg hret]
        exact .failed fun _ _ => nofun
      · rw [if_pos rfl]
        exact .connect hguard.1 hguard.2.1 hguard.2.2 hs hc
    · cases h
  | accept n p fd =>
    obtain ⟨l, hl, h⟩ := Option.bind_eq_some_iff.mp h
    split at h
    · next howner =>
      obtain ⟨⟨ret, world⟩, hs, rfl⟩ := Option.map_eq_some_iff.mp h
      exact .accept hl howner hs
    · cases h
  | close p fd =>
    simp only [Sys.step] at h
    split at h
    · next hfd =>
      obtain ⟨⟨ret, world⟩, hs, rfl⟩ := Option.map_eq_some_iff.mp h
      exact .close hfd hs
    · cases h

theorem single_start (h : machine.init s) : Single s.owner := by
  intro d q q' role role' hq
  rw [h.2.2.2] at hq
  cases hq

theorem single_step (h : Single s.owner) (hs : s.step a = some s') : Single s'.owner := by
  cases step_cases hs with
  | failed => exact h
  | pool => exact h
  | bind => exact h.give _ _ _
  | connect => exact (h.await _ _).give _ _ _
  | accept => exact h.give _ _ _
  | close => exact h.drop _

/-- `close` touches only what the descriptor owns exactly when it derives that. -/
theorem touches_iff {ret : ℤ} (h : Single s.owner)
    (hs : s.world.close p fd = some (ret, w)) : Touches s (p, fd) w ↔ Derives s p fd := by
  obtain ⟨htable, hports, -⟩ := Session.close_changes hs
  set q₀ := localPort (s.world.portsOf p fd)
  set c₀ := cell p (remotePort (s.world.portsOf p fd), q₀)
  constructor
  · intro ht
    refine ⟨?_, fun n l hl hopen hend hc => ?_⟩
    · by_cases how : s.Owns (p, fd) q₀
      · exact .inl how
      · refine .inr ⟨?_, fun q hq => ?_⟩
        · have hkept := ht.others q₀ how
          rw [hports, Function.update_self] at hkept
          exact hkept.symm
        · have hzero := ht.own q hq
          have hne : q ≠ q₀ := fun he => how (he ▸ hq)
          rwa [hports, Function.update_of_ne hne] at hzero
    · have hkept := ht.entries n l hl hopen hend c₀ hc
      rw [htable, Function.update_self] at hkept
      exact hkept.symm
  · rintro ⟨hport, hentry⟩
    refine ⟨fun q hq => ?_, fun q hq => ?_, fun n l hl hopen hend c hc => ?_⟩
    · rw [hports]
      by_cases hne : q = q₀
      · rw [hne, Function.update_self]
      · rw [Function.update_of_ne hne]
        rcases hport with ⟨role, how⟩ | ⟨-, hall⟩
        · obtain ⟨role', hq⟩ := hq
          exact absurd (h _ _ _ _ _ hq how) hne
        · exact hall q hq
    · rw [hports]
      by_cases hne : q = q₀
      · rcases hport with how | ⟨hzero, -⟩
        · exact absurd (hne ▸ how) hq
        · rw [hne, Function.update_self, hzero]
      · rw [Function.update_of_ne hne]
    · rw [htable]
      by_cases hne : c = c₀
      · rw [hne] at hc ⊢
        rw [Function.update_self]
        exact (hentry n l hl hopen hend hc).symm
      · rw [Function.update_of_ne hne]

/-- The connections use the same two ports, in whichever roles. -/
def Link.SamePorts (l l' : Link) : Prop :=
  (l.serverPort = l'.serverPort ∧ l.clientPort = l'.clientPort) ∨
    (l.serverPort = l'.clientPort ∧ l.clientPort = l'.serverPort)

/-- What a descriptor with a port for a connection can rely on. -/
def RoleOk (s : Sys) (q : ℕ) (d : Desc) : Role → Prop
  | .listening => True
  | .pending n => ∃ l, s.links[n]? = some l ∧ l.serverPort = q ∧
      s.world.portTable q = taken l.clientPort
  | .server n => ∃ l, s.links[n]? = some l ∧ l.serverPort = q ∧
      d.2 = packPorts l.clientPort l.serverPort
  | .client n => ∃ l, s.links[n]? = some l ∧ l.clientPort = q ∧ 0 ≤ d.2 ∧ d.2 < 1024 ∧
      s.world.clientFdToIdx d = packPorts l.serverPort l.clientPort

/-- What holds in every run whose calls of `close` derive what their descriptors own. -/
structure Inv (s : Sys) : Prop where
  ranges : ∀ (n : ℕ) (l : Link), s.links[n]? = some l →
    l.serverPort < portNumber ∧ 0 < l.clientPort ∧ l.clientPort < portNumber
  roles : ∀ q d role, s.owner q = some (d, role) → RoleOk s q d role
  /-- A connection is over before another one gets its ports. -/
  apart : ∀ i j (l l' : Link), i < j → s.links[i]? = some l → s.links[j]? = some l' →
    l.SamePorts l' → ¬s.Open i

theorem RoleOk.keep {q : ℕ} {d : Desc} {role : Role} (h : RoleOk s q d role)
    (hlinks : ∀ (n : ℕ) (l : Link), s.links[n]? = some l → s'.links[n]? = some l)
    (hword : s'.world.portTable q = s.world.portTable q)
    (hmap : s'.world.clientFdToIdx d = s.world.clientFdToIdx d) : RoleOk s' q d role := by
  cases role with
  | listening => trivial
  | pending n =>
    obtain ⟨l, hl, hq, ht⟩ := h
    exact ⟨l, hlinks n l hl, hq, hword.trans ht⟩
  | server n =>
    obtain ⟨l, hl, hq, hd⟩ := h
    exact ⟨l, hlinks n l hl, hq, hd⟩
  | client n =>
    obtain ⟨l, hl, hq, hge, hlt, hidx⟩ := h
    exact ⟨l, hlinks n l hl, hq, hge, hlt, hmap.trans hidx⟩

/-- The port that a descriptor has for a connection is one of its two. -/
theorem RoleOk.port {q : ℕ} {d : Desc} {role : Role} (h : RoleOk s q d role)
    (hn : role = .pending n ∨ role = .server n ∨ role = .client n) :
    ∃ l, s.links[n]? = some l ∧ (q = l.serverPort ∨ q = l.clientPort) := by
  rcases hn with rfl | rfl | rfl
  · obtain ⟨l, hl, hq, -⟩ := h
    exact ⟨l, hl, .inl hq.symm⟩
  · obtain ⟨l, hl, hq, -⟩ := h
    exact ⟨l, hl, .inl hq.symm⟩
  · obtain ⟨l, hl, hq, -⟩ := h
    exact ⟨l, hl, .inr hq.symm⟩

namespace Inv

theorem start (h : machine.init s) : Inv s := by
  obtain ⟨-, -, hlinks, howner⟩ := h
  constructor
  · intro n l hl
    rw [hlinks] at hl
    cases hl
  · intro q d role hq
    rw [howner] at hq
    cases hq
  · intro i j l l' hij hl
    rw [hlinks] at hl
    cases hl

/-- A step that makes no connection and opens none again. -/
theorem of_links {world : World} {owner : ℕ → Option (Desc × Role)} (h : Inv s)
    (hroles : ∀ q d role, owner q = some (d, role) → RoleOk ⟨world, s.links, owner⟩ q d role)
    (hopen : ∀ i, Sys.Open ⟨world, s.links, owner⟩ i → s.Open i) :
    Inv ⟨world, s.links, owner⟩ :=
  ⟨h.ranges, hroles, fun i j l l' hij hl hl' hsame ho => h.apart i j l l' hij hl hl' hsame
    (hopen i ho)⟩

theorem bind {fd port : ℕ} (h : Inv s) : Inv { s with
    world := { s.world with portTable := Function.update s.world.portTable port p }
    owner := give s.owner (p, fd) .listening port } := by
  refine h.of_links (fun q d role hq => ?_) fun i ho => ?_
  · by_cases hqp : q = port
    · rw [hqp, give_self] at hq
      cases hq
      trivial
    · have hold := h.roles q d role ((give_of_ne hqp).mp hq).1
      exact hold.keep (fun _ _ => id) (Function.update_of_ne hqp _ _) rfl
  · obtain ⟨q, d, role, hq, hrole⟩ := ho
    by_cases hqp : q = port
    · change give s.owner (p, fd) .listening port q = some (d, role) at hq
      rw [hqp, give_self] at hq
      cases hq
      simp at hrole
    · exact ⟨q, d, role, ((give_of_ne hqp).mp hq).1, hrole⟩

theorem accept {l : Link} {ret : ℤ} (h : Inv s) (hl : s.links[n]? = some l)
    (howner : s.owner l.serverPort = some ((p, fd), .pending n))
    (hs : s.world.accept p fd l.serverPort = some (ret, w)) :
    Inv { s with world := w, owner := give s.owner (p, ret) (.server n) l.serverPort } := by
  obtain ⟨ho, hret⟩ := Session.accept_opens hs
  obtain ⟨l', hl', -, hword⟩ := h.roles _ _ _ howner
  obtain rfl : l = l' := Option.some.inj (hl.symm.trans hl')
  obtain ⟨-, -, hclient⟩ := h.ranges n l hl
  rw [hword, World.u32_taken hclient, taken_and hclient] at hret
  refine h.of_links (fun q d role hq => ?_) fun i ho => ?_
  · by_cases hqp : q = l.serverPort
    · rw [hqp, give_self] at hq
      cases hq
      exact ⟨l, hl, hqp.symm, hret⟩
    · have hold := h.roles q d role ((give_of_ne hqp).mp hq).1
      exact hold.keep (fun _ _ => id) (congrFun ho.portTable q)
        (congrFun ho.clientFdToIdx _)
  · obtain ⟨q, d, role, hq, hrole⟩ := ho
    by_cases hqp : q = l.serverPort
    · change give s.owner (p, ret) (.server n) l.serverPort q = some (d, role) at hq
      rw [hqp, give_self] at hq
      cases hq
      obtain rfl : n = i := by simpa using hrole
      exact ⟨_, _, _, howner, .inl rfl⟩
    · exact ⟨q, d, role, ((give_of_ne hqp).mp hq).1, hrole⟩

/-- `close` of what the descriptor owns leaves the others what they rely on. -/
theorem close {ret : ℤ} (h : Inv s) (hd : Derives s p fd)
    (hs : s.world.close p fd = some (ret, w)) :
    Inv { s with world := w, owner := drop s.owner (p, fd) } := by
  obtain ⟨-, hports, hmap⟩ := Session.close_changes hs
  refine h.of_links (fun q d role hq => ?_) fun i ho => ?_
  · obtain ⟨hq, hne⟩ := drop_some.mp hq
    refine (h.roles q d role hq).keep (fun _ _ => id) ?_ (congrFun hmap _)
    change w.portTable q = s.world.portTable q
    rw [hports]
    by_cases hlocal : q = localPort (s.world.portsOf p fd)
    · rcases hd.port with ⟨role', how⟩ | ⟨hzero, -⟩
      · rw [← hlocal, hq] at how
        exact absurd (congrArg Prod.fst (Option.some.inj how)) hne
      · rw [← hlocal] at hzero ⊢
        rw [Function.update_self, hzero]
    · exact Function.update_of_ne hlocal _ _
  · obtain ⟨q, d, role, hq, hrole⟩ := ho
    exact ⟨q, d, role, (drop_some.mp hq).1, hrole⟩

section connect
variable {clientFd serverPort : ℕ}

theorem established_old {l : Link} (hl : s.links[n]? = some l) :
    (s.established p clientFd serverPort w).links[n]? = some l := by
  obtain ⟨hn, -⟩ := List.getElem?_eq_some_iff.mp hl
  exact (List.getElem?_append_left hn).trans hl

theorem established_new : (s.established p clientFd serverPort w).links[s.links.length]? =
    some ⟨serverPort, getFreePort s.world.portTable, p, u32 (s.world.portTable serverPort)⟩ :=
  List.getElem?_concat_length

theorem established_length :
    (s.established p clientFd serverPort w).links.length = s.links.length + 1 :=
  List.length_append

/-- The owners after a `connect`: of its two ports the new connection's, of the others the
old ones. -/
theorem established_owner {q : ℕ} {d : Desc} {role : Role}
    (h : (s.established p clientFd serverPort w).owner q = some (d, role)) :
    (q = getFreePort s.world.portTable ∧ d = (p, (clientFd : ℤ)) ∧
        role = .client s.links.length) ∨
      (q ≠ getFreePort s.world.portTable ∧ q = serverPort ∧ role = .pending s.links.length) ∨
      (q ≠ getFreePort s.world.portTable ∧ q ≠ serverPort ∧ d ≠ (p, (clientFd : ℤ)) ∧
        s.owner q = some (d, role)) := by
  change give (await s.owner s.links.length serverPort) (p, (clientFd : ℤ))
    (.client s.links.length) (getFreePort s.world.portTable) q = some (d, role) at h
  by_cases hq : q = getFreePort s.world.portTable
  · rw [hq, give_self] at h
    cases h
    exact .inl ⟨hq, rfl, rfl⟩
  · obtain ⟨hawait, hne⟩ := (give_of_ne hq).mp h
    obtain ⟨role', hold, ⟨hserver, hrole⟩ | ⟨hserver, rfl⟩⟩ := await_some hawait
    · exact .inr (.inl ⟨hq, hserver, hrole⟩)
    · exact .inr (.inr ⟨hq, hserver, hne, hold⟩)

theorem established_open {i : ℕ} (hi : i < s.links.length)
    (h : (s.established p clientFd serverPort w).Open i) :
    ∃ q d role, s.owner q = some (d, role) ∧
      (role = .pending i ∨ role = .server i ∨ role = .client i) ∧
        q ≠ getFreePort s.world.portTable ∧ q ≠ serverPort := by
  obtain ⟨q, d, role, hq, hrole⟩ := h
  rcases established_owner hq with ⟨-, -, rfl⟩ | ⟨-, -, rfl⟩ | ⟨hfree, hserver, -, hold⟩
  · obtain rfl : s.links.length = i := by simpa using hrole
    exact absurd hi (lt_irrefl _)
  · obtain rfl : s.links.length = i := by simpa using hrole
    exact absurd hi (lt_irrefl _)
  · exact ⟨q, d, role, hold, hrole, hfree, hserver⟩

theorem connect (h : Inv s) (hfd : clientFd < 1024) (hport : serverPort < portNumber)
    (hc : World.Connected s.world p clientFd serverPort w) :
    Inv (s.established p clientFd serverPort w) := by
  obtain ⟨hfree, hrange⟩ := getFreePort_free hc.clientPos.ne'
  have hserver : serverPort ≠ getFreePort s.world.portTable := by
    intro he
    rw [← he] at hfree
    exact hc.listening (congrArg u32 hfree)
  constructor
  · intro i l hl
    rcases Nat.lt_or_ge i s.links.length with hi | hi
    · exact h.ranges i l ((List.getElem?_append_left hi).symm.trans hl)
    · obtain ⟨hlt, -⟩ := List.getElem?_eq_some_iff.mp hl
      rw [established_length] at hlt
      obtain rfl : i = s.links.length := by omega
      rw [established_new] at hl
      cases hl
      exact ⟨hport, hc.clientPos, hrange⟩
  · intro q d role hq
    rcases established_owner hq with ⟨rfl, rfl, rfl⟩ | ⟨hne, rfl, rfl⟩ | ⟨hne, hne', hd, hold⟩
    · refine ⟨_, established_new, rfl, Int.natCast_nonneg _, Int.ofNat_lt.mpr hfd, ?_⟩
      change w.clientFdToIdx (p, clientFd) = _
      rw [hc.clientFdToIdx, Function.update_self]
    · refine ⟨_, established_new, rfl, ?_⟩
      change w.portTable q = _
      rw [hc.portTable, Function.update_of_ne hserver, Function.update_self]
    · refine (h.roles q d role hold).keep (fun _ _ => established_old) ?_ ?_
      · change w.portTable q = _
        rw [hc.portTable, Function.update_of_ne hne, Function.update_of_ne hne']
      · change w.clientFdToIdx d = _
        rw [hc.clientFdToIdx]
        exact Function.update_of_ne hd _ _
  · intro i j l l' hij hl hl' hsame ho
    obtain ⟨hj, -⟩ := List.getElem?_eq_some_iff.mp hl'
    rw [established_length] at hj
    have hi : i < s.links.length := by omega
    obtain ⟨q, d, role, hq, hrole, hfree, hserver⟩ := established_open hi ho
    have hli : s.links[i]? = some l := (List.getElem?_append_left hi).symm.trans hl
    rcases Nat.lt_or_ge j s.links.length with hjold | hjnew
    · have hlj := (List.getElem?_append_left hjold).symm.trans hl'
      exact h.apart i j l l' hij hli hlj hsame ⟨q, d, role, hq, hrole⟩
    · obtain rfl : j = s.links.length := by omega
      rw [established_new] at hl'
      cases hl'
      -- an open end of the old connection has one of the two ports that the new one takes
      obtain ⟨l₁, hl₁, hport⟩ := (h.roles q d role hq).port hrole
      obtain rfl : l = l₁ := Option.some.inj (hli.symm.trans hl₁)
      rcases hsame with ⟨hs, hcl⟩ | ⟨hs, hcl⟩
      · rcases hport with hport | hport
        · exact hserver (hport.trans hs)
        · exact hfree (hport.trans hcl)
      · rcases hport with hport | hport
        · exact hfree (hport.trans hs)
        · exact hserver (hport.trans hcl)

end connect

theorem step (h : Inv s) (ha : ClosesDerived s a) (hs : s.step a = some s') : Inv s' := by
  cases step_cases hs with
  | failed => exact h
  | pool =>
    exact h.of_links (fun q d role hq => (h.roles q d role hq).keep (fun _ _ => id) rfl rfl)
      fun _ => id
  | bind => exact h.bind
  | connect hp hfd hport hrun hc => exact h.connect hfd hport hc
  | accept hl howner hrun => exact h.accept hl howner hrun
  | close hfd hrun => exact h.close ha hrun

/-- The ports that `close` derives for an end of a connection are the connection's, its own
one first. -/
theorem end_ports (h : Inv s) (hfd : 0 ≤ fd) (hend : s.IsEnd (p, fd) n) :
    ∃ l, s.links[n]? = some l ∧ s.Owns (p, fd) (localPort (s.world.portsOf p fd)) ∧
      ((remotePort (s.world.portsOf p fd) = l.serverPort ∧
          localPort (s.world.portsOf p fd) = l.clientPort) ∨
        (remotePort (s.world.portsOf p fd) = l.clientPort ∧
          localPort (s.world.portsOf p fd) = l.serverPort)) := by
  obtain ⟨q, role, hq, rfl | rfl⟩ := hend
  · obtain ⟨l, hl, rfl, hd⟩ := h.roles q (p, fd) _ hq
    obtain ⟨hserver, hpos, hclient⟩ := h.ranges n l hl
    have hsmall := packPorts_nonneg hclient hserver (hd ▸ hfd)
    have hge := packPorts_ge hsmall hpos hserver
    have hports : s.world.portsOf p fd = packPorts l.clientPort l.serverPort := by
      rw [World.portsOf, ← hd, if_neg]
      rw [← hd] at hge
      exact hge.not_gt
    rw [hports, localPort_pack hclient hserver, remotePort_pack hclient hserver]
    exact ⟨l, hl, ⟨_, hq⟩, .inr ⟨rfl, rfl⟩⟩
  · obtain ⟨l, hl, rfl, -, hlt, hidx⟩ := h.roles q (p, fd) _ hq
    obtain ⟨hserver, -, hclient⟩ := h.ranges n l hl
    have hports : s.world.portsOf p fd = packPorts l.serverPort l.clientPort := by
      rw [World.portsOf, if_pos hlt]
      exact hidx
    rw [hports, localPort_pack hserver hclient, remotePort_pack hserver hclient]
    exact ⟨l, hl, ⟨_, hq⟩, .inl ⟨rfl, rfl⟩⟩

/-- An end of a connection derives its own port, and no other open connection has the entry. -/
theorem derives_of_end (h : Inv s) (hfd : 0 ≤ fd) (hend : s.IsEnd (p, fd) n) :
    Derives s p fd := by
  obtain ⟨l, hl, how, hports⟩ := h.end_ports hfd hend
  refine ⟨.inl how, fun m l' hl' hopen hother hcell => ?_⟩
  have hne : n ≠ m := fun he => hother (he ▸ hend)
  have hopenEnd : s.Open n := by
    obtain ⟨q, role, hq, hrole⟩ := hend
    exact ⟨q, _, role, hq, .inr hrole⟩
  have hsame : l.SamePorts l' := by
    have hpair : (remotePort (s.world.portsOf p fd), localPort (s.world.portsOf p fd)) =
        (l'.serverPort, l'.clientPort) ∨
      (remotePort (s.world.portsOf p fd), localPort (s.world.portsOf p fd)) =
        (l'.clientPort, l'.serverPort) := by
      simp only [Link.cells, List.mem_cons, List.not_mem_nil, or_false] at hcell
      rcases hcell with hc | hc | hc | hc
      · exact .inl (cell_pair hc)
      · exact .inr (cell_pair hc)
      · exact .inl (cell_pair hc)
      · exact .inr (cell_pair hc)
    rw [Prod.mk.injEq, Prod.mk.injEq] at hpair
    unfold Link.SamePorts
    omega
  rcases Nat.lt_or_gt_of_ne hne with hlt | hgt
  · exact absurd hopenEnd (h.apart n m l l' hlt hl hl' hsame)
  · have hsame' : l'.SamePorts l := by
      unfold Link.SamePorts at hsame ⊢
      omega
    exact absurd hopen (h.apart m n l' l hgt hl' hl hsame')

end Inv

theorem single_of_reachable {C : Sys → Act → Prop} (h : machine.Reachable C s) :
    Single s.owner :=
  h.invariant (fun _ h0 => single_start h0) fun _ _ _ hi _ hs => single_step hi hs

theorem inv_of_reachable (h : machine.Reachable ClosesDerived s) : Inv s :=
  h.invariant (fun _ h0 => .start h0) fun _ _ _ hi ha hs => hi.step ha hs

/-- A call of `close` touches only what its descriptor owns exactly when it derives what the
descriptor owns, and after calls that all did the ends of connections do. -/
theorem close_touches_iff {s : Sys} (h : machine.Reachable Any s) :
    (∀ p fd ret w, 0 ≤ fd → s.world.close p fd = some (ret, w) →
      (Touches s (p, fd) w ↔ Derives s p fd)) ∧
    (machine.Reachable ClosesDerived s →
      ∀ p fd n, 0 ≤ fd → s.IsEnd (p, fd) n → Derives s p fd) :=
  ⟨fun _ _ _ _ _ hs => touches_iff (single_of_reachable h) hs,
    fun hclosed _ _ _ hfd hend => (inv_of_reachable hclosed).derives_of_end hfd hend⟩

/-- Nobody has done anything yet. -/
def blank : Sys := ⟨Net.blank.world, [], fun _ => none⟩

theorem blank_init : machine.init blank := ⟨fun _ => rfl, fun _ => rfl, rfl, fun _ => rfl⟩

/-- Process 9 connects to process 7, which has bound port 80. -/
def accepted : List Act := [.bind 7 3 80, .connect 9 5 80, .accept 0 7 3]

/-- Process 9 closes, and then process 7 may close what `accept` has returned. -/
theorem close_touches_ends : ∃ s, s.owner 80 = some ((7, 65616), .server 0) ∧
    s.owner 1 = none ∧ Derives s 7 65616 := by
  obtain ⟨s, hr, hs⟩ := Reachable.run (M := machine) (C := ClosesDerived) (l := accepted)
    (P := fun s : Sys => decide (s.owner 1 = some ((9, 5), .client 0)) &&
      (s.step (.close 9 5)).any fun s' : Sys =>
        decide (s'.owner 80 = some ((7, 65616), .server 0) ∧ s'.owner 1 = none))
    (.init blank_init) (by simp [accepted, ClosesDerived]) (by decide +kernel)
  obtain ⟨hclient, hclose⟩ := Bool.and_eq_true_iff.mp hs
  obtain ⟨s', hstep, hafter⟩ := (Option.any_eq_true _ _).mp hclose
  obtain ⟨hserver, hfree⟩ := of_decide_eq_true hafter
  have hderives := (close_touches_iff (hr.mono fun _ _ _ => trivial)).2 hr 9 5 0 (by decide)
    ⟨1, .client 0, of_decide_eq_true hclient, .inr rfl⟩
  have hr' := hr.step (a := Act.close 9 5) hderives hstep
  exact ⟨s', hserver, hfree, (close_touches_iff (hr'.mono fun _ _ _ => trivial)).2 hr' 7 65616 0
    (by decide) ⟨80, .server 0, hserver, .inl rfl⟩⟩

/-- A run and a call of `close` after it, and what they come to. -/
theorem exists_close (p : Pid) (fd : ℤ) {l : List Act} {P : Sys → World → Bool}
    (h : (machine.run blank l).any (fun s => (s.world.close p fd).any fun x =>
      decide (x.1 = 0) && P s x.2) = true) :
    ∃ s w, machine.Reachable Any s ∧ s.world.close p fd = some (0, w) ∧ P s w = true := by
  obtain ⟨s, hr, hs⟩ := reachable_of_run (M := machine) blank_init h
  obtain ⟨⟨ret, w⟩, hclose, hP⟩ := (Option.any_eq_true _ _).mp hs
  obtain ⟨hret, hP⟩ := Bool.and_eq_true_iff.mp hP
  obtain rfl := of_decide_eq_true hret
  exact ⟨s, w, hr, hclose, hP⟩

/-- Processes 7 and 8 listen; process 9 connects to 7 and closes, and process 10 connects
to 8 with the client port that 9 had. -/
def portReused : List Act :=
  [.bind 7 3 80, .bind 8 3 81, .connect 9 5 80, .close 9 5, .connect 10 5 81]

/-- `close` of a listening descriptor leaves its port, and a second `close` of a client frees
the port of somebody else. -/
theorem close_misses :
    (∃ s w, machine.Reachable Any s ∧ s.owner 80 = some ((7, 3), .listening) ∧
      s.world.close 7 3 = some (0, w) ∧ w.portTable 80 = 7 ∧ ¬Touches s (7, 3) w) ∧
    ∃ s w, machine.Reachable Any s ∧ s.owner 1 = some ((10, 5), .client 1) ∧
      s.world.close 9 5 = some (0, w) ∧ s.world.portTable 1 = -1 ∧ w.portTable 1 = 0 ∧
        ¬Touches s (9, 5) w := by
  constructor
  · obtain ⟨s, w, hr, hclose, hs⟩ := exists_close 7 3 (l := [.bind 7 3 80])
      (P := fun s w => decide (s.owner 80 = some ((7, 3), .listening) ∧ w.portTable 80 = 7))
      (by decide +kernel)
    obtain ⟨howner, hword⟩ := of_decide_eq_true hs
    refine ⟨s, w, hr, howner, hclose, hword, fun ht => ?_⟩
    have hzero := ht.own 80 ⟨_, howner⟩
    omega
  · obtain ⟨s, w, hr, hclose, hs⟩ := exists_close 9 5 (l := portReused)
      (P := fun s w => decide (s.owner 1 = some ((10, 5), .client 1) ∧
        s.world.portTable 1 = -1 ∧ w.portTable 1 = 0))
      (by decide +kernel)
    obtain ⟨howner, hbefore, hafter⟩ := of_decide_eq_true hs
    refine ⟨s, w, hr, howner, hclose, hbefore, hafter, fun ht => ?_⟩
    have hsame := ht.others 1 fun how => by
      obtain ⟨role, how⟩ := how
      rw [howner] at how
      cases how
    omega

end ShmSocket.Closing
