import ShmSocket.Connection.SessionsInv

/-! What descriptors resolve to. A client descriptor is a number below 1024 that
`client_fd_to_idx` maps to both ports; a descriptor of `accept` holds both ports itself. -/
namespace ShmSocket.Session
open StepMachine PortTable
open Net (Side End peer)

/-- The two descriptors of a connection, `fd` of client `p` and `d` of server `q`, resolve
to its ports and to the same two rings, with every access inside `client_fd_to_idx`. -/
structure Resolved (w : World) (p : Pid) (fd : ℤ) (q : Pid) (d : ℤ)
    (clientPort serverPort : ℕ) : Prop where
  stored : fd < 1024
  nonneg : 0 ≤ d
  clientLocal : localPort (w.portsOf p fd) = clientPort
  clientRemote : remotePort (w.portsOf p fd) = serverPort
  serverLocal : localPort (w.portsOf q d) = serverPort
  serverRemote : remotePort (w.portsOf q d) = clientPort
  clientSends : cell p (localPort (w.portsOf p fd), remotePort (w.portsOf p fd)) =
    cell q (remotePort (w.portsOf q d), localPort (w.portsOf q d))
  serverSends : cell q (localPort (w.portsOf q d), remotePort (w.portsOf q d)) =
    cell p (remotePort (w.portsOf p fd), localPort (w.portsOf p fd))

/-- Descriptors in a reachable state. -/
structure DescriptorsResolve (s : Sys) : Prop where
  /-- A connection made now resolves exactly when its client descriptor fits into the map
  and its client port into the positive descriptors, -/
  made : ∀ p (fd : ℕ) q listenFd d serverPort w w', 1 ≤ serverPort → serverPort < portNumber →
    s.world.connect p fd serverPort = some (0, w) →
    w.accept q listenFd serverPort = some (d, w') →
    (Resolved w' p fd q d (getFreePort s.world.portTable) serverPort ↔
      fd < 1024 ∧ getFreePort s.world.portTable < 2 ^ 15)
  /-- one made before still resolves, whatever has happened since, -/
  kept : ∀ n p fd q d, s.status (n, .client) = .connected p fd →
    s.status (n, .server) = .connected q d → 1 ≤ s.port (n, .server) →
    (Resolved s.world p fd q d (s.port (n, .client)) (s.port (n, .server)) ↔
      s.port (n, .client) < 2 ^ 15)
  /-- and the descriptors of a process resolve to different ends. -/
  distinct : ∀ e e' p fd fd', s.status e = .connected p fd → s.status e' = .connected p fd' →
    0 ≤ fd → 0 ≤ fd' → s.world.portsOf p fd = s.world.portsOf p fd' → e = e'

section resolved
variable {w : World} {p q : Pid} {fd : ℤ} {clientPort serverPort : ℕ}

/-- What the mapping of `connect` and the result of `accept` have to be. -/
theorem resolved_iff (hclient : clientPort < portNumber) (hserver : serverPort < portNumber)
    (hpos : 0 < clientPort) (hspos : 1 ≤ serverPort) (hfd : fd < 1024)
    (hmap : w.clientFdToIdx (p, fd) = packPorts serverPort clientPort) :
    Resolved w p fd q (packPorts clientPort serverPort) clientPort serverPort ↔
      clientPort < 2 ^ 15 := by
  constructor
  · exact fun h => packPorts_nonneg hclient hserver h.nonneg
  · intro hlt
    have hge := packPorts_ge hlt hpos hserver
    have hfrom : w.portsOf p fd = packPorts serverPort clientPort := by
      rw [World.portsOf, if_pos hfd, hmap]
    have hto : w.portsOf q (packPorts clientPort serverPort) =
        packPorts clientPort serverPort := if_neg (not_lt.mpr hge)
    have hcl : localPort (w.portsOf p fd) = clientPort := by
      rw [hfrom, localPort_pack hserver hclient]
    have hcr : remotePort (w.portsOf p fd) = serverPort := by
      rw [hfrom, remotePort_pack hserver hclient]
    have hsl : localPort (w.portsOf q (packPorts clientPort serverPort)) = serverPort := by
      rw [hto, localPort_pack hclient hserver]
    have hsr : remotePort (w.portsOf q (packPorts clientPort serverPort)) = clientPort := by
      rw [hto, remotePort_pack hclient hserver]
    refine ⟨hfd, by omega, hcl, hcr, hsl, hsr, ?_, ?_⟩
    · rw [hcl, hcr, hsl, hsr]
      exact cell_shared p q hpos.ne'
    · rw [hcl, hcr, hsl, hsr]
      exact cell_shared q p (Nat.one_le_iff_ne_zero.mp hspos)

end resolved

/-- Every descriptor resolves to its own connection, unless `connect` got a descriptor from
1024 on or a client port from `2 ^ 15` on, as long as no `close` with a descriptor that no
end has frees the port of an open end. -/
theorem descriptors_resolve {s : Sys} (h : machine.Reachable ClosesOwn s) :
    DescriptorsResolve s := by
  have hinv := reachable_inv h
  constructor
  · intro p fd q listenFd d serverPort w w' hspos hserver hconnect haccept
    rcases World.connect_spec hconnect with ⟨hret, -⟩ | ⟨-, hc⟩
    · exact absurd rfl hret
    obtain ⟨hfree, hclient⟩ := getFreePort_free hc.clientPos.ne'
    obtain ⟨ho, hd⟩ := accept_opens haccept
    have hne : serverPort ≠ getFreePort s.world.portTable := fun he => by
      have hlistening := hc.listening
      rw [he, hfree] at hlistening
      exact hlistening (by decide)
    have hword : w.portTable serverPort = taken (getFreePort s.world.portTable) := by
      rw [hc.portTable, Function.update_of_ne hne, Function.update_self]
    have hmap : w'.clientFdToIdx (p, fd) =
        packPorts serverPort (getFreePort s.world.portTable) := by
      rw [ho.clientFdToIdx, hc.clientFdToIdx, Function.update_self]
    rw [hword, World.u32_taken hclient, taken_and hclient] at hd
    rw [hd]
    constructor
    · exact fun hr =>
        ⟨Int.ofNat_lt.mp hr.stored,
          (resolved_iff hclient hserver hc.clientPos hspos hr.stored hmap).mp hr⟩
    · rintro ⟨hfd, hlt⟩
      exact (resolved_iff hclient hserver hc.clientPos hspos (Int.ofNat_lt.mpr hfd) hmap).mpr hlt
  · intro n p fd q d hclient hserver hspos
    have hused := hinv.used (open_of_connected hclient)
    obtain ⟨hnonneg, hlt, hmap⟩ := hinv.clientFd n p fd hclient
    rw [hinv.serverFd n q d hserver]
    exact resolved_iff (hinv.range _ hused) (hinv.range (n, .server) hused)
      (hinv.clientPos n hused) hspos (by omega) hmap
  · intro e e' p fd fd' hs hs' hfd hfd' he
    have hlocal := hinv.localPort_eq hs hfd
    rw [he, hinv.localPort_eq hs' hfd'] at hlocal
    exact hinv.apart e e' (open_of_connected hs) (open_of_connected hs') hlocal.symm

/-- An accepted connection to port 80, whose server has closed its listening descriptor. -/
theorem descriptors_resolve_port80 : ∃ s : Sys, s.status (0, .client) = .connected 8 3 ∧
    s.status (0, .server) = .connected 7 65616 ∧ Resolved s.world 8 3 7 65616 1 80 := by
  obtain ⟨s, hr, hs⟩ := reachable_of_guarded (M := machine) (C := ClosesOwn)
    (fun _ _ => of_decide_eq_true)
    (l := [.bind 7 80, .connect 8 3 80, .accept 0 7 4, .other 7 4 .close])
    (P := fun s => decide (s.status (0, .client) = .connected 8 3 ∧
      s.status (0, .server) = .connected 7 65616 ∧
      s.port (0, .client) = 1 ∧ s.port (0, .server) = 80))
    blank_init (by decide +kernel)
  obtain ⟨hclient, hserver, hone, heighty⟩ := of_decide_eq_true hs
  have hkept := (descriptors_resolve hr).kept 0 8 3 7 65616 hclient hserver
  rw [hone, heighty] at hkept
  exact ⟨s, hclient, hserver, (hkept (by decide)).mpr (by decide)⟩

/-- Process 9 closes its descriptor twice, the second time when process 10 has the port. -/
def closedTwice : List Act :=
  [.bind 7 80, .connect 9 5 80, .accept 0 7 4, .close (0, .client), .close (0, .server),
    .bind 7 80, .connect 10 6 80, .accept 1 7 4, .other 9 5 .close, .close (1, .server),
    .bind 7 80, .connect 10 7 80]

/-- `connect` returns 0 for descriptor 1024, which `client_fd_to_idx` has no entry for; and
after somebody's second `close` two descriptors of a process resolve to the same ports. -/
theorem descriptors_misresolve : (∃ s w w' d, machine.Reachable Any s ∧
      s.world.connect 8 1024 80 = some (0, w) ∧ w.accept 7 4 80 = some (d, w') ∧
      getFreePort s.world.portTable = 1 ∧ ¬ Resolved w' 8 1024 7 d 1 80) ∧
    ∃ s : Sys, machine.Reachable Any s ∧ s.status (1, .client) = .connected 10 6 ∧
      s.status (2, .client) = .connected 10 7 ∧ s.world.portsOf 10 6 = s.world.portsOf 10 7 ∧
      ¬ DescriptorsResolve s := by
  constructor
  · have h0 : machine.Reachable Any blank := .init blank_init
    have h1 := h0.step (a := Act.bind 7 80) trivial rfl
    refine ⟨_, _, _, _, h1, rfl, rfl, rfl, fun h => ?_⟩
    exact absurd h.stored (by decide)
  · obtain ⟨s, hr, hs⟩ := reachable_of_run (M := machine) (l := closedTwice)
      (P := fun s => decide (s.status (1, .client) = .connected 10 6 ∧
        s.status (2, .client) = .connected 10 7 ∧ s.world.portsOf 10 6 = s.world.portsOf 10 7))
      blank_init (by decide +kernel)
    obtain ⟨hsix, hseven, hsame⟩ := of_decide_eq_true hs
    refine ⟨s, hr, hsix, hseven, hsame, fun h => ?_⟩
    exact absurd (h.distinct _ _ _ _ _ hsix hseven (by decide) (by decide) hsame) (by decide)

end ShmSocket.Session
