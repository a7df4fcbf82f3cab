import ShmSocket.Connection.SessionsInv

/-! The loop of `recvfrom`. A call without bytes goes on until it reads some or finds the
port of the other end free; the word of that port may be another socket's by then. -/
namespace ShmSocket.Session
open StepMachine PortTable
open Net (Side End peer)

/-- What one iteration of the loop does: whether it ends the call, and the last read. -/
structure Iteration where
  ends : Bool
  bytes : List Byte
  rings : Rings

/-- One iteration of the loop of `recvfrom`, run alone, in process `p` with the handle for
index `k`; `fd` is the descriptor with both ports. -/
def recvIteration (w : World) (p : Pid) (fd : ℤ) (k len : ℕ) : Iteration :=
  let (bytes, rings) := w.rings.read p k len
  if w.portTable (remotePort fd) = 0 then ⟨true, bytes, rings⟩
  else ⟨!bytes.isEmpty, bytes, rings⟩

/-- The ring of index `k` holds no published byte. -/
def Drained (w : World) (p : Pid) (k : ℕ) : Prop :=
  readSize (w.rings.ring (segmentOf p k)).head (w.rings.ring (segmentOf p k)).oldtail = 0

instance (w : World) (p : Pid) (k : ℕ) : Decidable (Drained w p k) := by
  unfold Drained
  infer_instance

/-- An iteration that does not end the call has asked for bytes, found none, and its peer
may still send some. -/
def WaitsForPeer (s : Sys) (e : End) (p : Pid) (fd : ℤ) (k len : ℕ) : Prop :=
  (recvIteration s.world p (s.world.portsOf p fd) k len).ends = false →
    0 < len ∧ Drained s.world p k ∧ s.status (peer e) ≠ .closed

section iteration
variable {w : World} {p : Pid} {fd : ℤ} {k len : ℕ}

/-- `rb_read` returns 0 for an empty ring and for a length of 0. -/
theorem read_nil_iff (s : Rings) : (s.read p k len).1 = [] ↔
    readSize (s.ring (segmentOf p k)).head (s.ring (segmentOf p k)).oldtail = 0 ∨ len = 0 := by
  have hclamp := clampLen_natCast
    (readSize (s.ring (segmentOf p k)).head (s.ring (segmentOf p k)).oldtail) len
  unfold Rings.read rbRead
  simp only [hclamp]
  generalize readSize (s.ring (segmentOf p k)).head (s.ring (segmentOf p k)).oldtail = size
  split
  · next hzero =>
    simp
    omega
  · next hne =>
    simp
    omega

theorem goes_on_iff : (recvIteration w p fd k len).ends = false ↔
    w.portTable (remotePort fd) ≠ 0 ∧ (Drained w p k ∨ len = 0) := by
  have hnil : (w.rings.read p k len).1 = [] ↔ _ := read_nil_iff w.rings
  unfold recvIteration Drained
  generalize w.rings.read p k len = result at hnil
  obtain ⟨bytes, rings⟩ := result
  simp only at hnil ⊢
  split
  · next hfree => simp [hfree]
  · next hused => simp [hused, hnil]

end iteration

/-- The ports that the call of a step takes. -/
def Sys.takes (s : Sys) : Act → List ℕ
  | .bind p port => if (s.world.bind p port).1 = 0 then [port] else []
  | .connect p fd serverPort =>
      if (s.world.connect p fd serverPort).map Prod.fst = some 0 then
        [serverPort, getFreePort s.world.portTable]
      else []
  | _ => []

/-- The port that the call of a step frees: the one that `close` derives, whoever has it. -/
def Sys.frees (s : Sys) : Act → List ℕ
  | .close e => match s.status e with
      | .connected p fd => [localPort (s.world.portsOf p fd)]
      | _ => []
  | .other p fd .close => [localPort (s.world.portsOf p fd)]
  | _ => []

/-- The sockets with the ports that are held: a `bind` or `connect` has taken them and no
`close` has freed them since. A listener that closes its descriptor does not free its port. -/
structure Ports where
  sys : Sys
  held : ℕ → Bool

def ports : StepMachine Ports Act where
  init t := machine.init t.sys ∧ ∀ port, t.held port = false
  step t a := (t.sys.step a).map fun s =>
    ⟨s, fun port => port ∈ t.sys.takes a ∨ t.held port ∧ port ∉ t.sys.frees a⟩

namespace Ports
variable {t t' : Ports} {a : Act} {port : ℕ}

/-- A port is held exactly when its word is not 0. -/
def Right (t : Ports) : Prop := ∀ port, t.sys.world.portTable port ≠ 0 ↔ t.held port

/-- A call that neither takes nor frees a port. -/
theorem right_of_same {s' : Sys} (h : Right t) (htakes : t.sys.takes a = [])
    (hfrees : t.sys.frees a = []) (hword : s'.world.portTable = t.sys.world.portTable) :
    Right ⟨s', fun port => port ∈ t.sys.takes a ∨ t.held port ∧ port ∉ t.sys.frees a⟩ := by
  intro port
  change s'.world.portTable port ≠ 0 ↔ _
  rw [hword, h port, htakes, hfrees]
  simp

/-- A call of `close` that derives `q`. -/
theorem right_of_freed {s' : Sys} {q : ℕ} (h : Right t) (htakes : t.sys.takes a = [])
    (hfrees : t.sys.frees a = [q])
    (hword : s'.world.portTable = Function.update t.sys.world.portTable q 0) :
    Right ⟨s', fun port => port ∈ t.sys.takes a ∨ t.held port ∧ port ∉ t.sys.frees a⟩ := by
  intro port
  change s'.world.portTable port ≠ 0 ↔ _
  rw [hword, htakes, hfrees]
  by_cases hport : port = q
  · subst hport
    simp
  · rw [Function.update_of_ne hport, h port]
    simp [hport]

theorem right_step (h : Right t) (hs : ports.step t a = some t') : Right t' := by
  obtain ⟨s', hstep, rfl⟩ := Option.map_eq_some_iff.mp hs
  cases step_cases hstep with
  | @bind p q hp =>
    by_cases hfree : t.sys.world.portTable q = 0
    · intro port
      have htakes : t.sys.takes (.bind p q) = [q] := by
        simp only [Sys.takes, World.bind, hfree, ne_eq, not_true, if_false, if_true]
      change (t.sys.world.bind p q).2.portTable port ≠ 0 ↔ _
      rw [htakes]
      simp only [World.bind, hfree, ne_eq, not_true, if_false]
      by_cases hport : port = q
      · subst hport
        have hpid := hp.1.ne'
        simpa using hpid
      · rw [Function.update_of_ne hport, ← ne_eq, h port]
        simp [hport, Sys.frees]
    · refine right_of_same h ?_ rfl ?_
      · simp only [Sys.takes, World.bind, ne_eq, hfree, not_false_eq_true, if_true]
        rfl
      · simp only [World.bind, ne_eq, hfree, not_false_eq_true, if_true]
  | refused hret hconnect =>
    refine right_of_same h ?_ rfl rfl
    simp only [Sys.takes, hconnect, Option.map_some, Option.some.injEq, hret, if_false]
  | @connect p fd serverPort world hfd hserver hconnect hcon =>
    intro port
    have htakes : t.sys.takes (.connect p fd serverPort) =
        [serverPort, getFreePort t.sys.world.portTable] := by
      simp only [Sys.takes, hconnect, Option.map_some, if_true]
    change world.portTable port ≠ 0 ↔ _
    rw [htakes, hcon.portTable]
    by_cases hclient : port = getFreePort t.sys.world.portTable
    · rw [hclient, Function.update_self]
      simp
    rw [Function.update_of_ne hclient]
    by_cases hport : port = serverPort
    · rw [hport, Function.update_self]
      simpa using taken_ne_zero (getFreePort t.sys.world.portTable)
    · rw [Function.update_of_ne hport, h port]
      simp [hport, hclient, Sys.frees]
  | accept hwaiting haccept => exact right_of_same h rfl rfl (accept_opens haccept).1.portTable
  | send hstatus hfd hsend => exact right_of_same h rfl rfl (send_opens hsend).portTable
  | recv hstatus hfd hrecv => exact right_of_same h rfl rfl (recv_opens hrecv).portTable
  | close hstatus hfd hclose =>
    refine right_of_freed h rfl ?_ (close_changes hclose).2.1
    simp only [Sys.frees, hstatus]
  | @other p fd call world hfd hno hrun =>
    rcases run_cases hrun with ⟨hcall, ho⟩ | ⟨rfl, ret, hclose⟩
    · refine right_of_same h rfl ?_ ho.portTable
      cases call with
      | close => exact absurd rfl hcall
      | send | recv => rfl
    · exact right_of_freed h rfl rfl (close_changes hclose).2.1

theorem right_of_reachable (h : ports.Reachable Any t) : Right t := by
  refine h.invariant (P := Right) ?_ fun t a t' hi _ hs => right_step hi hs
  rintro t ⟨⟨-, -, -, htable, -⟩, hheld⟩ port
  rw [htable, hheld]
  simp

end Ports

/-- An iteration waits only for bytes of an open peer exactly when the peer's port is not
held in the two cases in which there is nothing to wait for. -/
theorem waitsForPeer_iff {t : Ports} (h : ports.Reachable Any t) : ∀ e p fd,
    t.sys.status e = .connected p fd → 0 ≤ fd → ∀ k len,
      (WaitsForPeer t.sys e p fd k len ↔
        (len = 0 ∨ Drained t.sys.world p k ∧ t.sys.status (peer e) = .closed →
          t.held (remotePort (t.sys.world.portsOf p fd)) = false)) := by
  intro e p fd _ _ k len
  have hright := Ports.right_of_reachable h (remotePort (t.sys.world.portsOf p fd))
  have hlen : 0 < len ↔ ¬ len = 0 := Nat.pos_iff_ne_zero
  unfold WaitsForPeer
  rw [goes_on_iff, hright, ← Bool.not_eq_true]
  tauto

/-- A client whose server has not accepted yet waits for it. -/
theorem waitsForPeer_iff_port80 : ∃ t : Ports, t.sys.status (0, .client) = .connected 8 3 ∧
    WaitsForPeer t.sys (0, .client) 8 3 1 1 := by
  obtain ⟨t, hr, ht⟩ := reachable_of_run (M := ports) (l := [.bind 7 80, .connect 8 3 80])
    (P := fun t => decide (t.sys.status (0, .client) = .connected 8 3 ∧
      t.sys.status (0, .server) ≠ .closed))
    (s := ⟨blank, fun _ => false⟩) ⟨blank_init, fun _ => rfl⟩ (by decide +kernel)
  obtain ⟨hclient, hserver⟩ := of_decide_eq_true ht
  refine ⟨t, hclient, (waitsForPeer_iff hr _ 8 3 hclient (by decide) 1 1).mpr ?_⟩
  rintro (hlen | ⟨-, hclosed⟩)
  · exact absurd hlen (by decide)
  · exact absurd hclosed hserver

/-- The server of a connection has closed, and another process has listened on its port
since. It has closed its listening descriptor, too. -/
def portTakenOver : List Act :=
  [.bind 7 80, .connect 8 3 80, .accept 0 7 4, .close (0, .server), .bind 9 80,
    .other 9 5 .close]

/-- The client spins: for a length of 0, and for bytes of a peer that has closed. -/
theorem spins_for_nothing : ∃ t : Ports, ports.Reachable Any t ∧
    t.sys.status (0, .client) = .connected 8 3 ∧ t.sys.status (0, .server) = .closed ∧
    ¬ WaitsForPeer t.sys (0, .client) 8 3 1 0 ∧ ¬ WaitsForPeer t.sys (0, .client) 8 3 1 1 := by
  obtain ⟨t, hr, ht⟩ := reachable_of_run (M := ports) (l := portTakenOver)
    (P := fun t => decide (t.sys.status (0, .client) = .connected 8 3 ∧
      t.sys.status (0, .server) = .closed ∧
      t.sys.world.portTable (remotePort (t.sys.world.portsOf 8 3)) ≠ 0 ∧
      Drained t.sys.world 8 1))
    (s := ⟨blank, fun _ => false⟩) ⟨blank_init, fun _ => rfl⟩ (by decide +kernel)
  obtain ⟨hclient, hclosed, hword, hdrained⟩ := of_decide_eq_true ht
  refine ⟨t, hr, hclient, hclosed, fun hw => ?_, fun hw => ?_⟩
  · exact absurd (hw (goes_on_iff.mpr ⟨hword, .inl hdrained⟩)).1 (by decide)
  · exact (hw (goes_on_iff.mpr ⟨hword, .inl hdrained⟩)).2.2 hclosed

end ShmSocket.Session
