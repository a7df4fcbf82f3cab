import ShmSocket.Connection.Calls
import ShmSocket.PortTable.Ownership
import ShmSocket.PortTable.Winner

/-! `accept` among any number of calls of `bind` and `connect`. A signal ends its `pause`,
and what the port table holds then decides what it returns. -/
namespace ShmSocket

namespace PortTable
variable {s s' : Sys} {a : Act} {c : Cid} {port : ℕ}

/-- The range of what a call may store. -/
def Call.InRange : Call → Prop
  | .bindLoad me _ | .bindStore me _ => 0 < me ∧ me < 2 ^ maxPidBits
  | .scan i _ | .claim i _ => i < portNumber
  | .swap f | .mark f => f.clientPort < portNumber
  | _ => True

/-- A step of a call keeps its stores in range. -/
theorem inRange_step (h : (s.call a.cid).InRange) (hs : s.step a = some s') :
    (s'.call a.cid).InRange := by
  cases step_cases hs with
  | bind hc hport hpos hlt =>
    rw [Act.cid, setCall_call]
    exact ⟨hpos, hlt⟩
  | bindLoad hc =>
    rw [Act.cid, hc] at h
    rw [Act.cid, setCall_call]
    split_ifs
    · trivial
    · exact h
  | connectLoad hc =>
    rw [Act.cid, setCall_call]
    unfold Sys.connectLoaded
    split_ifs
    · trivial
    · trivial
    · change 1 < portNumber
      decide
  | scan hc =>
    rw [Act.cid, hc] at h
    rw [Act.cid, setCall_call]
    unfold Sys.scanned
    split_ifs with hzero hnext
    · exact h
    · exact hnext
    · trivial
  | claim hc | win hc =>
    rw [Act.cid, hc] at h
    rw [Act.cid, setCall_call]
    exact h
  | connect hc | bindStore hc | lose hc | restore hc | mark hc | openRing hc =>
    rw [Act.cid, setCall_call]
    trivial

/-- `get_free_port` has given a `connect` this port, and `connect` stores to it once more. -/
def Call.Holding (port : ℕ) : Call → Prop
  | .swap f | .restore f | .mark f => f.clientPort = port
  | _ => False

/-- What the stores of `bind` and `connect` leave: a pid or 0, the word of a `connect` that
is in progress, the mark of its end, or the word of a `connect` that has won the port. -/
def StoredWord (s : Sys) (port : ℕ) : Prop :=
  u32 (s.table port) < 2 ^ maxPidBits ∨ (∃ c, (s.call c).Holding port) ∨ s.table port = -1 ∨
    ∃ c f, (s.call c).Passed f ∧ f.serverPort = port ∧ f.clientPort < portNumber ∧
      s.table port = taken f.clientPort

namespace StoredWord
variable {call call' : Call}

/-- A step that stores nothing to the port, of a call that does not give the port up. -/
theorem of_same (h : StoredWord s port) (hs : s.step a = some s')
    (hcall : s.call a.cid = call) (hcall' : s'.call = Function.update s.call a.cid call')
    (htable : s'.table port = s.table port)
    (hhold : call.Holding port → call'.Holding port) : StoredWord s' port := by
  rcases h with hpid | ⟨c, hc⟩ | hmark | ⟨c, f, hf, hserver, hclient, hword⟩
  · exact .inl (by rwa [htable])
  · refine .inr (.inl ⟨c, ?_⟩)
    by_cases hca : c = a.cid
    · rw [hca, hcall] at hc
      rw [hca, hcall', Function.update_self]
      exact hhold hc
    · rwa [step_call_ne hs hca]
  · exact .inr (.inr (.inl (htable.trans hmark)))
  · exact .inr (.inr (.inr ⟨c, f, passed_step hf hs, hserver, hclient, htable.trans hword⟩))

theorem of_pid {me : Pid} (hlt : me < 2 ^ maxPidBits) (hword : s.table port = me) :
    StoredWord s port := by
  refine .inl ?_
  rw [hword, u32_natCast (hlt.trans (by decide))]
  exact hlt

theorem step (h : StoredWord s port) (hrange : (s.call a.cid).InRange)
    (hs : s.step a = some s') : StoredWord s' port := by
  cases step_cases hs with
  | bind hc | connect hc | bindLoad hc | connectLoad hc | scan hc | openRing hc =>
    exact h.of_same hs hc rfl rfl False.elim
  | lose hc => exact h.of_same hs hc rfl rfl id
  | @bindStore c opened me p hc =>
    rw [Act.cid, hc] at hrange
    by_cases hp : port = p
    · subst hp
      exact of_pid hrange.2 (Function.update_self _ _ _)
    · exact h.of_same hs hc rfl (Function.update_of_ne hp _ _) False.elim
  | @claim c opened i f hc =>
    by_cases hp : port = i
    · refine .inr (.inl ⟨c, ?_⟩)
      rw [setCall_call]
      exact hp.symm
    · exact h.of_same hs hc rfl (Function.update_of_ne hp _ _) False.elim
  | @win c opened f hc =>
    rw [Act.cid, hc] at hrange
    by_cases hp : port = f.serverPort
    · refine .inr (.inr (.inr ⟨c, f, ?_, hp.symm, hrange, ?_⟩))
      · rw [setCall_call]
        rfl
      · rw [hp]
        exact Function.update_self _ _ _
    · exact h.of_same hs hc rfl (Function.update_of_ne hp _ _) id
  | @restore c opened f hc =>
    by_cases hp : port = f.clientPort
    · subst hp
      exact of_pid (show 0 < 2 ^ maxPidBits by decide) (Function.update_self _ _ _)
    · exact h.of_same hs hc rfl (Function.update_of_ne hp _ _) fun hhold => hp hhold.symm
  | @mark c opened f hc =>
    by_cases hp : port = f.clientPort
    · subst hp
      exact .inr (.inr (.inl (Function.update_self _ _ _)))
    · exact h.of_same hs hc rfl (Function.update_of_ne hp _ _) fun hhold => hp hhold.symm

/-- The store of the `bind` that has just returned. -/
theorem of_done (hrange : (s.call a.cid).InRange) (hs : s.step a = some s')
    (hd : s'.call a.cid = .bindDone port 0) : StoredWord s' port := by
  cases step_cases hs with
  | @bindStore c opened me p hc =>
    rw [Act.cid, hc] at hrange
    rw [Act.cid, setCall_call] at hd
    obtain ⟨rfl, -⟩ := Call.bindDone.inj hd
    exact of_pid hrange.2 (Function.update_self _ _ _)
  | bindLoad hc =>
    rw [Act.cid, setCall_call] at hd
    split_ifs at hd
    simp at hd
  | connectLoad hc =>
    rw [Act.cid, setCall_call] at hd
    unfold Sys.connectLoaded at hd
    split_ifs at hd
  | scan hc =>
    rw [Act.cid, setCall_call] at hd
    unfold Sys.scanned at hd
    split_ifs at hd
  | bind hc | connect hc | claim hc | win hc | lose hc | restore hc | mark hc | openRing hc =>
    rw [Act.cid, setCall_call] at hd
    cases hd

end StoredWord

/-- What a port holds that a `bind` has returned 0 for. -/
structure BoundInv (s : Sys) : Prop where
  calls : ∀ c, (s.call c).InRange
  bound : ∀ c port, s.call c = .bindDone port 0 → StoredWord s port

namespace BoundInv

theorem start (h : machine.init s) : BoundInv s := by
  refine ⟨fun c => ?_, fun c port hc => ?_⟩
  · rw [h c]
    trivial
  · rw [h c] at hc
    cases hc

theorem step (h : BoundInv s) (hs : s.step a = some s') : BoundInv s' := by
  have hrange := h.calls a.cid
  refine ⟨fun c => ?_, fun c port hc => ?_⟩
  · by_cases hca : c = a.cid
    · exact hca ▸ inRange_step hrange hs
    · rw [step_call_ne hs hca]
      exact h.calls c
  · by_cases hca : c = a.cid
    · exact .of_done hrange hs (hca ▸ hc)
    · rw [step_call_ne hs hca] at hc
      exact (h.bound c port hc).step hrange hs

end BoundInv
end PortTable

namespace Accepting
open StepMachine PortTable

/-- Where a call of `accept` is, with its `server_port`. -/
inductive Accept where
  | unused
  | paused (serverPort : ℕ)
  | openRing (serverPort : ℕ)
  | load (serverPort : ℕ)
  | done (serverPort : ℕ) (ret : ℤ)

structure Sys where
  ports : PortTable.Sys
  accept : ℕ → Accept

/-- `signal` ends the `pause` of a call, whatever the signal is and whoever sent it.
`opened` says whether `rb_get` gave a ring. -/
inductive Act where
  | port (a : PortTable.Act)
  | accept (c serverPort : ℕ)
  | signal (c : ℕ)
  | exec (c : ℕ) (opened : Bool)

namespace Sys

def setAccept (s : Sys) (c : ℕ) (accept : Accept) : Sys :=
  { s with accept := Function.update s.accept c accept }

/-- What `accept` makes of the word of its port. -/
def accepted (word : ℤ) (serverPort : ℕ) : ℤ := packPorts (u32 word &&& 0xFFFF) serverPort

def step (s : Sys) : Act → Option Sys
  | .port a => (s.ports.step a).map fun ports => { s with ports }
  | .accept c serverPort =>
      match s.accept c with
      | .unused =>
          if serverPort < portNumber then some (s.setAccept c (.paused serverPort)) else none
      | _ => none
  | .signal c =>
      match s.accept c with
      | .paused serverPort => some (s.setAccept c (.openRing serverPort))
      | _ => none
  | .exec c opened =>
      match s.accept c with
      | .openRing serverPort =>
          some (s.setAccept c (if opened then .load serverPort else .done serverPort (-1)))
      | .load serverPort =>
          some (s.setAccept c
            (.done serverPort (accepted (s.ports.table serverPort) serverPort)))
      | _ => none

end Sys

/-- No call is in progress; entries may hold anything. -/
def machine : StepMachine Sys Act where
  init s := PortTable.machine.init s.ports ∧ ∀ c, s.accept c = .unused
  step := Sys.step

/-- A connect call to the port has succeeded in its swap, and `d` encodes its port. -/
def Established (s : PortTable.Sys) (serverPort : ℕ) (d : ℤ) : Prop :=
  ∃ c f, (s.call c).Passed f ∧ f.serverPort = serverPort ∧ remotePort d = f.clientPort

def OnlyEstablished (s : Sys) : Prop :=
  ∀ c serverPort d, s.accept c = .done serverPort d → 0 ≤ d → Established s.ports serverPort d

/-- `accept` reads the word of a port that a `bind` has returned 0 for, the word is no pid,
and no `connect` in progress has the port from `get_free_port`. -/
def ReadsConnected (s : Sys) : Act → Prop
  | .exec c _ => ∀ serverPort, s.accept c = .load serverPort →
      (∃ b, s.ports.call b = .bindDone serverPort 0) ∧
      2 ^ maxPidBits ≤ u32 (s.ports.table serverPort) ∧
      ∀ d, ¬ (s.ports.call d).Holding serverPort
  | _ => True

/-- The port of a call. -/
def Accept.InRange : Accept → Prop
  | .unused => True
  | .paused port | .openRing port | .load port | .done port _ => port < portNumber

structure Inv (s : Sys) : Prop where
  ports : BoundInv s.ports
  range : ∀ c, (s.accept c).InRange
  established : OnlyEstablished s

namespace Inv
variable {s s' : Sys} {c serverPort : ℕ}

theorem start (h : machine.init s) : Inv s := by
  refine ⟨.start h.1, fun c => ?_, fun c port d hc => ?_⟩
  · rw [h.2 c]
    trivial
  · rw [h.2 c] at hc
    cases hc

/-- The mark of a client port gives a negative descriptor. -/
theorem accepted_mark (hserver : serverPort < portNumber) : Sys.accepted (-1) serverPort < 0 := by
  by_contra hneg
  have hlt := packPorts_nonneg (by decide) hserver (not_lt.mp hneg)
  revert hlt
  decide

/-- The word of a bound port that is no pid is the one of a connected client. -/
theorem load (h : Inv s) (hserver : serverPort < portNumber)
    (hbound : ∃ b, s.ports.call b = .bindDone serverPort 0)
    (hword : 2 ^ maxPidBits ≤ u32 (s.ports.table serverPort))
    (hfree : ∀ d, ¬ (s.ports.call d).Holding serverPort)
    (hnonneg : 0 ≤ Sys.accepted (s.ports.table serverPort) serverPort) :
    Established s.ports serverPort (Sys.accepted (s.ports.table serverPort) serverPort) := by
  obtain ⟨b, hb⟩ := hbound
  rcases h.ports.bound b serverPort hb with
    hpid | ⟨d, hd⟩ | hmark | ⟨c, f, hf, hport, hclient, htaken⟩
  · exact absurd hword (not_le.mpr hpid)
  · exact absurd hd (hfree d)
  · rw [hmark] at hnonneg
    exact absurd hnonneg (not_le.mpr (accepted_mark hserver))
  · refine ⟨c, f, hf, hport, ?_⟩
    rw [Sys.accepted, htaken, World.u32_taken hclient, taken_and hclient,
      remotePort_pack hclient hserver]

/-- A step of one call of `accept`. -/
theorem setAccept {accept : Accept} (h : Inv s) (hrange : accept.InRange)
    (hdone : ∀ port d, accept = .done port d → 0 ≤ d → Established s.ports port d) :
    Inv (s.setAccept c accept) :=
  ⟨h.ports, (Function.forall_update_iff s.accept fun _ x => x.InRange).mpr
      ⟨hrange, fun d _ => h.range d⟩,
    (Function.forall_update_iff s.accept fun _ x =>
      ∀ port d, x = .done port d → 0 ≤ d → Established s.ports port d).mpr
      ⟨hdone, fun d _ => h.established d⟩⟩

theorem step {a : Act} (h : Inv s) (hc : ReadsConnected s a) (hs : s.step a = some s') :
    Inv s' := by
  cases a with
  | port a =>
    obtain ⟨ports, hport, rfl⟩ := Option.map_eq_some_iff.mp hs
    refine ⟨h.ports.step hport, h.range, fun c port d hd hnonneg => ?_⟩
    obtain ⟨j, f, hf, hserver, hremote⟩ := h.established c port d hd hnonneg
    exact ⟨j, f, passed_step hf hport, hserver, hremote⟩
  | accept c port =>
    simp only [Sys.step] at hs
    split at hs
    · split at hs
      · next hport =>
        cases hs
        exact h.setAccept hport fun _ _ he => nomatch he
      · cases hs
    · cases hs
  | signal c =>
    simp only [Sys.step] at hs
    have hrange := h.range c
    split at hs
    · next port hpaused =>
      cases hs
      rw [hpaused] at hrange
      exact h.setAccept hrange fun _ _ he => nomatch he
    · cases hs
  | exec c opened =>
    simp only [Sys.step] at hs
    have hrange := h.range c
    split at hs
    · next port hopen =>
      cases hs
      rw [hopen] at hrange
      cases opened with
      | false =>
        refine h.setAccept hrange fun q d he hnonneg => ?_
        obtain ⟨-, rfl⟩ := Accept.done.inj he
        exact absurd hnonneg (by decide)
      | true => exact h.setAccept hrange fun _ _ he => nomatch he
    · next port hload =>
      cases hs
      rw [hload] at hrange
      obtain ⟨hbound, hword, hfree⟩ := hc port hload
      refine h.setAccept hrange fun q d he hnonneg => ?_
      obtain ⟨rfl, rfl⟩ := Accept.done.inj he
      exact h.load hrange hbound hword hfree hnonneg
    · cases hs

end Inv

/-- A descriptor that `accept` returns is an established connection, if `accept` reads the
word of a bound port after a client has replaced the pid and while no `connect` uses the
port as its own. -/
theorem only_established {s : Sys} (h : machine.Reachable ReadsConnected s) :
    OnlyEstablished s :=
  (h.invariant (fun _ => Inv.start) fun _ _ _ hi hc hs => hi.step hc hs).established

/-- No call has been made. -/
def noCalls : Sys := ⟨noPorts, fun _ => .unused⟩

theorem noCalls_init : machine.init noCalls := ⟨fun _ => rfl, fun _ => rfl⟩

/-- Process 7 accepts on port 80 after process 8 has connected with port 1. -/
theorem only_established_port80 : ∃ s : Sys, s.accept 0 = .done 80 65616 ∧
    Established s.ports 80 65616 := by
  have h0 : machine.Reachable ReadsConnected noCalls := .init noCalls_init
  have h1 := h0.step (a := Act.port (.bind 0 7 80)) trivial rfl
  have h2 := h1.step (a := Act.port (.exec 0 true)) trivial rfl
  have h3 := h2.step (a := Act.port (.exec 0 true)) trivial rfl
  have h4 := h3.step (a := Act.accept 0 80) trivial rfl
  have h5 := h4.step (a := Act.port (.connect 1 8 3 80)) trivial rfl
  have h6 := h5.step (a := Act.port (.exec 1 true)) trivial rfl
  have h7 := h6.step (a := Act.port (.exec 1 true)) trivial rfl
  have h8 := h7.step (a := Act.port (.exec 1 true)) trivial rfl
  have h9 := h8.step (a := Act.port (.exec 1 true)) trivial rfl
  have h10 := h9.step (a := Act.signal 0) trivial rfl
  have h11 := h10.step (a := Act.exec 0 true) (fun _ hload => nomatch hload) rfl
  have h12 := h11.step (a := Act.exec 0 true)
    (fun port hload => by
      obtain rfl : 80 = port := Accept.load.inj hload
      refine ⟨⟨0, rfl⟩, by decide +kernel, fun d hd => ?_⟩
      -- only call 1 is past `get_free_port`, with port 1
      match d with
      | 0 => exact hd
      | 1 => exact absurd (show 1 = 80 from hd) (by decide)
      | d + 2 => exact hd) rfl
  have hdone := congrArg (Accept.done 80)
    (show Sys.accepted (taken 1) 80 = 65616 by decide +kernel)
  exact ⟨_, hdone, only_established h12 0 80 65616 hdone (by decide)⟩

/-- Process 7 binds port 80, and a signal ends its `pause` before anybody has connected. -/
theorem accepted_nobody : ¬ ∀ s, machine.Reachable Any s → OnlyEstablished s := by
  intro hall
  have h0 : machine.Reachable Any noCalls := .init noCalls_init
  have h1 := h0.step (a := Act.port (.bind 0 7 80)) trivial rfl
  have h2 := h1.step (a := Act.port (.exec 0 true)) trivial rfl
  have h3 := h2.step (a := Act.port (.exec 0 true)) trivial rfl
  have h4 := h3.step (a := Act.accept 0 80) trivial rfl
  have h5 := h4.step (a := Act.signal 0) trivial rfl
  have h6 := h5.step (a := Act.exec 0 true) trivial rfl
  have h7 := h6.step (a := Act.exec 0 true) trivial rfl
  have hdone := congrArg (Accept.done 80)
    (show Sys.accepted (7 : ℕ) 80 = 458832 by decide +kernel)
  obtain ⟨c, f, hf, -, -⟩ := hall _ h7 0 80 458832 hdone (by decide)
  -- call 0 is a `bind`, and no other call has been made
  cases c with
  | zero => exact hf
  | succ c => exact hf

end Accepting
end ShmSocket
