import ShmSocket.PortTable.Steps

/-! Ownership of local ports. `bind` and `get_free_port` test an entry and store to it
in separate steps: two calls own one port exactly through a store to an entry that is no
longer 0. -/
namespace ShmSocket.PortTable
open StepMachine

/-- No call is in progress; entries may hold anything. -/
def machine : StepMachine Sys Act where
  init s := ∀ c, s.call c = .unused
  step := Sys.step

/-- The store of `bind` and the store of `get_free_port` hit an entry that is still 0. -/
def StillFree (s : Sys) : Act → Prop
  | .exec c _ =>
      match s.call c with
      | .bindStore _ port => s.table port = 0
      | .claim i _ => s.table i = 0
      | _ => True
  | _ => True

/-- The local port of a call that returned 0. -/
def Call.Owns (port : ℕ) : Call → Prop
  | .bindDone q ret => q = port ∧ ret = 0
  | .connectDone f ret => f.clientPort = port ∧ ret = 0
  | _ => False

/-- No port has two owners, and the entry of an owned port is not 0. -/
structure OwnersExclusive (s : Sys) : Prop where
  exclusive : ∀ c d port, (s.call c).Owns port → (s.call d).Owns port → c = d
  nonzero : ∀ c port, (s.call c).Owns port → s.table port ≠ 0

/-- The port that a call has claimed and not given back. -/
def Call.claimed : Call → Option ℕ
  | .swap f | .restore f | .mark f | .openRing f => some f.clientPort
  | .bindDone port ret => if ret = 0 then some port else none
  | .connectDone f ret => if ret = 0 ∨ ret = -3 then some f.clientPort else none
  | _ => none

/-- The process of a call that is going to claim a port. -/
def Call.PidOk : Call → Prop
  | .bindLoad me _ | .bindStore me _ => 0 < me
  | .connectLoad f | .scan _ f | .claim _ f => 0 < f.me ∧ f.me < 2 ^ maxPidBits
  | _ => True

variable {s s' : Sys} {a : Act} {c d : Cid} {f : Conn} {port : ℕ}

theorem Call.Owns.claimed {call : Call} (h : call.Owns port) : call.claimed = some port := by
  cases call with
  | bindDone q ret =>
    obtain ⟨rfl, rfl⟩ := h
    rfl
  | connectDone f ret =>
    obtain ⟨rfl, rfl⟩ := h
    rfl
  | _ => exact h.elim

structure OwnerInv (s : Sys) : Prop where
  exclusive : ∀ c d port, (s.call c).claimed = some port → (s.call d).claimed = some port → c = d
  nonzero : ∀ c port, (s.call c).claimed = some port → s.table port ≠ 0
  pids : ∀ c, (s.call c).PidOk

namespace OwnerInv

theorem start (h : ∀ c, s.call c = .unused) : OwnerInv s := by
  constructor
  · intro c d port hc
    rw [h c] at hc
    cases hc
  · intro c port hc
    rw [h c] at hc
    cases hc
  · intro c
    rw [h c]
    trivial

/-- A step that makes no entry 0 and claims at most an entry that was 0. -/
theorem of_store {call : Call} (h : OwnerInv s) (hcall : s'.call = Function.update s.call c call)
    (htable : ∀ port, s.table port ≠ 0 → s'.table port ≠ 0)
    (hclaim : ∀ port, call.claimed = some port →
      (s.call c).claimed = some port ∨ s.table port = 0 ∧ s'.table port ≠ 0)
    (hpid : call.PidOk) : OwnerInv s' := by
  have hself : s'.call c = call := by rw [hcall, Function.update_self]
  have hother : ∀ {d}, d ≠ c → s'.call d = s.call d := fun hd => by
    rw [hcall, Function.update_of_ne hd]
  have hclash : ∀ d port, d ≠ c → call.claimed = some port → (s.call d).claimed ≠ some port := by
    intro d port hd hc hd'
    rcases hclaim port hc with hold | ⟨hz, -⟩
    · exact hd (h.exclusive d c port hd' hold)
    · exact h.nonzero d port hd' hz
  constructor
  · intro d e port hd he
    by_cases hdc : d = c <;> by_cases hec : e = c
    · rw [hdc, hec]
    · rw [hdc, hself] at hd
      rw [hother hec] at he
      exact absurd he (hclash e port hec hd)
    · rw [hother hdc] at hd
      rw [hec, hself] at he
      exact absurd hd (hclash d port hdc he)
    · rw [hother hdc] at hd
      rw [hother hec] at he
      exact h.exclusive d e port hd he
  · intro d port hd
    by_cases hdc : d = c
    · rw [hdc, hself] at hd
      rcases hclaim port hd with hold | ⟨-, hnz⟩
      · exact htable port (h.nonzero c port hold)
      · exact hnz
    · rw [hother hdc] at hd
      exact htable port (h.nonzero d port hd)
  · rw [hcall]
    exact (Function.forall_update_iff s.call fun _ call => call.PidOk).mpr
      ⟨hpid, fun d _ => h.pids d⟩

/-- A loser of the swap stores 0 to the port that only it has claimed. -/
theorem restore (h : OwnerInv s) (hc : s.call c = .restore f) :
    OwnerInv ((s.writePortTable f.clientPort 0).setCall c (.connectDone f (-1))) := by
  have hmine : (s.call c).claimed = some f.clientPort := by
    rw [hc]
    rfl
  generalize hs' : (s.writePortTable f.clientPort 0).setCall c (.connectDone f (-1)) = s'
  have hself : s'.call c = .connectDone f (-1) := by
    rw [← hs']
    exact Function.update_self _ _ _
  have hother : ∀ {d}, d ≠ c → s'.call d = s.call d := fun hd => by
    rw [← hs']
    exact Function.update_of_ne hd _ _
  have hclaimed : ∀ {d port}, (s'.call d).claimed = some port →
      d ≠ c ∧ (s.call d).claimed = some port := by
    intro d port hd
    have hne : d ≠ c := by
      rintro rfl
      rw [hself] at hd
      cases hd
    rw [hother hne] at hd
    exact ⟨hne, hd⟩
  constructor
  · exact fun d e port hd he => h.exclusive d e port (hclaimed hd).2 (hclaimed he).2
  · intro d port hd
    obtain ⟨hne, hd⟩ := hclaimed hd
    have hport : port ≠ f.clientPort := by
      rintro rfl
      exact hne (h.exclusive d c _ hd hmine)
    rw [← hs']
    change Function.update s.table f.clientPort 0 port ≠ 0
    rw [Function.update_of_ne hport]
    exact h.nonzero d port hd
  · rw [← hs']
    exact (Function.forall_update_iff s.call fun _ call => call.PidOk).mpr
      ⟨trivial, fun d _ => h.pids d⟩

end OwnerInv

/-- Stores of other values than 0 make no entry 0. -/
theorem update_ne_zero {table : ℕ → ℤ} {value : ℤ} (hvalue : value ≠ 0) (q : ℕ)
    (h : table q ≠ 0) : Function.update table port value q ≠ 0 := by
  by_cases hq : q = port
  · rw [hq, Function.update_self]
    exact hvalue
  · rw [Function.update_of_ne hq]
    exact h

namespace OwnerInv

theorem step (h : OwnerInv s) (hfree : StillFree s a) (hs : s.step a = some s') : OwnerInv s' := by
  have hpid := h.pids a.cid
  cases step_cases hs with
  | bind hc hport hpos hlt => exact h.of_store rfl (fun _ => id) (fun _ hq => by cases hq) hpos
  | connect hc hport hpos hlt =>
    exact h.of_store rfl (fun _ => id) (fun _ hq => by cases hq) ⟨hpos, hlt⟩
  | bindLoad hc =>
    rw [Act.cid, hc] at hpid
    refine h.of_store rfl (fun _ => id) ?_ ?_
    · split_ifs <;> simp [Call.claimed]
    · split_ifs
      · trivial
      · exact hpid
  | @bindStore c opened me port hc =>
    rw [Act.cid, hc] at hpid
    simp only [StillFree, hc] at hfree
    have hme : (me : ℤ) ≠ 0 := Int.natCast_ne_zero.mpr (Nat.pos_iff_ne_zero.mp hpid)
    refine h.of_store rfl (update_ne_zero hme) (fun q hq => .inr ?_) trivial
    obtain rfl : port = q := Option.some.inj hq
    refine ⟨hfree, ?_⟩
    change Function.update s.table port (me : ℤ) port ≠ 0
    rw [Function.update_self]
    exact hme
  | connectLoad hc =>
    rw [Act.cid, hc] at hpid
    unfold Sys.connectLoaded
    refine h.of_store rfl (fun _ => id) ?_ ?_
    · split_ifs <;> simp [Call.claimed]
    · split_ifs
      · trivial
      · trivial
      · exact hpid
  | scan hc =>
    rw [Act.cid, hc] at hpid
    unfold Sys.scanned
    refine h.of_store rfl (fun _ => id) ?_ ?_
    · split_ifs <;> simp [Call.claimed]
    · split_ifs
      · exact hpid
      · exact hpid
      · trivial
  | @claim c opened i f hc =>
    rw [Act.cid, hc] at hpid
    simp only [StillFree, hc] at hfree
    have hword := fd2port_ne_zero f.fd hpid.1 hpid.2
    refine h.of_store rfl (update_ne_zero hword) (fun q hq => .inr ?_) trivial
    obtain rfl : i = q := Option.some.inj hq
    refine ⟨hfree, ?_⟩
    change Function.update s.table i (fd2port f.me f.fd) i ≠ 0
    rw [Function.update_self]
    exact hword
  | win hc hword =>
    refine h.of_store rfl (update_ne_zero (taken_ne_zero _)) (fun q hq => .inl ?_) trivial
    rw [hc]
    exact hq
  | lose hc =>
    refine h.of_store rfl (fun _ => id) (fun q hq => .inl ?_) trivial
    rw [hc]
    exact hq
  | restore hc => exact h.restore hc
  | mark hc =>
    refine h.of_store rfl (update_ne_zero (by decide)) (fun q hq => .inl ?_) trivial
    rw [hc]
    exact hq
  | @openRing c opened f hc =>
    refine h.of_store rfl (fun _ => id) (fun q hq => .inl ?_) trivial
    rw [hc]
    cases opened <;> exact hq

end OwnerInv

/-- Ports have one owner as long as no store of `bind` or `get_free_port` hits an entry
that has been taken since its load. -/
theorem owners_exclusive {s : Sys} (h : machine.Reachable StillFree s) : OwnersExclusive s := by
  have hinv : OwnerInv s := by
    refine h.invariant (fun s hi => .start hi) ?_
    rintro s a s' hi hfree hs
    exact hi.step hfree hs
  constructor
  · exact fun c d port hc hd => hinv.exclusive c d port hc.claimed hd.claimed
  · exact fun c port hc => hinv.nonzero c port hc.claimed

/-- An empty table. -/
def noPorts : Sys := ⟨fun _ => 0, fun _ => .unused⟩

/-- Process 7 binds port 80 and process 8 connects to it with port 1. -/
theorem owners_exclusive_port80 : ∃ s, (s.call 0).Owns 80 ∧ (s.call 1).Owns 1 ∧
    OwnersExclusive s := by
  have h0 : machine.Reachable StillFree noPorts := .init fun _ => rfl
  have h1 := h0.step (a := Act.bind 0 7 80) trivial rfl
  have h2 := h1.step (a := Act.exec 0 true) trivial rfl
  have h3 := h2.step (a := Act.exec 0 true) rfl rfl
  have h4 := h3.step (a := Act.connect 1 8 3 80) trivial rfl
  have h5 := h4.step (a := Act.exec 1 true) trivial rfl
  have h6 := h5.step (a := Act.exec 1 true) trivial rfl
  have h7 := h6.step (a := Act.exec 1 true) rfl rfl
  have h8 := h7.step (a := Act.exec 1 true) trivial rfl
  have h9 := h8.step (a := Act.exec 1 true) trivial rfl
  have h10 := h9.step (a := Act.exec 1 true) trivial rfl
  refine ⟨_, ?_, ?_, owners_exclusive h10⟩
  · exact ⟨rfl, rfl⟩
  · exact ⟨rfl, rfl⟩

/-- Two calls of `bind` to port 80 that both load 0 before either stores. -/
def bindTwice : List Act :=
  [.bind 0 7 80, .bind 1 8 80, .exec 0 true, .exec 1 true, .exec 0 true, .exec 1 true]

/-- Processes 7 and 8 both find port 80 free, both store, and both own it. -/
theorem two_owners : ¬ ∀ s, machine.Reachable Any s → OwnersExclusive s := by
  intro hall
  have hrun : machine.run noPorts bindTwice = some _ := rfl
  have howners := hall _ ⟨noPorts, fun _ => rfl, steps_of_run hrun fun _ _ _ => trivial⟩
  have hsame : 0 = 1 := howners.exclusive 0 1 80 ⟨rfl, rfl⟩ ⟨rfl, rfl⟩
  cases hsame

end ShmSocket.PortTable
