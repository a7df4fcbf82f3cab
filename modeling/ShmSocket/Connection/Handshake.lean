import ShmSocket.Connection.Accepting

/-! The signal of `connect` and the `pause` of `accept`. Process `pid` listens on port `p` and
on no other, and calls `accept` again and again, any number of others call `connect`, and the
SIGUSR1 of the winner arrives wherever the listener then is. -/
namespace ShmSocket.Handshake
open StepMachine PortTable

/-- What SIGUSR1 does to the listener. `accept` leaves most of `siga` uninitialized, so its
handler may or may not stay after one signal. -/
inductive Disposition where
  | terminate
  | handler (once : Bool)
  deriving DecidableEq

/-- Outside `accept`, before its `sigaction`, before its `pause`, in it, and after it. -/
inductive Listener where
  | ready
  | sigaction
  | pause
  | paused
  | openRing
  | load
  | terminated
  deriving DecidableEq

/-- `killed c` says that the call `c` of `connect` has sent its signal, `signalled` where the
listener was when a signal reached it, and `returned` what its calls of `accept` returned. -/
structure Sys where
  ports : PortTable.Sys
  listener : Listener
  disposition : Disposition
  killed : Cid → Bool
  signalled : Option Listener
  returned : List ℤ

/-- `choice` is the flag of the handler in `sigaction` and whether `rb_get` gave a ring. -/
inductive Act where
  | port (a : PortTable.Act)
  | kill (c : Cid)
  | accept
  | exec (choice : Bool)

namespace Sys

/-- SIGUSR1 reaches the listener. Its `pause` ends when the handler returns. -/
def signal (s : Sys) : Sys :=
  match s.disposition with
  | .terminate => { s with listener := .terminated, signalled := some s.listener }
  | .handler once =>
      { s with
        listener := if s.listener = .paused then .openRing else s.listener
        disposition := if once then .terminate else .handler once
        signalled := some s.listener }

def acceptReturns (s : Sys) (ret : ℤ) : Sys :=
  { s with listener := .ready, returned := s.returned ++ [ret] }

def step (p : ℕ) (pid : Pid) (s : Sys) : Act → Option Sys
  | .port a => (s.ports.step a).map fun ports => { s with ports }
  | .kill c =>
      match s.ports.call c with
      | .connectDone f ret =>
          if ret = 0 ∧ s.killed c = false then
            let s := { s with killed := Function.update s.killed c true }
            some (if f.pid = pid then s.signal else s)
          else none
      | _ => none
  | .accept => if s.listener = .ready then some { s with listener := .sigaction } else none
  | .exec choice =>
      match s.listener with
      | .sigaction => some { s with listener := .pause, disposition := .handler choice }
      | .pause => some { s with listener := .paused }
      | .openRing => some (if choice then { s with listener := .load } else s.acceptReturns (-1))
      | .load => some (s.acceptReturns (Accepting.Sys.accepted (s.ports.table p) p))
      | .ready | .paused | .terminated => none

end Sys

/-- The word of `p` is the listener's and no other word is; nobody has called anything. -/
def machine (p : ℕ) (pid : Pid) : StepMachine Sys Act where
  init s := s.ports.table p = pid ∧ (∀ q, q ≠ p → u32 (s.ports.table q) ≠ pid) ∧
    (∀ c, s.ports.call c = .unused) ∧ s.listener = .ready ∧ s.disposition = .terminate ∧
    (∀ c, s.killed c = false) ∧ s.signalled = none ∧ s.returned = []
  step := Sys.step p pid

/-- The other processes call `connect`, and nobody calls `bind`. -/
def Others (pid : Pid) (_ : Sys) : Act → Prop
  | .port (.bind _ _ _) => False
  | .port (.connect _ me _ _) => me ≠ pid
  | _ => True

instance (pid : Pid) (s : Sys) (a : Act) : Decidable (Others pid s a) := by
  rcases a with (_ | _ | _) | _ | _ | _ <;> unfold Others <;> infer_instance

variable {p : ℕ} {pid : Pid} {s s' : Sys} {a : Act} {c : Cid} {f : Conn}

/-- A call that signals the listener has won `p`. -/
def Aims (p : ℕ) (pid : Pid) : Call → Prop
  | .connectLoad f => f.me ≠ pid ∧ f.me < 2 ^ maxPidBits
  | .scan _ f | .claim _ f =>
      (f.me ≠ pid ∧ f.me < 2 ^ maxPidBits) ∧ (f.pid = pid ↔ f.serverPort = p)
  | .swap f | .restore f | .mark f | .openRing f => f.pid = pid ↔ f.serverPort = p
  | .connectDone f ret => ret = 0 → (f.pid = pid ↔ f.serverPort = p)
  | _ => True

/-- The word that a scan leaves names the client. -/
theorem u32_fd2port_ne {me : Pid} (fd : ℕ) (hne : me ≠ pid) (hme : me < 2 ^ maxPidBits)
    (hpid : pid < 2 ^ maxPidBits) : u32 (fd2port me fd) ≠ pid := by
  have hword : (fd * 2 ^ maxPidBits % 2 ^ 32 ||| me) < 2 ^ 32 :=
    Nat.or_lt_two_pow (Nat.mod_lt _ (by omega)) (hme.trans (by decide))
  rw [fd2port, u32_i32 hword]
  intro he
  have hlow := congrArg (· % 2 ^ maxPidBits) he
  have hshift : fd * 2 ^ maxPidBits % 2 ^ 32 % 2 ^ maxPidBits = 0 := by
    rw [Nat.mod_mod_of_dvd _ (by decide : 2 ^ maxPidBits ∣ 2 ^ 32), Nat.mul_mod_left]
  simp only [Nat.or_mod_two_pow, hshift, Nat.zero_or, Nat.mod_eq_of_lt hme,
    Nat.mod_eq_of_lt hpid] at hlow
  exact hne hlow

/-- Who a call of `connect` signals, and that no other word than that of `p` is the pid. -/
structure Aimed (p : ℕ) (pid : Pid) (s : PortTable.Sys) : Prop where
  winner : WinnerInv p pid s
  words : ∀ q, q ≠ p → u32 (s.table q) ≠ pid
  calls : ∀ c, Aims p pid (s.call c)

namespace Aimed
variable {s s' : PortTable.Sys} {a : PortTable.Act} {call : Call}

/-- A step that changes at most one word, to one that is not the pid. -/
theorem of_store (q : ℕ) (word : ℤ) (h : Aimed p pid s) (hw : WinnerInv p pid s')
    (htable : s'.table = Function.update s.table q word ∧ u32 word ≠ pid ∨ s'.table = s.table)
    (hcall : s'.call = Function.update s.call c call) (hok : Aims p pid call) :
    Aimed p pid s' := by
  refine ⟨hw, fun r hr => ?_, ?_⟩
  · rcases htable with ⟨htable, hword⟩ | htable
    · rw [htable, Function.update_apply]
      split_ifs
      · exact hword
      · exact h.words r hr
    · rw [htable]
      exact h.words r hr
  · rw [hcall]
    exact (Function.forall_update_iff s.call fun _ call => Aims p pid call).mpr
      ⟨hok, fun d _ => h.calls d⟩

/-- The word that `connect` loads is the pid only at `p`. -/
theorem loaded (h : Aimed p pid s) (hlt : pid < 2 ^ maxPidBits)
    (hok : f.me ≠ pid ∧ f.me < 2 ^ maxPidBits) :
    Aims p pid (PortTable.Sys.connectLoaded f (u32 (s.table f.serverPort))) := by
  unfold PortTable.Sys.connectLoaded
  split_ifs with hhigh hzero
  · exact fun hret => absurd hret (by decide)
  · exact fun hret => absurd hret (by decide)
  · refine ⟨hok, fun he => ?_, fun hp => ?_⟩
    · by_contra hp
      exact h.words _ hp he
    · rcases h.winner.loaded hlt with hpid | hwon
      · exact (congrArg (fun q => u32 (s.table q)) hp).trans hpid
      · rw [hp] at hhigh
        exact absurd hwon hhigh

theorem step (h : Aimed p pid s) (hpos : 0 < pid) (hlt : pid < 2 ^ maxPidBits)
    (hbind : NoBind a) (hme : ∀ c me fd port, a = .connect c me fd port → me ≠ pid)
    (hs : s.step a = some s') : Aimed p pid s' := by
  have hw := h.winner.step hpos hlt hbind hs
  have hok := h.calls a.cid
  have hrange := h.winner.calls a.cid
  cases step_cases hs with
  | bind hc => exact hbind.elim
  | bindLoad hc | bindStore hc =>
    rw [Act.cid, hc] at hrange
    exact hrange.elim
  | connect hc hport hpos hlt =>
    exact h.of_store 0 0 hw (.inr rfl) rfl ⟨hme _ _ _ _ rfl, hlt⟩
  | connectLoad hc =>
    rw [Act.cid, hc] at hok
    exact h.of_store 0 0 hw (.inr rfl) rfl (h.loaded hlt hok)
  | scan hc =>
    rw [Act.cid, hc] at hok
    refine h.of_store 0 0 hw (.inr rfl) rfl ?_
    unfold PortTable.Sys.scanned
    split_ifs
    · exact hok
    · exact hok
    · exact fun hret => absurd hret (by decide)
  | @claim c opened i f hc =>
    rw [Act.cid, hc] at hok
    exact h.of_store _ _ hw (.inl ⟨rfl, u32_fd2port_ne f.fd hok.1.1 hok.1.2 hlt⟩) rfl hok.2
  | @win c opened f hc =>
    rw [Act.cid, hc] at hok hrange
    refine h.of_store _ _ hw (.inl ⟨rfl, ?_⟩) rfl hok
    rw [World.u32_taken hrange.2.1]
    exact (hlt.trans_le (taken_ge _)).ne'
  | lose hc =>
    rw [Act.cid, hc] at hok
    exact h.of_store 0 0 hw (.inr rfl) rfl hok
  | restore hc =>
    exact h.of_store _ _ hw (.inl ⟨rfl, hpos.ne⟩) rfl fun hret => absurd hret (by decide)
  | mark hc =>
    rw [Act.cid, hc] at hok
    refine h.of_store _ _ hw (.inl ⟨rfl, ?_⟩) rfl hok
    exact (hlt.trans (by decide : 2 ^ maxPidBits < u32 (-1))).ne'
  | openRing hc =>
    rw [Act.cid, hc] at hok
    exact h.of_store 0 0 hw (.inr rfl) rfl fun _ => hok

end Aimed

/-- A call of `connect` has sent its signal to the listener. -/
def Sent (pid : Pid) (s : Sys) (c : Cid) : Prop :=
  s.killed c = true ∧ ∃ f ret, s.ports.call c = .connectDone f ret ∧ f.pid = pid

/-- The winner has returned and sent its signal. -/
def Signals (p : ℕ) (s : Sys) (c : Cid) (f : Conn) : Prop :=
  s.ports.call c = .connectDone f 0 ∧ f.serverPort = p ∧ s.killed c = true

/-- Before the signal the first `accept` is in progress. -/
def Before (s : Sys) : Prop :=
  match s.listener with
  | .ready | .sigaction => s.disposition = .terminate
  | .pause | .paused => ∃ once, s.disposition = .handler once
  | .openRing | .load | .terminated => False

/-- After a signal that arrived at the given place, with `d` the descriptor of the winner. -/
def After (d : ℤ) (s : Sys) : Listener → Prop
  | .ready | .sigaction => s.listener = .terminated ∧ s.returned = []
  | .pause => (s.listener = .pause ∨ s.listener = .paused) ∧ s.returned = []
  | .paused =>
      (s.listener = .openRing ∨ s.listener = .load) ∧ s.returned = [] ∨
      (s.listener ≠ .openRing ∧ s.listener ≠ .load ∧ s.listener ≠ .terminated) ∧
        (s.returned = [-1] ∨ s.returned = [d])
  | .openRing | .load | .terminated => False

namespace After
variable {d : ℤ} {ℓ : Listener}

theorem returned (h : After d s ℓ) :
    s.returned = [] ∨ s.returned = [-1] ∨ s.returned = [d] := by
  cases ℓ with
  | ready | sigaction | pause => exact .inl h.2
  | paused => exact h.imp (fun h => h.2) fun h => h.2
  | openRing | load | terminated => exact h.elim

theorem empty (h : After d s ℓ) (hℓ : ℓ ≠ .paused) : s.returned = [] := by
  cases ℓ with
  | ready | sigaction | pause => exact h.2
  | paused => exact absurd rfl hℓ
  | openRing | load | terminated => exact h.elim

theorem terminated_iff (h : After d s ℓ) :
    s.listener = .terminated ↔ ℓ = .ready ∨ ℓ = .sigaction := by
  cases ℓ with
  | ready => exact iff_of_true h.1 (.inl rfl)
  | sigaction => exact iff_of_true h.1 (.inr rfl)
  | pause =>
    refine iff_of_false (fun hl => ?_) (by simp)
    rw [After, hl] at h
    simp at h
  | paused =>
    refine iff_of_false (fun hl => ?_) (by simp)
    rw [After, hl] at h
    simp at h
  | openRing | load | terminated => exact h.elim

end After

structure Inv (p : ℕ) (pid : Pid) (s : Sys) : Prop where
  aimed : Aimed p pid s.ports
  killed : ∀ c, s.killed c = true → ∃ f, s.ports.call c = .connectDone f 0
  silent : s.signalled = none → (∀ c f, ¬ Signals p s c f) ∧ s.returned = [] ∧ Before s
  signalled : ∀ ℓ, s.signalled = some ℓ →
    ∃ c f, Signals p s c f ∧ After (packPorts f.clientPort p) s ℓ

/-- A call that has returned makes no step. -/
theorem done_step {s s' : PortTable.Sys} {a : PortTable.Act} {ret : ℤ}
    (hc : s.call c = .connectDone f ret) (hs : s.step a = some s') :
    s'.call c = .connectDone f ret := by
  have hstarted : s.call c ≠ .unused := by
    rw [hc]
    exact Call.noConfusion
  rcases step_started hstarted hs with ⟨opened, -, he⟩ | ⟨-, hsame⟩
  · simp only [PortTable.Sys.exec, hc, reduceCtorEq] at he
  · exact hsame.trans hc

theorem call_step {ret : ℤ} (hc : s.ports.call c = .connectDone f ret)
    (hs : s.step p pid a = some s') : s'.ports.call c = .connectDone f ret := by
  cases a with
  | port a =>
    obtain ⟨ports, hport, rfl⟩ := Option.map_eq_some_iff.mp hs
    exact done_step hc hport
  | kill d =>
    have hports : ∀ s : Sys, s.signal.ports = s.ports := fun s => by
      unfold Sys.signal
      split <;> rfl
    simp only [Sys.step] at hs
    split at hs
    · split at hs
      · cases hs
        split
        · rw [hports]
          exact hc
        · exact hc
      · cases hs
    · cases hs
  | accept =>
    simp only [Sys.step] at hs
    split at hs
    · cases hs
      exact hc
    · cases hs
  | exec choice =>
    simp only [Sys.step] at hs
    split at hs <;> cases hs
    · exact hc
    · exact hc
    · split <;> exact hc
    · exact hc

namespace Inv

theorem start (h : (machine p pid).init s) :
    Inv p pid s := by
  obtain ⟨hword, hwords, hcalls, hlistener, hdisposition, hkilled, hsignalled, hreturned⟩ := h
  refine ⟨⟨.start hword hcalls, hwords, fun c => ?_⟩, fun c hc => ?_, fun _ => ?_, fun ℓ hℓ => ?_⟩
  · rw [hcalls c]
    trivial
  · rw [hkilled c] at hc
    cases hc
  · refine ⟨fun c f hc => ?_, hreturned, ?_⟩
    · rw [Signals, hkilled c] at hc
      cases hc.2.2
    · unfold Before
      rw [hlistener]
      exact hdisposition
  · rw [hsignalled] at hℓ
    cases hℓ

/-- A step on the port table. -/
theorem port {ports : PortTable.Sys} (h : Inv p pid s) (haimed : Aimed p pid ports)
    (hdone : ∀ c f, s.ports.call c = .connectDone f 0 → ports.call c = .connectDone f 0) :
    Inv p pid { s with ports } := by
  have hback : ∀ c f, Signals p { s with ports } c f → Signals p s c f := by
    rintro c f ⟨hc, hp, hk⟩
    obtain ⟨g, hg⟩ := h.killed c hk
    have hsame : Call.connectDone f 0 = .connectDone g 0 := hc.symm.trans (hdone c g hg)
    exact ⟨hsame ▸ hg, hp, hk⟩
  refine ⟨haimed, fun c hc => ?_, fun hnone => ?_, fun ℓ hℓ => ?_⟩
  · obtain ⟨f, hf⟩ := h.killed c hc
    exact ⟨f, hdone c f hf⟩
  · obtain ⟨hno, hrest⟩ := h.silent hnone
    exact ⟨fun c f hc => hno c f (hback c f hc), hrest⟩
  · obtain ⟨c, f, ⟨hc, hp, hk⟩, hafter⟩ := h.signalled ℓ hℓ
    exact ⟨c, f, ⟨hdone c f hc, hp, hk⟩, hafter⟩

/-- A step of the listener. -/
theorem listener {s' : Sys} (h : Inv p pid s) (hports : s'.ports = s.ports)
    (hkilled : s'.killed = s.killed) (hsignalled : s'.signalled = s.signalled)
    (hbefore : Before s → s.returned = [] → Before s' ∧ s'.returned = [])
    (hafter : ∀ c f ℓ, Signals p s c f → After (packPorts f.clientPort p) s ℓ →
      After (packPorts f.clientPort p) s' ℓ) : Inv p pid s' := by
  have hsame : ∀ c f, Signals p s' c f ↔ Signals p s c f := fun c f => by
    unfold Signals
    rw [hports, hkilled]
  refine ⟨hports ▸ h.aimed, fun c hc => ?_, fun hnone => ?_, fun ℓ hℓ => ?_⟩
  · rw [hports]
    exact h.killed c (hkilled ▸ hc)
  · obtain ⟨hno, hreturned, hb⟩ := h.silent (hsignalled ▸ hnone)
    obtain ⟨hb', hreturned'⟩ := hbefore hb hreturned
    exact ⟨fun c f hc => hno c f ((hsame c f).mp hc), hreturned', hb'⟩
  · obtain ⟨c, f, hc, ha⟩ := h.signalled ℓ (hsignalled ▸ hℓ)
    exact ⟨c, f, (hsame c f).mpr hc, hafter c f ℓ hc ha⟩

/-- Only the winner signals the listener, and only once. -/
theorem unsignalled (h : Inv p pid s) (hc : s.ports.call c = .connectDone f 0)
    (hp : f.serverPort = p) (hk : s.killed c = false) : s.signalled = none := by
  cases hℓ : s.signalled with
  | none => rfl
  | some ℓ =>
    obtain ⟨d, g, ⟨hd, hg, hkilled⟩, -⟩ := h.signalled ℓ hℓ
    have hwon : ∀ {c f}, s.ports.call c = .connectDone f 0 → f.serverPort = p →
        Won p s.ports c := fun hc hp => ⟨_, hc ▸ ⟨rfl, .inl rfl⟩, hp⟩
    have hcd : d = c := h.aimed.winner.unique (hwon hd hg) (hwon hc hp)
    rw [hcd, hk] at hkilled
    cases hkilled

/-- Whoever has signalled the listener is the winner. -/
theorem of_sent (h : Inv p pid s) (hc : Sent pid s c) : ∃ f, Signals p s c f := by
  obtain ⟨hk, f, ret, hcall, hpid⟩ := hc
  obtain ⟨g, hg⟩ := h.killed c hk
  obtain ⟨rfl, rfl⟩ := Call.connectDone.inj (hcall.symm.trans hg)
  have haims := h.aimed.calls c
  rw [hcall] at haims
  exact ⟨f, hcall, (haims rfl).mp hpid, hk⟩

theorem sent_unique {d : Cid} (h : Inv p pid s) (hc : Sent pid s c) (hd : Sent pid s d) :
    c = d := by
  obtain ⟨f, hf, hp, -⟩ := h.of_sent hc
  obtain ⟨g, hg, hp', -⟩ := h.of_sent hd
  exact h.aimed.winner.unique ⟨f, hf ▸ ⟨rfl, .inl rfl⟩, hp⟩ ⟨g, hg ▸ ⟨rfl, .inl rfl⟩, hp'⟩

/-- The signal of the winner. -/
theorem signal (h : Inv p pid s) (hc : s.ports.call c = .connectDone f 0)
    (hp : f.serverPort = p) (hk : s.killed c = false) :
    Inv p pid ({ s with killed := Function.update s.killed c true } : Sys).signal := by
  obtain ⟨-, hreturned, hbefore⟩ := h.silent (h.unsignalled hc hp hk)
  generalize hs₁ : ({ s with killed := Function.update s.killed c true } : Sys) = s₁
  have hsent : s₁.killed = Function.update s.killed c true := hs₁ ▸ rfl
  have hcalls : s₁.signal.ports = s.ports ∧ s₁.signal.killed = s₁.killed ∧
      s₁.signal.signalled = some s.listener ∧ s₁.signal.returned = s.returned := by
    rw [← hs₁]
    unfold Sys.signal
    split <;> exact ⟨rfl, rfl, rfl, rfl⟩
  obtain ⟨hports, hkilled, hsignalled, hret⟩ := hcalls
  refine ⟨hports ▸ h.aimed, fun d hd => ?_, fun hnone => ?_, fun ℓ hℓ => ?_⟩
  · rw [hports]
    rw [hkilled, hsent] at hd
    by_cases hdc : d = c
    · exact ⟨f, hdc ▸ hc⟩
    · rw [Function.update_of_ne hdc] at hd
      exact h.killed d hd
  · rw [hsignalled] at hnone
    cases hnone
  · obtain rfl : s.listener = ℓ := Option.some.inj (hsignalled.symm.trans hℓ)
    refine ⟨c, f, ⟨hports ▸ hc, hp, ?_⟩, ?_⟩
    · rw [hkilled, hsent]
      exact Function.update_self _ _ _
    · -- where the signal finds the listener decides what it does
      have hdisposition : s₁.disposition = s.disposition := hs₁ ▸ rfl
      have hlistener : s₁.listener = s.listener := hs₁ ▸ rfl
      unfold Before at hbefore
      cases hl : s.listener with
      | ready | sigaction =>
        simp only [hl] at hbefore
        refine ⟨?_, hret.trans hreturned⟩
        simp only [Sys.signal, hdisposition, hbefore]
      | pause =>
        simp only [hl] at hbefore
        obtain ⟨once, hhandler⟩ := hbefore
        refine ⟨.inl ?_, hret.trans hreturned⟩
        simp only [Sys.signal, hdisposition, hhandler, hlistener, hl, reduceCtorEq, if_false]
      | paused =>
        simp only [hl] at hbefore
        obtain ⟨once, hhandler⟩ := hbefore
        refine .inl ⟨.inl ?_, hret.trans hreturned⟩
        simp only [Sys.signal, hdisposition, hhandler, hlistener, hl, if_true]
      | openRing | load | terminated =>
        simp only [hl] at hbefore

/-- A call that did not connect to `p` signals somebody else. -/
theorem elsewhere (h : Inv p pid s) (hc : s.ports.call c = .connectDone f 0)
    (hp : f.serverPort ≠ p) :
    Inv p pid { s with killed := Function.update s.killed c true } := by
  have hback : ∀ d g, Signals p { s with killed := Function.update s.killed c true } d g ↔
      Signals p s d g := by
    intro d g
    unfold Signals
    by_cases hdc : d = c
    · subst hdc
      refine iff_of_false (fun hd => hp ?_) fun hd => hp ?_
      · obtain ⟨rfl, -⟩ := Call.connectDone.inj (hc.symm.trans hd.1)
        exact hd.2.1
      · obtain ⟨rfl, -⟩ := Call.connectDone.inj (hc.symm.trans hd.1)
        exact hd.2.1
    · simp only [Function.update_of_ne hdc]
  refine ⟨h.aimed, fun d hd => ?_, fun hnone => ?_, fun ℓ hℓ => ?_⟩
  · by_cases hdc : d = c
    · exact ⟨f, hdc ▸ hc⟩
    · exact h.killed d ((Function.update_of_ne hdc _ _).symm.trans hd)
  · obtain ⟨hno, hrest⟩ := h.silent hnone
    exact ⟨fun d g hd => hno d g ((hback d g).mp hd), hrest⟩
  · obtain ⟨d, g, hd, hafter⟩ := h.signalled ℓ hℓ
    exact ⟨d, g, (hback d g).mpr hd, hafter⟩

/-- What `accept` makes of the word of a port that has been won. -/
theorem accepted_eq (h : Inv p pid s) (hc : Signals p s c f) :
    Accepting.Sys.accepted (s.ports.table p) p = packPorts f.clientPort p := by
  obtain ⟨hcall, hp, -⟩ := hc
  have hpassed : (s.ports.call c).Passed f := hcall ▸ ⟨rfl, .inl rfl⟩
  rcases h.aimed.winner.word with ⟨hno, -⟩ | ⟨d, g, hg, -, hrange, hword, honly⟩
  · exact absurd ⟨f, hpassed, hp⟩ (hno c)
  · rw [← honly c ⟨f, hpassed, hp⟩] at hg
    obtain rfl := hpassed.unique hg
    rw [Accepting.Sys.accepted, hword, World.u32_taken hrange, taken_and hrange]

/-- The next step of `accept`. -/
theorem exec {choice : Bool} (h : Inv p pid s) (hs : s.step p pid (.exec choice) = some s') :
    Inv p pid s' := by
  simp only [Sys.step] at hs
  cases hl : s.listener with
  | ready | paused | terminated => simp [hl] at hs
  | sigaction =>
    simp only [hl, Option.some.injEq] at hs
    subst hs
    refine h.listener rfl rfl rfl (fun _ hr => ⟨⟨choice, rfl⟩, hr⟩) fun c f ℓ _ ha => ?_
    cases ℓ <;> simp [After, hl] at ha ⊢
    exact ha
  | pause =>
    simp only [hl, Option.some.injEq] at hs
    subst hs
    refine h.listener rfl rfl rfl (fun hb hr => ⟨?_, hr⟩) fun c f ℓ _ ha => ?_
    · simpa only [Before, hl] using hb
    · cases ℓ <;> simp [After, hl] at ha ⊢
      · exact ha
      · exact ha
  | openRing =>
    simp only [hl, Option.some.injEq] at hs
    subst hs
    refine h.listener ?_ ?_ ?_ (fun hb _ => ?_) fun c f ℓ _ ha => ?_
    · split <;> rfl
    · split <;> rfl
    · split <;> rfl
    · simp only [Before, hl] at hb
    · cases ℓ <;> simp [After, hl] at ha ⊢
      cases choice <;> simp [Sys.acceptReturns, ha]
  | load =>
    simp only [hl, Option.some.injEq] at hs
    subst hs
    refine h.listener rfl rfl rfl (fun hb _ => ?_) fun c f ℓ hc ha => ?_
    · simp only [Before, hl] at hb
    · cases ℓ <;> simp [After, hl] at ha ⊢
      simp [Sys.acceptReturns, ha, h.accepted_eq hc]

theorem step (h : Inv p pid s) (hpos : 0 < pid) (hlt : pid < 2 ^ maxPidBits)
    (ho : Others pid s a) (hs : s.step p pid a = some s') : Inv p pid s' := by
  cases a with
  | port a =>
    obtain ⟨ports, hport, rfl⟩ := Option.map_eq_some_iff.mp hs
    refine h.port (h.aimed.step hpos hlt ?_ ?_ hport) fun c f hc => done_step hc hport
    · cases a with
      | bind => exact ho
      | connect | exec => trivial
    · rintro c me fd port rfl
      exact ho
  | kill c =>
    simp only [Sys.step] at hs
    split at hs
    · next f ret hc =>
      split at hs
      · next hguard =>
        obtain ⟨rfl, hk⟩ := hguard
        have haims := h.aimed.calls c
        rw [hc] at haims
        cases hs
        split
        · next hpid => exact h.signal hc ((haims rfl).mp hpid) hk
        · next hpid => exact h.elsewhere hc fun hp => hpid ((haims rfl).mpr hp)
      · cases hs
    · cases hs
  | accept =>
    simp only [Sys.step] at hs
    split at hs
    · next hl =>
      cases hs
      refine h.listener rfl rfl rfl (fun hb hr => ⟨?_, hr⟩) fun c f ℓ _ ha => ?_
      · simpa only [Before, hl] using hb
      · cases ℓ <;> simp [After, hl] at ha ⊢
        exact ha
    · cases hs
  | exec choice => exact h.exec hs

/-- The next signal of `connect` goes to another process. -/
theorem kill_quiet {ℓ : Listener} (h : Inv p pid s) (hℓ : s.signalled = some ℓ)
    (hs : s.step p pid (.kill c) = some s') :
    s' = { s with killed := Function.update s.killed c true } := by
  simp only [Sys.step] at hs
  split at hs
  · next f ret hc =>
    split at hs
    · next hguard =>
      obtain ⟨rfl, hk⟩ := hguard
      have haims := h.aimed.calls c
      rw [hc] at haims
      cases hs
      refine if_neg fun hpid => ?_
      rw [h.unsignalled hc ((haims rfl).mp hpid) hk] at hℓ
      cases hℓ
    · cases hs
  · cases hs

theorem signalled_step {ℓ : Listener} (h : Inv p pid s) (hℓ : s.signalled = some ℓ)
    (hs : s.step p pid a = some s') : s'.signalled = some ℓ := by
  cases a with
  | port a =>
    obtain ⟨ports, -, rfl⟩ := Option.map_eq_some_iff.mp hs
    exact hℓ
  | kill c =>
    rw [h.kill_quiet hℓ hs]
    exact hℓ
  | accept =>
    simp only [Sys.step] at hs
    split at hs
    · cases hs
      exact hℓ
    · cases hs
  | exec choice =>
    simp only [Sys.step] at hs
    split at hs <;> try cases hs
    · exact hℓ
    · exact hℓ
    · split <;> exact hℓ
    · exact hℓ

end Inv

/-- The steps that a woken `accept` still takes. -/
def Listener.left : Listener → ℕ
  | .openRing => 2
  | .load => 1
  | _ => 0

/-- A step of the listener in its call of `accept`. -/
def Act.Listens : Act → Bool
  | .exec _ => true
  | _ => false

namespace Inv

/-- Once woken, the listener comes closer to the return of `accept` with each of its steps. -/
theorem left_step (h : Inv p pid s) (hℓ : s.signalled = some .paused)
    (hs : s.step p pid a = some s') (hempty : s'.returned = []) :
    s.returned = [] ∧
      s'.listener.left + (if a.Listens then 1 else 0) ≤ s.listener.left := by
  obtain ⟨c, f, -, hafter⟩ := h.signalled _ hℓ
  cases a with
  | port a =>
    obtain ⟨ports, -, rfl⟩ := Option.map_eq_some_iff.mp hs
    exact ⟨hempty, le_rfl⟩
  | kill c =>
    rw [h.kill_quiet hℓ hs] at hempty ⊢
    exact ⟨hempty, le_rfl⟩
  | accept =>
    simp only [Sys.step] at hs
    split at hs
    · next hl =>
      cases hs
      exact ⟨hempty, by rw [hl]; exact le_rfl⟩
    · cases hs
  | exec choice =>
    simp only [Sys.step] at hs
    rcases hafter with ⟨hl | hl, hreturned⟩ | ⟨⟨hopen, hload, -⟩, hreturned⟩
    · rw [hl] at hs ⊢
      obtain rfl := Option.some.inj hs
      cases choice with
      | false =>
        have hret : s.returned ++ [-1] = [] := hempty
        exact absurd hret (List.append_ne_nil_of_right_ne_nil _ (List.cons_ne_nil _ _))
      | true => exact ⟨hreturned, le_rfl⟩
    · rw [hl] at hs
      obtain rfl := Option.some.inj hs
      have hret : s.returned ++ [_] = [] := hempty
      exact absurd hret (List.append_ne_nil_of_right_ne_nil _ (List.cons_ne_nil _ _))
    · have hkept : s'.returned = s.returned := by
        split at hs <;> first | (cases hs; rfl) | contradiction
      rw [hkept] at hempty
      rw [hempty] at hreturned
      simp at hreturned

theorem left_run {as : List Act} (hpos : 0 < pid) (hlt : pid < 2 ^ maxPidBits)
    (h : Inv p pid s) (hℓ : s.signalled = some .paused)
    (hrun : (machine p pid).run s as = some s') (ho : ∀ a ∈ as, ∀ s, Others pid s a)
    (hempty : s'.returned = []) :
    s.returned = [] ∧ s'.listener.left + as.countP Act.Listens ≤ s.listener.left := by
  induction as generalizing s with
  | nil =>
    cases hrun
    exact ⟨hempty, le_rfl⟩
  | cons a as ih =>
    obtain ⟨s₁, hs, hrun⟩ := Option.bind_eq_some_iff.mp hrun
    obtain ⟨hempty₁, hcount⟩ := ih (h.step hpos hlt (ho a List.mem_cons_self s) hs)
      (h.signalled_step hℓ hs) hrun fun b hb => ho b (List.mem_cons_of_mem _ hb)
    obtain ⟨hempty, hleft⟩ := h.left_step hℓ hs hempty₁
    refine ⟨hempty, ?_⟩
    rw [List.countP_cons]
    omega

end Inv

/-- What the signal of the winner does, which arrives at `ℓ`: before `sigaction` it ends the
listener, between `sigaction` and `pause` it is lost for good, and in `pause` it lets
`accept` return the winner's port, or -1 without a ring, in two steps of its own. -/
structure Outcome (p : ℕ) (pid : Pid) (s : Sys) (ℓ : Listener) : Prop where
  winner : ∃ c f, s.ports.call c = .connectDone f 0 ∧ f.serverPort = p ∧
    ∀ s', (machine p pid).Steps (Others pid) s s' →
      s'.returned = [] ∨ s'.returned = [-1] ∨ s'.returned = [packPorts f.clientPort p]
  terminated : s.listener = .terminated ↔ ℓ = .ready ∨ ℓ = .sigaction
  lost : ℓ ≠ .paused → ∀ s', (machine p pid).Steps (Others pid) s s' → s'.returned = []
  woken : ℓ = .paused → ∀ as s', (machine p pid).run s as = some s' →
    (∀ a ∈ as, ∀ s, Others pid s a) → 2 ≤ as.countP Act.Listens → s'.returned ≠ []

/-- What holds after the signal holds in every later state. -/
theorem Inv.later {c : Cid} {f : Conn} {ℓ : Listener} (h : Inv p pid s) (hpos : 0 < pid)
    (hlt : pid < 2 ^ maxPidBits) (hℓ : s.signalled = some ℓ) (hc : Signals p s c f)
    (hs : (machine p pid).Steps (Others pid) s s') :
    After (packPorts f.clientPort p) s' ℓ := by
  obtain ⟨hi', hℓ', hc'⟩ := hs.preserves
    (P := fun s => Inv p pid s ∧ s.signalled = some ℓ ∧ s.ports.call c = .connectDone f 0)
    (fun _ _ _ hi ho hs => ⟨hi.1.step hpos hlt ho hs, hi.1.signalled_step hi.2.1 hs,
      call_step hi.2.2 hs⟩) ⟨h, hℓ, hc.1⟩
  obtain ⟨d, g, hd, hafter⟩ := hi'.signalled ℓ hℓ'
  have hcd : d = c := hi'.aimed.winner.unique ⟨g, hd.1 ▸ ⟨rfl, .inl rfl⟩, hd.2.1⟩
    ⟨f, hc' ▸ ⟨rfl, .inl rfl⟩, hc.2.1⟩
  obtain ⟨rfl, -⟩ := Call.connectDone.inj (hc'.symm.trans (hcd ▸ hd.1))
  exact hafter

/-- At most one signal is sent to the listener. `accept` returns only after it, and only if
it comes within `pause`. -/
theorem accept_needs_pause (hpos : 0 < pid) (hlt : pid < 2 ^ maxPidBits)
    (h : (machine p pid).Reachable (Others pid) s) :
    (∀ c d, Sent pid s c → Sent pid s d → c = d) ∧
      (s.signalled = none →
        (∀ c, ¬ Sent pid s c) ∧ s.returned = [] ∧ s.listener ≠ .terminated) ∧
      ∀ ℓ, s.signalled = some ℓ → Outcome p pid s ℓ := by
  have hinv : Inv p pid s :=
    h.invariant (fun _ => Inv.start) fun _ _ _ hi ho hs => hi.step hpos hlt ho hs
  refine ⟨fun c d => hinv.sent_unique, fun hnone => ?_, fun ℓ hℓ => ?_⟩
  · obtain ⟨hno, hreturned, hbefore⟩ := hinv.silent hnone
    refine ⟨fun c hc => ?_, hreturned, fun hl => ?_⟩
    · obtain ⟨f, hf⟩ := hinv.of_sent hc
      exact hno c f hf
    simp only [Before, hl] at hbefore
  · obtain ⟨c, f, hc, hafter⟩ := hinv.signalled ℓ hℓ
    constructor
    · exact ⟨c, f, hc.1, hc.2.1, fun s' hs' => (hinv.later hpos hlt hℓ hc hs').returned⟩
    · exact hafter.terminated_iff
    · exact fun hne s' hs' => (hinv.later hpos hlt hℓ hc hs').empty hne
    · rintro rfl as s' hrun ho hcount hempty
      obtain ⟨-, hleft⟩ := hinv.left_run hpos hlt hℓ hrun ho hempty
      have hafter' := hinv.later hpos hlt hℓ hc (steps_of_run hrun ho)
      have hbound : s.listener.left ≤ 2 := by
        cases s.listener <;> decide
      have hopen : Listener.openRing.left = 2 := rfl
      have hload : Listener.load.left = 1 := rfl
      rcases hafter' with ⟨hl | hl, -⟩ | ⟨-, hreturned⟩
      · rw [hl] at hleft
        omega
      · rw [hl] at hleft
        omega
      · rw [hempty] at hreturned
        simp at hreturned

/-- The client's signal comes between `sigaction` and `pause`. -/
def missed : List Act :=
  [.port (.connect 0 8 3 80), .port (.exec 0 true), .port (.exec 0 true), .port (.exec 0 true),
    .port (.exec 0 true), .port (.exec 0 true), .accept, .exec false, .port (.exec 0 true),
    .kill 0, .exec false]

theorem accept_needs_pause_missed : ∃ s : Sys, s.killed 0 = true ∧ s.listener = .paused ∧
    ∀ s', (machine 80 7).Steps (Others 7) s s' → s'.returned = [] := by
  have hinit : (machine 80 7).init
      ⟨port80, .ready, .terminate, fun _ => false, none, []⟩ := by
    refine ⟨rfl, fun q hq => ?_, fun _ => rfl, rfl, rfl, fun _ => rfl, rfl, rfl⟩
    simp only [port80, if_neg hq]
    decide
  obtain ⟨s, hr, hs⟩ := reachable_of_guarded (M := machine 80 7) (C := Others 7)
    (fun _ _ => of_decide_eq_true) (l := missed)
    (P := fun s => decide (s.killed 0 = true ∧ s.listener = .paused ∧
      s.signalled = some .pause)) hinit (by decide +kernel)
  obtain ⟨hkilled, hlistener, hsignalled⟩ := of_decide_eq_true hs
  have hlost := ((accept_needs_pause (by decide) (by decide) hr).2.2 _ hsignalled).lost
  exact ⟨s, hkilled, hlistener, hlost (by decide)⟩

end ShmSocket.Handshake
