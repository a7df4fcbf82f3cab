import ShmSocket.CInt
import ShmSocket.Lib.StepMachine
import Mathlib.Logic.Function.Basic

/-! Any number of calls of `bind` and `connect`, one load, store or compare-and-swap on
the port table at a time. -/
namespace ShmSocket.PortTable

def portNumber : ℕ := 65536
def maxPidBits : ℕ := 22

/-- `FD2PORT(fd)` in process `me`. -/
def fd2port (me : Pid) (fd : ℕ) : ℤ := i32 (fd * 2 ^ maxPidBits % 2 ^ 32 ||| me)

/-- The word of a listening port that a client with this port has won. -/
def taken (clientPort : ℕ) : ℕ := clientPort ||| 2 ^ maxPidBits

/-- A call of `bind` or `connect`. -/
abbrev Cid := ℕ

/-- The arguments of a call of `connect` by process `me`, and its locals. -/
structure Conn where
  me : Pid
  fd : ℕ
  serverPort : ℕ
  pid : ℕ
  clientPort : ℕ

/-- Where a call is: what it does next, or what it returned. -/
inductive Call where
  | unused
  | bindLoad (me : Pid) (port : ℕ)
  | bindStore (me : Pid) (port : ℕ)
  | bindDone (port : ℕ) (ret : ℤ)
  | connectLoad (f : Conn)
  | scan (i : ℕ) (f : Conn)
  | claim (i : ℕ) (f : Conn)
  | swap (f : Conn)
  | restore (f : Conn)
  | mark (f : Conn)
  | openRing (f : Conn)
  | connectDone (f : Conn) (ret : ℤ)

structure Sys where
  table : ℕ → ℤ
  call : Cid → Call

/-- A new call, or the next step of a call. `opened` says whether `rb_get` gave a ring;
only the last step of `connect` asks. -/
inductive Act where
  | bind (c : Cid) (me : Pid) (port : ℕ)
  | connect (c : Cid) (me : Pid) (fd serverPort : ℕ)
  | exec (c : Cid) (opened : Bool)

namespace Sys

def setCall (s : Sys) (c : Cid) (call : Call) : Sys :=
  { s with call := Function.update s.call c call }

def writePortTable (s : Sys) (port : ℕ) (value : ℤ) : Sys :=
  { s with table := Function.update s.table port value }

/-- What `connect` does with the word of the server port. -/
def connectLoaded (f : Conn) (pid : ℕ) : Call :=
  if 2 ^ maxPidBits ≤ pid then .connectDone { f with pid } (-1) -- another client has it
  else if pid = 0 then .connectDone { f with pid } (-2) -- the remote is not open
  else .scan 1 { f with pid }

/-- The loop of `get_free_port` after the load at port `i`. -/
def scanned (i : ℕ) (f : Conn) (value : ℤ) : Call :=
  if value = 0 then .claim i f
  else if i + 1 < portNumber then .scan (i + 1) f
  else .connectDone f (-1)

def exec (s : Sys) (c : Cid) (opened : Bool) : Option Sys :=
  match s.call c with
  | .unused | .bindDone _ _ | .connectDone _ _ => none
  | .bindLoad me port =>
      some (s.setCall c (if s.table port ≠ 0 then .bindDone port (-1) else .bindStore me port))
  | .bindStore me port => some ((s.writePortTable port me).setCall c (.bindDone port 0))
  | .connectLoad f => some (s.setCall c (connectLoaded f (u32 (s.table f.serverPort))))
  | .scan i f => some (s.setCall c (scanned i f (s.table i)))
  | .claim i f =>
      some ((s.writePortTable i (fd2port f.me f.fd)).setCall c (.swap { f with clientPort := i }))
  | .swap f =>
      if s.table f.serverPort = i32 f.pid then
        some ((s.writePortTable f.serverPort (taken f.clientPort)).setCall c (.mark f))
      else some (s.setCall c (.restore f))
  | .restore f => some ((s.writePortTable f.clientPort 0).setCall c (.connectDone f (-1)))
  | .mark f => some ((s.writePortTable f.clientPort (-1)).setCall c (.openRing f))
  | .openRing f => some (s.setCall c (.connectDone f (if opened then 0 else -3)))

/-- Ports have 16 bits and process ids are positive and have `maxPidBits` bits. -/
def step (s : Sys) : Act → Option Sys
  | .bind c me port =>
      match s.call c with
      | .unused =>
          if port < portNumber ∧ 0 < me ∧ me < 2 ^ maxPidBits then
            some (s.setCall c (.bindLoad me port))
          else none
      | _ => none
  | .connect c me fd serverPort =>
      match s.call c with
      | .unused =>
          if serverPort < portNumber ∧ 0 < me ∧ me < 2 ^ maxPidBits then
            some (s.setCall c (.connectLoad ⟨me, fd, serverPort, 0, 0⟩))
          else none
      | _ => none
  | .exec c opened => s.exec c opened

end Sys

variable {s s' : Sys} {a : Act} {c d : Cid}

@[simp] theorem setCall_call (s : Sys) (c : Cid) (call : Call) :
    (s.setCall c call).call c = call := Function.update_self _ _ _

theorem taken_lt {port : ℕ} (h : port < portNumber) : taken port < 2 ^ 32 := by
  unfold taken maxPidBits
  unfold portNumber at h
  exact Nat.or_lt_two_pow (by omega) (by omega)

theorem taken_ge (port : ℕ) : 2 ^ maxPidBits ≤ taken port := Nat.right_le_or

theorem taken_ne_zero (port : ℕ) : (taken port : ℤ) ≠ 0 := by
  have hge := taken_ge port
  have hpow : 0 < 2 ^ maxPidBits := by decide
  omega

theorem fd2port_ne_zero {me : Pid} (fd : ℕ) (hpos : 0 < me) (hlt : me < 2 ^ maxPidBits) :
    fd2port me fd ≠ 0 := by
  have hword : (fd * 2 ^ maxPidBits % 2 ^ 32 ||| me) < 2 ^ 32 :=
    Nat.or_lt_two_pow (Nat.mod_lt _ (by omega)) (hlt.trans (by decide))
  intro hz
  have hback := u32_i32 hword
  rw [show i32 (fd * 2 ^ maxPidBits % 2 ^ 32 ||| me) = 0 from hz] at hback
  have hme : me ≤ fd * 2 ^ maxPidBits % 2 ^ 32 ||| me := Nat.right_le_or
  rw [← hback] at hme
  exact hpos.ne' (Nat.le_zero.mp hme)

/-- The call that a step belongs to. -/
def Act.cid : Act → Cid
  | .bind c _ _ | .connect c _ _ _ | .exec c _ => c

/-- All that a step can do, with what it has found. -/
inductive Move (s : Sys) : Act → Sys → Prop
  | bind {c : Cid} {me : Pid} {port : ℕ} (hc : s.call c = .unused) (hport : port < portNumber)
      (hpos : 0 < me) (hlt : me < 2 ^ maxPidBits) :
      Move s (.bind c me port) (s.setCall c (.bindLoad me port))
  | connect {c : Cid} {me : Pid} {fd port : ℕ} (hc : s.call c = .unused)
      (hport : port < portNumber) (hpos : 0 < me) (hlt : me < 2 ^ maxPidBits) :
      Move s (.connect c me fd port) (s.setCall c (.connectLoad ⟨me, fd, port, 0, 0⟩))
  | bindLoad {c : Cid} {opened : Bool} {me : Pid} {port : ℕ} (hc : s.call c = .bindLoad me port) :
      Move s (.exec c opened) (s.setCall c
        (if s.table port ≠ 0 then .bindDone port (-1) else .bindStore me port))
  | bindStore {c : Cid} {opened : Bool} {me : Pid} {port : ℕ}
      (hc : s.call c = .bindStore me port) :
      Move s (.exec c opened) ((s.writePortTable port me).setCall c (.bindDone port 0))
  | connectLoad {c : Cid} {opened : Bool} {f : Conn} (hc : s.call c = .connectLoad f) :
      Move s (.exec c opened) (s.setCall c (Sys.connectLoaded f (u32 (s.table f.serverPort))))
  | scan {c : Cid} {opened : Bool} {i : ℕ} {f : Conn} (hc : s.call c = .scan i f) :
      Move s (.exec c opened) (s.setCall c (Sys.scanned i f (s.table i)))
  | claim {c : Cid} {opened : Bool} {i : ℕ} {f : Conn} (hc : s.call c = .claim i f) :
      Move s (.exec c opened)
        ((s.writePortTable i (fd2port f.me f.fd)).setCall c (.swap { f with clientPort := i }))
  | win {c : Cid} {opened : Bool} {f : Conn} (hc : s.call c = .swap f)
      (hword : s.table f.serverPort = i32 f.pid) :
      Move s (.exec c opened)
        ((s.writePortTable f.serverPort (taken f.clientPort)).setCall c (.mark f))
  | lose {c : Cid} {opened : Bool} {f : Conn} (hc : s.call c = .swap f)
      (hword : s.table f.serverPort ≠ i32 f.pid) :
      Move s (.exec c opened) (s.setCall c (.restore f))
  | restore {c : Cid} {opened : Bool} {f : Conn} (hc : s.call c = .restore f) :
      Move s (.exec c opened)
        ((s.writePortTable f.clientPort 0).setCall c (.connectDone f (-1)))
  | mark {c : Cid} {opened : Bool} {f : Conn} (hc : s.call c = .mark f) :
      Move s (.exec c opened) ((s.writePortTable f.clientPort (-1)).setCall c (.openRing f))
  | openRing {c : Cid} {opened : Bool} {f : Conn} (hc : s.call c = .openRing f) :
      Move s (.exec c opened) (s.setCall c (.connectDone f (if opened then 0 else -3)))

theorem exec_cases {opened : Bool} (h : s.exec c opened = some s') :
    Move s (.exec c opened) s' := by
  simp only [Sys.exec] at h
  cases hc : s.call c with
  | unused | bindDone port ret | connectDone f ret => simp [hc] at h
  | swap f =>
    simp only [hc] at h
    split at h
    · next hword =>
      cases h
      exact .win hc hword
    · next hword =>
      cases h
      exact .lose hc hword
  | bindLoad me port =>
    simp only [hc, Option.some.injEq] at h
    exact h ▸ .bindLoad hc
  | bindStore me port =>
    simp only [hc, Option.some.injEq] at h
    exact h ▸ .bindStore hc
  | connectLoad f =>
    simp only [hc, Option.some.injEq] at h
    exact h ▸ .connectLoad hc
  | scan i f =>
    simp only [hc, Option.some.injEq] at h
    exact h ▸ .scan hc
  | claim i f =>
    simp only [hc, Option.some.injEq] at h
    exact h ▸ .claim hc
  | restore f =>
    simp only [hc, Option.some.injEq] at h
    exact h ▸ .restore hc
  | mark f =>
    simp only [hc, Option.some.injEq] at h
    exact h ▸ .mark hc
  | openRing f =>
    simp only [hc, Option.some.injEq] at h
    exact h ▸ .openRing hc

theorem step_cases (h : s.step a = some s') : Move s a s' := by
  cases a with
  | exec c opened => exact exec_cases h
  | bind c me port =>
    cases hc : s.call c <;> simp only [Sys.step, hc, reduceCtorEq] at h
    split at h
    · next hguard =>
      cases h
      exact .bind hc hguard.1 hguard.2.1 hguard.2.2
    · cases h
  | connect c me fd serverPort =>
    cases hc : s.call c <;> simp only [Sys.step, hc, reduceCtorEq] at h
    split at h
    · next hguard =>
      cases h
      exact .connect hc hguard.1 hguard.2.1 hguard.2.2
    · cases h

/-- A step moves one call and leaves the others where they are. -/
theorem step_call (h : s.step a = some s') :
    ∃ call, s'.call = Function.update s.call a.cid call := by
  cases step_cases h <;> exact ⟨_, rfl⟩

theorem step_call_ne (h : s.step a = some s') (hd : d ≠ a.cid) : s'.call d = s.call d := by
  obtain ⟨call, hcall⟩ := step_call h
  rw [hcall, Function.update_of_ne hd]

end ShmSocket.PortTable
