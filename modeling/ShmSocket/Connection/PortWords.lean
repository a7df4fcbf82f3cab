import ShmSocket.Connection.Calls
import ShmSocket.PortTable.Steps

/-! How `connect` reads the words of the port table. The steps of `bind` and `connect`
interleave with `close`, and records beside the table have who stored each word and which
descriptors are bound. -/
namespace ShmSocket.PortTable.Words
open StepMachine

/-- Who stored a word: the fill of `init_port_table`, `close` or a `connect` that gives up;
`bind`; or a `connect` in one of its three places. -/
inductive Writer where
  | zero
  | bind (me : Pid)
  | getFreePort (me : Pid) (fd : ℕ)
  | swap (clientPort : ℕ)
  | mark
  deriving DecidableEq

/-- What `connect` can take a word for. -/
inductive Reading where
  | free
  | listening (pid : Pid)
  | occupied
  deriving DecidableEq

namespace Writer

def word : Writer → ℤ
  | .zero => 0
  | .bind me => me
  | .getFreePort me fd => fd2port me fd
  | .swap clientPort => taken clientPort
  | .mark => -1

/-- What the writer stored the word for. -/
def meant : Writer → Reading
  | .zero => .free
  | .bind me => .listening me
  | .getFreePort _ _ | .swap _ | .mark => .occupied

/-- `FD2PORT` shifts every bit of the descriptor out of the word. -/
def Lost : Writer → Prop
  | .getFreePort _ fd => fd % 2 ^ 10 = 0
  | _ => False

def Ok : Writer → Prop
  | .bind me | .getFreePort me _ => 0 < me ∧ me < 2 ^ maxPidBits
  | .swap clientPort => clientPort < portNumber
  | .zero | .mark => True

end Writer

/-- The tests of `connect` on the loaded word. -/
def reading (word : ℕ) : Reading :=
  if 2 ^ maxPidBits ≤ word then .occupied else if word = 0 then .free else .listening word

theorem connectLoaded_reading (f : Conn) (word : ℕ) : Sys.connectLoaded f word =
    match reading word with
    | .occupied => .connectDone { f with pid := word } (-1)
    | .free => .connectDone { f with pid := word } (-2)
    | .listening pid => .scan 1 { f with pid } := by
  unfold Sys.connectLoaded reading
  split_ifs <;> rfl

/-- A descriptor that a process has bound to a port. -/
structure Listener where
  pid : Pid
  fd : ℕ
  port : ℕ
  deriving DecidableEq

/-- The calls in progress, `client_fd_to_idx` of every process, the last writers, the
descriptor of each `bind`, and the descriptors whose `bind` has stored its word and that are
not closed. -/
structure State where
  calls : Sys
  clientFdToIdx : Pid × ℕ → ℤ
  wrote : ℕ → Writer
  bindFd : Cid → ℕ
  bound : List Listener

/-- A new call, a step of a call, or the store of `close`. -/
inductive Step where
  | bind (c : Cid) (me : Pid) (fd port : ℕ)
  | connect (c : Cid) (me : Pid) (fd serverPort : ℕ)
  | exec (c : Cid) (opened : Bool)
  | close (p : Pid) (fd : ℕ)

/-- The port that the next step of a call stores to, and the writer. -/
def stored (s : Sys) (c : Cid) : Option (ℕ × Writer) :=
  match s.call c with
  | .bindStore me port => some (port, .bind me)
  | .claim i f => some (i, .getFreePort f.me f.fd)
  | .swap f =>
      if s.table f.serverPort = i32 f.pid then some (f.serverPort, .swap f.clientPort) else none
  | .restore f => some (f.clientPort, .zero)
  | .mark f => some (f.clientPort, .mark)
  | _ => none

/-- The entry of `client_fd_to_idx` that the next step of a call sets. -/
def mapped (s : Sys) (c : Cid) : Option ((Pid × ℕ) × ℤ) :=
  match s.call c with
  | .mark f => some ((f.me, f.fd), packPorts f.serverPort f.clientPort)
  | _ => none

def record {α β : Type*} [DecidableEq α] (entry : Option (α × β)) (f : α → β) : α → β :=
  match entry with
  | none => f
  | some (x, y) => Function.update f x y

namespace State

/-- The descriptor that the next step of a call binds. -/
def opened (s : State) (c : Cid) : List Listener :=
  match s.calls.call c with
  | .bindStore me port => [⟨me, s.bindFd c, port⟩]
  | _ => []

/-- The port whose word `close` zeroes. -/
def closes (s : State) (p : Pid) (fd : ℕ) : ℕ :=
  localPort (if fd < 1024 then s.clientFdToIdx (p, fd) else fd)

def step (s : State) : Step → Option State
  | .bind c me fd port =>
      (s.calls.step (.bind c me port)).map fun calls =>
        { s with calls, bindFd := Function.update s.bindFd c fd }
  | .connect c me fd serverPort =>
      (s.calls.step (.connect c me fd serverPort)).map fun calls => { s with calls }
  | .exec c opened =>
      (s.calls.step (.exec c opened)).map fun calls =>
        { calls
          clientFdToIdx := record (mapped s.calls c) s.clientFdToIdx
          wrote := record (stored s.calls c) s.wrote
          bindFd := s.bindFd
          bound := s.opened c ++ s.bound }
  | .close p fd =>
      some { s with
        calls := s.calls.writePortTable (s.closes p fd) 0
        wrote := Function.update s.wrote (s.closes p fd) .zero
        bound := s.bound.filter fun b => ¬(b.pid = p ∧ b.fd = fd) }

def start : State :=
  ⟨⟨fun _ => 0, fun _ => .unused⟩, fun _ => 0, fun _ => .zero, fun _ => 0, []⟩

/-- The process has a descriptor bound to the port. -/
def Bound (s : State) (p : Pid) (port : ℕ) : Prop := ∃ b ∈ s.bound, b.pid = p ∧ b.port = port

end State

def machine : StepMachine State Step where
  init s := s = .start
  step := State.step

/-- Some bit of the descriptor stays in the word that `get_free_port` stores, and `close` of
a bound descriptor leaves no word of its process at the port, unless another descriptor of
the process is bound there. -/
def Kept (s : State) : Step → Prop
  | .exec c _ =>
      match s.calls.call c with
      | .claim _ f => f.fd % 2 ^ 10 ≠ 0
      | _ => True
  | .close p fd => ∀ b ∈ s.bound, b.pid = p → b.fd = fd → s.calls.table b.port = p →
      s.closes p fd = b.port ∨ ∃ b' ∈ s.bound, b'.pid = p ∧ b'.fd ≠ fd ∧ b'.port = b.port
  | _ => True

/-- Every word is read for what its writer meant, the process that a word is read for is
bound to the port, and so is the one that a swap succeeds against. -/
structure ReadRight (s : State) : Prop where
  words : ∀ port < portNumber, reading (u32 (s.calls.table port)) = (s.wrote port).meant
  listening : ∀ port < portNumber, ∀ pid,
    reading (u32 (s.calls.table port)) = .listening pid → s.Bound pid port
  swaps : ∀ c f, s.calls.call c = .swap f → s.calls.table f.serverPort = i32 f.pid →
    s.wrote f.serverPort = .bind f.pid ∧ s.Bound f.pid f.serverPort

/-- The writer's word is read right: it has kept its descriptor, and a `bind` it is of is by
a process that is still bound. -/
def Stands (s : State) (port : ℕ) : Prop :=
  ¬(s.wrote port).Lost ∧ ∀ me, s.wrote port = .bind me → s.Bound me port

section word
variable {me : Pid} {fd : ℕ}

theorem u32_fd2port (fd : ℕ) (hlt : me < 2 ^ maxPidBits) :
    u32 (fd2port me fd) = (fd * 2 ^ maxPidBits % 2 ^ 32 ||| me) :=
  u32_i32 (Nat.or_lt_two_pow (Nat.mod_lt _ (by omega)) (hlt.trans (by decide)))

/-- Without a bit of the descriptor the word is the plain process id. -/
theorem fd2port_lost (hlt : me < 2 ^ maxPidBits) (h : fd % 2 ^ 10 = 0) :
    u32 (fd2port me fd) = me := by
  have hzero : fd * 2 ^ maxPidBits % 2 ^ 32 = 0 := by
    unfold maxPidBits
    omega
  rw [u32_fd2port fd hlt, hzero, Nat.zero_or]

theorem fd2port_kept (hlt : me < 2 ^ maxPidBits) (h : fd % 2 ^ 10 ≠ 0) :
    2 ^ maxPidBits ≤ u32 (fd2port me fd) := by
  have hhigh : 2 ^ maxPidBits ≤ fd * 2 ^ maxPidBits % 2 ^ 32 := by
    unfold maxPidBits
    omega
  rw [u32_fd2port fd hlt]
  exact hhigh.trans Nat.left_le_or

theorem reading_listening (hpos : 0 < me) (hlt : me < 2 ^ maxPidBits) :
    reading me = .listening me := by
  rw [reading, if_neg hlt.not_ge, if_neg hpos.ne']

theorem reading_occupied {word : ℕ} (h : 2 ^ maxPidBits ≤ word) : reading word = .occupied :=
  if_pos h

/-- A word is misread exactly when it is one of `get_free_port` and has lost the descriptor. -/
theorem Writer.reading_iff {w : Writer} (h : w.Ok) :
    reading (u32 w.word) = w.meant ↔ ¬w.Lost := by
  cases w with
  | zero => exact ⟨fun _ => id, fun _ => rfl⟩
  | mark => exact ⟨fun _ => id, fun _ => rfl⟩
  | bind me =>
    obtain ⟨hpos, hlt⟩ := h
    refine ⟨fun _ => id, fun _ => ?_⟩
    rw [Writer.word, u32_natCast (hlt.trans (by decide)), reading_listening hpos hlt]
    rfl
  | swap clientPort =>
    refine ⟨fun _ => id, fun _ => ?_⟩
    rw [Writer.word, u32_natCast (taken_lt h), reading_occupied (taken_ge clientPort)]
    rfl
  | getFreePort me fd =>
    obtain ⟨hpos, hlt⟩ := h
    constructor
    · intro hread hlost
      rw [Writer.word, fd2port_lost hlt hlost, reading_listening hpos hlt] at hread
      cases hread
    · intro hkept
      exact reading_occupied (fd2port_kept hlt hkept)

end word

/-- A process id that fits below `FD2PORT`'s shift. -/
def PidOk (pid : Pid) : Prop := 0 < pid ∧ pid < 2 ^ maxPidBits

/-- What the locals of a call have been checked for. -/
def CallOk : Call → Prop
  | .bindLoad me port | .bindStore me port => PidOk me ∧ port < portNumber
  | .connectLoad f => PidOk f.me ∧ f.serverPort < portNumber
  | .scan i f | .claim i f =>
      i < portNumber ∧ (PidOk f.me ∧ f.serverPort < portNumber) ∧ PidOk f.pid
  | .swap f => f.clientPort < portNumber ∧ f.serverPort < portNumber ∧ PidOk f.pid
  | _ => True

structure Inv (s : State) : Prop where
  words : ∀ port, s.calls.table port = (s.wrote port).word
  writers : ∀ port, (s.wrote port).Ok
  calls : ∀ c, CallOk (s.calls.call c)
  bound : ∀ b ∈ s.bound, PidOk b.pid ∧ b.port < portNumber

variable {s s' : State} {c : Cid} {call : Call} {f : Conn} {port : ℕ}

theorem connectLoaded_ok (word : ℕ) (h : CallOk (.connectLoad f)) :
    CallOk (Sys.connectLoaded f word) := by
  unfold Sys.connectLoaded
  split_ifs with hhigh hzero
  · trivial
  · trivial
  · exact ⟨by decide, h, Nat.pos_of_ne_zero hzero, Nat.lt_of_not_le hhigh⟩

theorem scanned_ok {i : ℕ} (value : ℤ) (h : CallOk (.scan i f)) :
    CallOk (Sys.scanned i f value) := by
  unfold Sys.scanned
  split_ifs with hzero hnext
  · exact h
  · exact ⟨hnext, h.2⟩
  · trivial

namespace Inv

theorem start : Inv .start :=
  ⟨fun _ => rfl, fun _ => trivial, fun _ => trivial, by simp [State.start]⟩

/-- A store with its record. -/
theorem store {w : Writer} {bound : List Listener} (h : Inv s) (hw : w.Ok)
    (hbound : ∀ b ∈ bound, PidOk b.pid ∧ b.port < portNumber) :
    Inv ⟨s.calls.writePortTable port w.word, s.clientFdToIdx, Function.update s.wrote port w,
      s.bindFd, bound⟩ := by
  refine ⟨fun q => ?_, ?_, h.calls, hbound⟩
  · change Function.update s.calls.table port w.word q = (Function.update s.wrote port w q).word
    by_cases hq : q = port
    · rw [hq, Function.update_self, Function.update_self]
    · rw [Function.update_of_ne hq, Function.update_of_ne hq, h.words]
  · exact (Function.forall_update_iff s.wrote fun _ w => w.Ok).mpr ⟨hw, fun q _ => h.writers q⟩

/-- A call that goes on. -/
theorem move {map : Pid × ℕ → ℤ} {fds : Cid → ℕ} (h : Inv s) (hcall : CallOk call) :
    Inv ⟨s.calls.setCall c call, map, s.wrote, fds, s.bound⟩ :=
  ⟨h.words, h.writers, (Function.forall_update_iff s.calls.call fun _ call => CallOk call).mpr
    ⟨hcall, fun d _ => h.calls d⟩, h.bound⟩

theorem exec {opened : Bool} (h : Inv s) (hs : s.step (.exec c opened) = some s') : Inv s' := by
  obtain ⟨calls, hcalls, rfl⟩ := Option.map_eq_some_iff.mp hs
  have hok := h.calls c
  cases step_cases hcalls with
  | bindLoad hc =>
    rw [hc] at hok
    simp only [stored, State.opened, hc]
    refine h.move ?_
    split_ifs
    · trivial
    · exact hok
  | @bindStore _ _ me port hc =>
    rw [hc] at hok
    simp only [stored, State.opened, hc]
    have hbound : ∀ b ∈ ⟨me, s.bindFd c, port⟩ :: s.bound, PidOk b.pid ∧ b.port < portNumber :=
      List.forall_mem_cons.mpr ⟨hok, h.bound⟩
    exact (h.store (w := .bind me) hok.1 hbound).move trivial
  | connectLoad hc =>
    rw [hc] at hok
    simp only [stored, State.opened, hc]
    exact h.move (connectLoaded_ok _ hok)
  | scan hc =>
    rw [hc] at hok
    simp only [stored, State.opened, hc]
    exact h.move (scanned_ok _ hok)
  | @claim _ _ i f hc =>
    obtain ⟨hi, ⟨hme, hserver⟩, hpid⟩ := (congrArg CallOk hc).mp hok
    simp only [stored, State.opened, hc]
    exact (h.store (w := .getFreePort f.me f.fd) hme h.bound).move ⟨hi, hserver, hpid⟩
  | @win _ _ f hc hword =>
    obtain ⟨hport, -⟩ := (congrArg CallOk hc).mp hok
    simp only [stored, State.opened, hc, if_pos hword]
    exact (h.store (w := .swap f.clientPort) hport h.bound).move trivial
  | lose hc hword =>
    simp only [stored, State.opened, hc, if_neg hword]
    exact h.move trivial
  | restore hc =>
    simp only [stored, State.opened, hc]
    exact (h.store (w := .zero) trivial h.bound).move trivial
  | mark hc =>
    simp only [stored, State.opened, hc]
    exact (h.store (w := .mark) trivial h.bound).move trivial
  | openRing hc =>
    simp only [stored, State.opened, hc]
    exact h.move trivial

theorem step {a : Step} (h : Inv s) (hs : s.step a = some s') : Inv s' := by
  cases a with
  | bind c me fd port =>
    obtain ⟨calls, hcalls, rfl⟩ := Option.map_eq_some_iff.mp hs
    cases step_cases hcalls with
    | bind hc hport hpos hlt => exact h.move ⟨⟨hpos, hlt⟩, hport⟩
  | connect c me fd port =>
    obtain ⟨calls, hcalls, rfl⟩ := Option.map_eq_some_iff.mp hs
    cases step_cases hcalls with
    | connect hc hport hpos hlt => exact h.move ⟨⟨hpos, hlt⟩, hport⟩
  | exec c opened => exact h.exec hs
  | close p fd =>
    cases hs
    exact h.store (w := .zero) trivial fun b hb => h.bound b (List.mem_of_mem_filter hb)

/-- The swap expects the word that the load has read as a listener's. -/
theorem swap_reading (h : Inv s) (hc : s.calls.call c = .swap f)
    (hword : s.calls.table f.serverPort = i32 f.pid) :
    reading (u32 (s.calls.table f.serverPort)) = .listening f.pid := by
  obtain ⟨-, -, hpos, hlt⟩ := (congrArg CallOk hc).mp (h.calls c)
  rw [hword, u32_i32 (hlt.trans (by decide)), reading_listening hpos hlt]

end Inv

theorem listening_writer {w : Writer} {pid : Pid} (h : w.meant = .listening pid) :
    w = .bind pid := by
  cases w with
  | bind me => rw [Reading.listening.inj h]
  | _ => cases h

/-- The words are read right exactly while every one of them stands. -/
theorem Inv.readRight_iff (h : Inv s) : ReadRight s ↔ ∀ port < portNumber, Stands s port := by
  have hread : ∀ port, reading (u32 (s.calls.table port)) = (s.wrote port).meant ↔
      ¬(s.wrote port).Lost := fun port => by
    rw [h.words port]
    exact Writer.reading_iff (h.writers port)
  constructor
  · intro hr port hport
    refine ⟨(hread port).mp (hr.words port hport), fun me hme => hr.listening port hport me ?_⟩
    rw [hr.words port hport, hme]
    rfl
  · intro hstands
    have hwords := fun port hport => (hread port).mpr (hstands port hport).1
    have hlistening : ∀ port < portNumber, ∀ pid,
        reading (u32 (s.calls.table port)) = .listening pid →
        s.wrote port = .bind pid ∧ s.Bound pid port := by
      intro port hport pid hpid
      have hwriter := listening_writer ((hwords port hport).symm.trans hpid)
      exact ⟨hwriter, (hstands port hport).2 pid hwriter⟩
    refine ⟨hwords, fun port hport pid hpid => (hlistening port hport pid hpid).2,
      fun c f hc hword => ?_⟩
    obtain ⟨-, hserver, -⟩ := (congrArg CallOk hc).mp (h.calls c)
    exact hlistening f.serverPort hserver f.pid (h.swap_reading hc hword)

theorem inv_of_reachable {C : State → Step → Prop} (h : machine.Reachable C s) : Inv s := by
  refine h.invariant ?_ fun s a s' hi _ hs => hi.step hs
  rintro s rfl
  exact .start

/-- What a call stores is not lost, and a `bind` opens its descriptor with its word. -/
theorem stored_ok {opened : Bool} {q : ℕ} {w : Writer} (ha : Kept s (.exec c opened))
    (hw : stored s.calls c = some (q, w)) :
    ¬w.Lost ∧ ∀ me, w = .bind me → ⟨me, s.bindFd c, q⟩ ∈ s.opened c := by
  unfold stored at hw
  unfold State.opened
  cases hc : s.calls.call c with
  | bindStore me port =>
    simp only [hc] at hw
    cases hw
    exact ⟨id, fun me' hme => by cases hme; exact List.mem_singleton_self _⟩
  | claim i f =>
    simp only [hc] at hw
    cases hw
    simp only [Kept, hc] at ha
    exact ⟨ha, nofun⟩
  | swap f =>
    simp only [hc] at hw
    split_ifs at hw
    cases hw
    exact ⟨id, nofun⟩
  | restore f | mark f =>
    simp only [hc] at hw
    cases hw
    exact ⟨id, nofun⟩
  | _ =>
    simp only [hc] at hw
    cases hw

/-- What a step stores stands, and so does what it leaves. -/
theorem stands_step {a : Step} (hi : Inv s) (h : ∀ port, Stands s port) (ha : Kept s a)
    (hs : s.step a = some s') (port : ℕ) : Stands s' port := by
  cases a with
  | bind | connect =>
    obtain ⟨calls, -, rfl⟩ := Option.map_eq_some_iff.mp hs
    exact h port
  | exec c opened =>
    obtain ⟨calls, -, rfl⟩ := Option.map_eq_some_iff.mp hs
    have hbound (me : Pid) (hme : s.Bound me port) :
        ∃ b ∈ s.opened c ++ s.bound, b.pid = me ∧ b.port = port := by
      obtain ⟨b, hb, hb'⟩ := hme
      exact ⟨b, List.mem_append_right _ hb, hb'⟩
    have hkeep : ¬(s.wrote port).Lost ∧ ∀ me, s.wrote port = .bind me →
        ∃ b ∈ s.opened c ++ s.bound, b.pid = me ∧ b.port = port :=
      ⟨(h port).1, fun me hme => hbound me ((h port).2 me hme)⟩
    unfold Stands State.Bound
    rcases hw : stored s.calls c with - | ⟨q, w⟩
    · exact hkeep
    obtain ⟨hlost, hopen⟩ := stored_ok ha hw
    simp only [record]
    by_cases hq : port = q
    · subst hq
      rw [Function.update_self]
      exact ⟨hlost, fun me hme => ⟨_, List.mem_append_left _ (hopen me hme), rfl, rfl⟩⟩
    · rw [Function.update_of_ne hq]
      exact hkeep
  | close p fd =>
    cases hs
    unfold Stands State.Bound
    by_cases hq : port = s.closes p fd
    · subst hq
      simp only [Function.update_self]
      exact ⟨id, nofun⟩
    simp only [Function.update_of_ne hq]
    refine ⟨(h port).1, fun me hme => ?_⟩
    obtain ⟨b, hb, rfl, rfl⟩ := (h port).2 me hme
    simp only [List.mem_filter, decide_eq_true_eq, not_and]
    by_cases hclosed : b.pid = p ∧ b.fd = fd
    · -- the word is that of the process whose descriptor is closed
      obtain ⟨rfl, rfl⟩ := hclosed
      have hword : s.calls.table b.port = b.pid := by
        rw [hi.words, hme]
        rfl
      rcases ha b hb rfl rfl hword with hport | ⟨b', hb', hpid, hfd, hport⟩
      · exact absurd hport.symm hq
      · exact ⟨b', ⟨hb', fun _ => hfd⟩, hpid, hport⟩
    · exact ⟨b, ⟨hb, not_and.mp hclosed⟩, rfl, rfl⟩

/-- After a step that does not meet the condition some word is misread. -/
theorem Inv.not_kept {a : Step} (h : Inv s) (ha : ¬Kept s a) (hs : s.step a = some s') :
    ¬ReadRight s' := by
  cases a with
  | bind | connect => exact absurd trivial ha
  | exec c opened =>
    rw [(h.step hs).readRight_iff]
    intro hstands
    obtain ⟨calls, hcalls, rfl⟩ := Option.map_eq_some_iff.mp hs
    cases hc : s.calls.call c with
    | claim i f =>
      obtain ⟨hi, -⟩ := (congrArg CallOk hc).mp (h.calls c)
      simp only [Kept, hc, not_not] at ha
      have hwrote := (hstands i hi).1
      simp only [stored, hc, record, Function.update_self] at hwrote
      exact hwrote ha
    | _ =>
      simp only [Kept, hc] at ha
      exact ha trivial
  | close p fd =>
    cases hs
    intro hr
    -- the word of the closed descriptor's process is left at a port where it is not bound
    simp only [Kept, not_forall, not_or, not_exists, not_and] at ha
    obtain ⟨b, hb, rfl, rfl, hword, hport, hother⟩ := ha
    obtain ⟨⟨hpos, hlt⟩, hnumber⟩ := h.bound b hb
    have hleft : reading (u32 (Function.update s.calls.table (s.closes b.pid b.fd) 0 b.port)) =
        .listening b.pid := by
      rw [Function.update_of_ne (Ne.symm hport), hword, u32_natCast (hlt.trans (by decide)),
        reading_listening hpos hlt]
    obtain ⟨b', hb', hpid, hport'⟩ := hr.listening b.port hnumber b.pid hleft
    obtain ⟨hmem, hfd⟩ := List.mem_filter.mp hb'
    simp only [decide_eq_true_eq, not_and] at hfd
    exact hother b' hmem hpid (hfd hpid) hport'

/-- The words of the port table are read for what they were stored for, and no swap succeeds
against a port whose process is not bound there, exactly as long as every word stands; so in
every run in which `get_free_port` keeps a bit of its descriptor and `close` leaves no word of
a descriptor it closes, and not after a step that does not. -/
theorem words_read {s : State} (h : machine.Reachable Any s) :
    (ReadRight s ↔ ∀ port < portNumber, Stands s port) ∧
      (machine.Reachable Kept s → ReadRight s) ∧
      ∀ a s', s.step a = some s' → ¬Kept s a → ¬ReadRight s' := by
  have hinv := inv_of_reachable h
  refine ⟨hinv.readRight_iff, fun hkept => hinv.readRight_iff.mpr fun port _ => ?_,
    fun a s' hs ha => hinv.not_kept ha hs⟩
  refine (hkept.invariant (P := fun s => Inv s ∧ ∀ port, Stands s port) ?_ ?_).2 port
  · rintro s rfl
    exact ⟨.start, fun _ => ⟨id, nofun⟩⟩
  · exact fun s a s' hi ha hs => ⟨hi.1.step hs, stands_step hi.1 hi.2 ha hs⟩

/-- Process 5 binds port 80 with descriptor 4, and process 7 connects to it with descriptor
`fd` as far as the store of `get_free_port`. -/
def claims (fd : ℕ) : List Step :=
  [.bind 0 5 4 80, .exec 0 true, .exec 0 true, .connect 1 7 fd 80, .exec 1 true, .exec 1 true,
    .exec 1 true]

instance (s : State) (a : Step) : Decidable (Kept s a) := by
  unfold Kept
  split
  · split <;> infer_instance
  · infer_instance
  · infer_instance

/-- With descriptor 3 the word at port 1 is that of a port in use. Process 5 closes what
`accept` gave it, which zeroes its port, and then its bound descriptor. -/
theorem words_read_three : ∃ s, machine.Reachable Kept s ∧ s.wrote 1 = .getFreePort 7 3 ∧
    reading (u32 (s.calls.table 1)) = .occupied ∧ s.bound = [] ∧ ReadRight s := by
  obtain ⟨s, hr, hs⟩ := reachable_of_guarded (M := machine) (C := Kept)
    (c := fun s a => decide (Kept s a))
    (l := claims 3 ++ [.close 5 (1 * 2 ^ 16 + 80), .close 5 4])
    (P := fun s => decide (s.wrote 1 = .getFreePort 7 3 ∧
      reading (u32 (s.calls.table 1)) = .occupied ∧ s.bound = []))
    (fun _ _ => of_decide_eq_true) (s := .start) rfl (by decide +kernel)
  obtain ⟨h1, h2, h3⟩ := of_decide_eq_true hs
  exact ⟨s, hr, h1, h2, h3, (words_read (hr.mono fun _ _ _ => trivial)).2.1 hr⟩

/-- Process 9 connects to a port with descriptor 3, as far as the swap if it takes port 1, -/
def connects (port : ℕ) : List Step :=
  [.connect 2 9 3 port, .exec 2 true, .exec 2 true, .exec 2 true]

/-- and from the swap to its end. -/
def returns : List Step := [.exec 2 true, .exec 2 true, .exec 2 true]

/-- With descriptor 0 the word at port 1 is 7, and process 9 connects to process 7, which has
bound nothing. The word of a descriptor that process 5 has closed stays at port 80, and
process 9 connects there too. -/
theorem words_misread :
    (∃ s s', machine.Reachable Any s ∧ s.wrote 1 = .getFreePort 7 0 ∧
      reading (u32 (s.calls.table 1)) = .listening 7 ∧ s.calls.call 2 = .swap ⟨9, 3, 1, 7, 2⟩ ∧
      machine.run s returns = some s' ∧ s'.calls.call 2 = .connectDone ⟨9, 3, 1, 7, 2⟩ 0) ∧
    (∃ s s', machine.Reachable Any s ∧ s.bound = [] ∧
      s.calls.call 2 = .swap ⟨9, 3, 80, 5, 1⟩ ∧ machine.run s returns = some s' ∧
      s'.calls.call 2 = .connectDone ⟨9, 3, 80, 5, 1⟩ 0) ∧
    ¬(∀ s, machine.Reachable Any s → ReadRight s) := by
  have hrun : machine.run State.start (claims 0 ++ connects 1 ++ [.exec 2 true]) =
    some _ := rfl
  have hclosed : machine.run State.start
      ([.bind 0 5 4 80, .exec 0 true, .exec 0 true, .close 5 4] ++ connects 80) = some _ := rfl
  have hreach : machine.Reachable Any _ := (Reachable.init rfl).steps
    (steps_of_run hrun fun _ _ _ => trivial)
  have hreach' : machine.Reachable Any _ := (Reachable.init rfl).steps
    (steps_of_run hclosed fun _ _ _ => trivial)
  refine ⟨⟨_, _, hreach, rfl, rfl, rfl, rfl, rfl⟩, ⟨_, _, hreach', rfl, rfl, rfl, rfl⟩,
    fun hall => ?_⟩
  have hbound := ((hall _ hreach).swaps 2 ⟨9, 3, 1, 7, 2⟩ rfl rfl).1
  cases hbound

end ShmSocket.PortTable.Words
