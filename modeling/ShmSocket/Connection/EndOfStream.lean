import ShmSocket.RingBuffer.Stream

/-! The receiving end of a connection while its peer sends and closes: `recvfrom` with its
loads of the peer's port word, and the peer's `rb_write` calls and `close`, one load, store
or swap at a time on one ring. -/
namespace ShmSocket.Receiving
open StepMachine
open RingBuffer (Ret OneToOne Stream)

/-- The thread that sends and closes. -/
abbrev peer : RingBuffer.Tid := 0

abbrev receiver : RingBuffer.Tid := 1

/-- Where a `recvfrom` call stands: in an `rb_read` of its loop, at `read_port_table`, or
in the `rb_read` after the port word was 0. -/
inductive Pc where
  | idle
  | read (len : ℕ)
  | readPortTable (len : ℕ)
  | lastRead
  deriving DecidableEq

structure Sys where
  ring : RingBuffer.Sys
  /-- The entry of the peer's port in the port table. -/
  port : ℤ
  /-- The peer has zeroed its port. -/
  closed : Bool
  pc : Pc
  /-- What the ring's reads returned before the first of the `recvfrom` calls. -/
  before : List Byte
  /-- What the `recvfrom` calls returned, in their order. -/
  results : List (List Byte)

/-- The peer calls `send`, takes a step of its `rb_write`, or zeroes its port in `close`;
the receiver calls `recvfrom` or takes a step of it; another process stores to the port.
`input` is the buffer of `send` up to the `int` that its length converts to. -/
inductive Act where
  | send (input : List Byte)
  | write
  | close
  | recvfrom (len : ℕ)
  | receive
  | store (v : ℤ)

namespace Sys

def ret (x : Sys) (bytes : List Byte) : Sys :=
  { x with pc := .idle, results := x.results ++ [bytes] }

/-- `rb_read` has returned to `recvfrom`. -/
def readReturned (x : Sys) (bytes : List Byte) : Sys :=
  match x.pc with
  | .read len => if bytes = [] then { x with pc := .readPortTable len } else x.ret bytes
  | _ => x.ret bytes

end Sys

/-- What the call that ended last returned to its reader. -/
def lastRead (s : RingBuffer.Sys) : List Byte := (s.log.getLast?.map Ret.read).getD []

def Sys.step (x : Sys) : Act → Option Sys
  | .send input =>
      if x.closed then none
      else (x.ring.step (.write peer input)).map fun s => { x with ring := s }
  | .write => (x.ring.step (.exec peer)).map fun s => { x with ring := s }
  | .close =>
      match x.ring.thread peer with
      | .idle => if x.closed then none else some { x with port := 0, closed := true }
      | _ => none
  | .recvfrom len =>
      match x.pc with
      | .idle =>
          (x.ring.step (.read receiver len)).map fun s => { x with ring := s, pc := .read len }
      | _ => none
  | .receive =>
      match x.pc with
      | .idle => none
      | .readPortTable len =>
          (x.ring.step (.read receiver len)).map fun s =>
            { x with ring := s, pc := if x.port = 0 then .lastRead else .read len }
      | .read _ | .lastRead =>
          (x.ring.step (.exec receiver)).map fun s =>
            match s.thread receiver with
            | .idle => { x with ring := s }.readReturned (lastRead s)
            | _ => { x with ring := s }
  | .store v => some { x with port := v }

/-- The receiver starts on a ring that the two threads may have used before, and the
peer's port is taken. -/
def machine : StepMachine Sys Act where
  init x := RingBuffer.machine.Reachable (OneToOne peer receiver) x.ring ∧
    x.ring.thread peer = .idle ∧ x.ring.thread receiver = .idle ∧ x.port ≠ 0 ∧
    x.closed = false ∧ x.pc = .idle ∧ x.before = x.ring.returned ∧ x.results = []
  step := Sys.step

/-- `recvfrom` asks for at least one byte and less than an `int` holds, and no other
process zeroes the peer's port. -/
def Allowed (_ : Sys) : Act → Prop
  | .recvfrom len => 0 < len ∧ len < 2 ^ 31
  | .store v => v ≠ 0
  | _ => True

/-- A step of one `rb_read` call. It goes on, or it returns `g` and `bytes` to its thread. -/
theorem read_step {s s' : RingBuffer.Sys} {t : RingBuffer.Tid} {pc : RingBuffer.ReadPc}
    {f : RingBuffer.ReadFrame} (ht : s.thread t = .reading pc f)
    (hs : s.step (.exec t) = some s') :
    (∃ pc' g, s'.thread = Function.update s.thread t (.reading pc' g) ∧ s'.log = s.log ∧
      g.req = f.req) ∨
    ∃ g bytes, s'.thread = Function.update s.thread t .idle ∧ s'.log = s.log ++ [.got g bytes] ∧
      g.req = f.req ∧
      (pc = .loadOldtail ∧ g.headAt = f.headAt ∧ g.tailAt = s.published ∨
        pc = .casHead ∧ bytes = f.out) := by
  simp only [RingBuffer.Sys.step, ht] at hs
  cases hs
  cases pc with
  | loadHead => exact .inl ⟨_, _, rfl, rfl, rfl⟩
  | loadOldtail =>
    simp only [RingBuffer.Sys.stepRead]
    split_ifs
    · exact .inr ⟨_, _, rfl, rfl, rfl, .inl ⟨trivial, rfl, rfl⟩⟩
    · exact .inl ⟨_, _, rfl, rfl, rfl⟩
  | copy =>
    simp only [RingBuffer.Sys.stepRead]
    split_ifs
    · exact .inl ⟨_, _, rfl, rfl, rfl⟩
    · exact .inl ⟨_, _, rfl, rfl, rfl⟩
  | casHead =>
    simp only [RingBuffer.Sys.stepRead]
    split_ifs
    · exact .inr ⟨_, _, rfl, rfl, rfl, .inr ⟨trivial, rfl⟩⟩
    · exact .inl ⟨_, _, rfl, rfl, rfl⟩

/-- An empty read has found every published byte consumed. -/
theorem read_empty {s s' : RingBuffer.Sys} {w r : RingBuffer.Tid}
    (h : Stream w r s) (h' : Stream w r s') {pc : RingBuffer.ReadPc} {f g : RingBuffer.ReadFrame}
    (ht : s.thread r = .reading pc f) (hreq : 0 < g.req) (hlog : s'.log = s.log ++ [.got g []])
    (hfound : pc = .loadOldtail ∧ g.headAt = f.headAt ∧ g.tailAt = s.published ∨
      pc = .casHead ∧ [] = f.out) : s.delivered.length = s.published := by
  have hcur := h.reader r pc f ht
  have hok : RingBuffer.ThreadOk s (s.thread r) := h.inv.threads r
  rw [ht] at hok
  rcases hfound with ⟨rfl, hhead, htail⟩ | ⟨rfl, hout⟩
  · have hmem : Ret.got g [] ∈ s'.log := by simp [hlog]
    obtain ⟨hlen, hocc⟩ := h'.got hmem
    have hhere : f.headAt = s.delivered.length := hcur.2.2
    have hconsumed := h.inv.consumed
    rw [List.length_nil, hocc, hhead, htail, hhere] at hlen
    omega
  · obtain ⟨-, hlen, hpos, -⟩ := hok
    rw [← hout, List.length_nil] at hlen
    omega

theorem Logs.returned {s s' : RingBuffer.Sys} {rs : List Ret} (h : RingBuffer.Logs s s' rs)
    (hnone : rs.flatMap Ret.read = []) : s'.returned = s.returned := by
  rw [RingBuffer.Sys.returned, h.log, List.flatMap_append, hnone, List.append_nil]
  rfl

/-- A step of the peer's `rb_write` leaves the receiver alone. -/
theorem write_step {s s' : RingBuffer.Sys} (h : Stream peer receiver s)
    (hs : s.step (.exec peer) = some s') :
    s'.thread receiver = s.thread receiver ∧ s'.returned = s.returned := by
  have hnoread : ∀ pc f, s.thread peer ≠ .reading pc f := fun pc f ht =>
    absurd (h.reader peer pc f ht).1 (by decide)
  constructor
  · cases RingBuffer.step_cases hs with
    | @writing _ pc f ht =>
      obtain ⟨th, hth, -, -⟩ := RingBuffer.stepWrite_thread s peer pc f ht
      rw [hth]
      exact Function.update_of_ne (by decide) _ _
    | reading ht => exact absurd ht (hnoread _ _)
  · rcases RingBuffer.step_logs hs with hl | ⟨t, ret, he, hret, hl⟩
    · exact Logs.returned hl rfl
    · cases he
      cases hret with
      | full => exact Logs.returned hl rfl
      | wrote => exact Logs.returned hl rfl
      | empty ht => exact absurd ht (hnoread _ _)
      | got ht => exact absurd ht (hnoread _ _)

/-- Once every published byte is consumed, the reads have returned what the writes accepted. -/
theorem returned_all {s : RingBuffer.Sys}
    (h : RingBuffer.machine.Reachable (OneToOne peer receiver) s)
    (hall : s.delivered.length = s.published) : s.returned = s.written := by
  have hst := Stream.of_reachable h
  have hwritten : s.written = s.accepted.take s.published := hst.written
  rw [RingBuffer.returned_eq h, hwritten, ← hall]
  exact List.prefix_iff_eq_take.mp hst.inv.stream

/-- The receiver's thread is in an `rb_read` that asks for at least one byte. -/
def Asks (s : RingBuffer.Sys) : Prop := ∃ pc f, s.thread receiver = .reading pc f ∧ 0 < f.req

def CallOk (x : Sys) : Pc → Prop
  | .idle => x.ring.thread receiver = .idle
  | .readPortTable len => x.ring.thread receiver = .idle ∧ 0 < len
  | .read len => Asks x.ring ∧ 0 < len
  | .lastRead => Asks x.ring ∧ x.closed = true

/-- When a call returned 0 the peer had closed, and the calls before it had returned every
byte that the peer's sends accepted. -/
def Ended (x : Sys) : Prop := ∀ pre post, x.results = pre ++ [] :: post →
  x.closed = true ∧ x.before ++ pre.flatten = x.ring.written

structure Inv (x : Sys) : Prop where
  reach : RingBuffer.machine.Reachable (OneToOne peer receiver) x.ring
  returned : x.ring.returned = x.before ++ x.results.flatten
  call : CallOk x x.pc
  quiet : x.closed = true → x.ring.thread peer = .idle
  zero : x.port = 0 → x.closed = true
  ended : Ended x

variable {x x' : Sys} {s : RingBuffer.Sys} {len : ℕ}

theorem Inv.start (h : machine.init x) : Inv x := by
  obtain ⟨hreach, hw, hr, hport, -, hpc, hbefore, hresults⟩ := h
  refine ⟨hreach, ?_, ?_, fun _ => hw, fun h0 => absurd h0 hport, ?_⟩
  · rw [hresults, hbefore, List.flatten_nil, List.append_nil]
  · rw [hpc]
    exact hr
  · intro pre post he
    rw [hresults] at he
    exact absurd he.symm (List.append_ne_nil_of_right_ne_nil _ (List.cons_ne_nil _ _))

theorem CallOk.congr {pc : Pc} (h : CallOk x pc)
    (ht : x'.ring.thread receiver = x.ring.thread receiver)
    (hc : x.closed = true → x'.closed = true) : CallOk x' pc := by
  cases pc with
  | idle => exact ht.trans h
  | read len => exact ⟨by simpa only [Asks, ht] using h.1, h.2⟩
  | readPortTable len => exact ⟨ht.trans h.1, h.2⟩
  | lastRead => exact ⟨by simpa only [Asks, ht] using h.1, hc h.2⟩

/-- Before the close no call has returned 0. -/
theorem Ended.of_open (h : Ended x) (hopen : x.closed ≠ true) (hr : x'.results = x.results) :
    Ended x' := by
  intro pre post he
  exact absurd (h pre post (hr ▸ he)).1 hopen

namespace Inv

theorem send {input : List Byte} (h : Inv x) (hopen : x.closed ≠ true)
    (hs : x.ring.step (.write peer input) = some s) : Inv { x with ring := s } := by
  have hreach := h.reach.step (a := RingBuffer.Act.write peer input) ⟨rfl, trivial⟩ hs
  cases RingBuffer.step_cases hs
  refine ⟨hreach, h.returned, h.call.congr ?_ id, fun hc => absurd hc hopen, h.zero,
    h.ended.of_open hopen rfl⟩
  simp [RingBuffer.Sys.setThread]

theorem write (h : Inv x) (hs : x.ring.step (.exec peer) = some s) :
    Inv { x with ring := s } := by
  have hreach := h.reach.step (a := RingBuffer.Act.exec peer) ⟨trivial, trivial⟩ hs
  obtain ⟨ht, hr⟩ := write_step (.of_reachable h.reach) hs
  have hopen : x.closed ≠ true := by
    intro hc
    simp [RingBuffer.Sys.step, h.quiet hc] at hs
  exact ⟨hreach, hr.trans h.returned, h.call.congr ht id, fun hc => absurd hc hopen, h.zero,
    h.ended.of_open hopen rfl⟩

theorem close (h : Inv x) (ht : x.ring.thread peer = .idle) (hopen : x.closed ≠ true) :
    Inv { x with port := 0, closed := true } :=
  ⟨h.reach, h.returned, h.call.congr rfl fun _ => rfl, fun _ => ht, fun _ => rfl,
    h.ended.of_open hopen rfl⟩

theorem store {v : ℤ} (h : Inv x) (hv : v ≠ 0) : Inv { x with port := v } :=
  ⟨h.reach, h.returned, h.call.congr rfl id, h.quiet, fun h0 => absurd h0 hv, h.ended⟩

/-- `recvfrom` calls `rb_read`. -/
theorem call_read {pc : Pc} (h : Inv x) (hlen : 0 < len)
    (hs : x.ring.step (.read receiver len) = some s)
    (hpc : pc = .read len ∨ pc = .lastRead ∧ x.closed = true) :
    Inv { x with ring := s, pc := pc } := by
  have hreach := h.reach.step (a := RingBuffer.Act.read receiver len) ⟨trivial, rfl⟩ hs
  cases RingBuffer.step_cases hs
  have hasks : Asks (x.ring.setThread receiver
      (.reading .loadHead ⟨len, len, 0, 0, [], 0, 0⟩)) := by
    simpa [Asks, RingBuffer.Sys.setThread] using hlen
  refine ⟨hreach, h.returned, ?_, fun hc => ?_, h.zero, h.ended⟩
  · rcases hpc with rfl | ⟨rfl, hc⟩
    · exact ⟨hasks, hlen⟩
    · exact ⟨hasks, hc⟩
  · simpa [RingBuffer.Sys.setThread] using h.quiet hc

/-- A `recvfrom` call returns `bytes`, empty only if everything has been returned. -/
theorem ret {bytes : List Byte} (h : Inv x)
    (hreach : RingBuffer.machine.Reachable (OneToOne peer receiver) s)
    (ht : s.thread receiver = .idle) (hw : s.thread peer = x.ring.thread peer)
    (hreturned : s.returned = x.ring.returned ++ bytes) (hwritten : s.written = x.ring.written)
    (hempty : bytes = [] → x.closed = true ∧ x.ring.returned = x.ring.written) :
    Inv ({ x with ring := s }.ret bytes) := by
  refine ⟨hreach, ?_, ht, fun hc => hw.trans (h.quiet hc), h.zero, ?_⟩
  · change s.returned = x.before ++ (x.results ++ [bytes]).flatten
    rw [hreturned, h.returned, List.flatten_append, List.append_assoc]
    simp
  · intro pre post he
    change x.closed = true ∧ x.before ++ pre.flatten = s.written
    change x.results ++ [bytes] = pre ++ [] :: post at he
    rw [hwritten]
    rcases List.eq_nil_or_concat post with rfl | ⟨post, last, rfl⟩
    · obtain ⟨rfl, hb⟩ := List.append_inj' he rfl
      obtain ⟨hc, hall⟩ := hempty (List.cons.inj hb).1
      exact ⟨hc, h.returned ▸ hall⟩
    · rw [List.concat_eq_append, ← List.cons_append, ← List.append_assoc] at he
      exact h.ended pre post (List.append_inj' he rfl).1

/-- `recvfrom` takes a step of its `rb_read`. -/
theorem read (h : Inv x) (hpc : (∃ len, x.pc = .read len) ∨ x.pc = .lastRead)
    (hs : x.ring.step (.exec receiver) = some s) :
    Inv (match s.thread receiver with
      | .idle => { x with ring := s }.readReturned (lastRead s)
      | _ => { x with ring := s }) := by
  have hreach := h.reach.step (a := RingBuffer.Act.exec receiver) ⟨trivial, trivial⟩ hs
  obtain ⟨pc, f, ht, hreq⟩ : Asks x.ring := by
    have hcall := h.call
    rcases hpc with ⟨len, hpc⟩ | hpc
    · rw [hpc] at hcall
      exact hcall.1
    · rw [hpc] at hcall
      exact hcall.1
  rcases read_step ht hs with ⟨pc', g, hth, hlog, hg⟩ | ⟨g, bytes, hth, hlog, hg, hfound⟩
  · have hr : s.thread receiver = .reading pc' g := by rw [hth, Function.update_self]
    have hw : s.thread peer = x.ring.thread peer := by
      rw [hth, Function.update_of_ne (show peer ≠ receiver by decide)]
    have hasks : Asks s := ⟨pc', g, hr, hg ▸ hreq⟩
    have hcall : CallOk { x with ring := s } x.pc := by
      have hcall := h.call
      rcases hpc with ⟨len, hpc⟩ | hpc
      · rw [hpc] at hcall ⊢
        exact ⟨hasks, hcall.2⟩
      · rw [hpc] at hcall ⊢
        exact ⟨hasks, hcall.2⟩
    simp only [hr]
    refine ⟨hreach, ?_, hcall, fun hc => hw.trans (h.quiet hc), h.zero, ?_⟩
    · change s.returned = _
      rw [RingBuffer.Sys.returned, hlog]
      exact h.returned
    · intro pre post he
      change _ ∧ _ = s.written
      rw [RingBuffer.Sys.written, hlog]
      exact h.ended pre post he
  · have hr : s.thread receiver = .idle := by rw [hth, Function.update_self]
    have hw : s.thread peer = x.ring.thread peer := by
      rw [hth, Function.update_of_ne (show peer ≠ receiver by decide)]
    have hreturned : s.returned = x.ring.returned ++ bytes := by
      simp [RingBuffer.Sys.returned, hlog, Ret.read]
    have hwritten : s.written = x.ring.written := by
      simp [RingBuffer.Sys.written, hlog, Ret.written]
    have hlast : lastRead s = bytes := by simp [lastRead, hlog, Ret.read]
    have hall : bytes = [] → x.ring.returned = x.ring.written := by
      rintro rfl
      exact returned_all h.reach
        (read_empty (.of_reachable h.reach) (.of_reachable hreach) ht (hg ▸ hreq) hlog hfound)
    have hcall := h.call
    simp only [hr, hlast, Sys.readReturned]
    rcases hpc with ⟨len, hpc⟩ | hpc
    · rw [hpc] at hcall ⊢
      split_ifs with hb
      · refine ⟨hreach, ?_, ⟨hr, hcall.2⟩, fun hc => hw.trans (h.quiet hc), h.zero, ?_⟩
        · change s.returned = _
          rw [hreturned, hb, List.append_nil]
          exact h.returned
        · intro pre post he
          change _ ∧ _ = s.written
          rw [hwritten]
          exact h.ended pre post he
      · exact h.ret hreach hr hw hreturned hwritten fun hnil => absurd hnil hb
    · rw [hpc] at hcall ⊢
      exact h.ret hreach hr hw hreturned hwritten fun hnil => ⟨hcall.2, hall hnil⟩

theorem step {a : Act} (h : Inv x) (ha : Allowed x a) (hs : x.step a = some x') : Inv x' := by
  cases a with
  | send input =>
    simp only [Sys.step] at hs
    split at hs
    · cases hs
    · next hopen =>
      obtain ⟨s, hring, rfl⟩ := Option.map_eq_some_iff.mp hs
      exact h.send hopen hring
  | write =>
    obtain ⟨s, hring, rfl⟩ := Option.map_eq_some_iff.mp hs
    exact h.write hring
  | close =>
    simp only [Sys.step] at hs
    split at hs
    · next ht =>
      split at hs
      · cases hs
      · next hopen =>
        cases hs
        exact h.close ht hopen
    · cases hs
  | recvfrom len =>
    simp only [Sys.step] at hs
    split at hs
    · obtain ⟨s, hring, rfl⟩ := Option.map_eq_some_iff.mp hs
      exact h.call_read ha.1 hring (.inl rfl)
    · cases hs
  | receive =>
    simp only [Sys.step] at hs
    split at hs
    · cases hs
    · next len hpc =>
      obtain ⟨s, hring, rfl⟩ := Option.map_eq_some_iff.mp hs
      have hcall := h.call
      rw [hpc] at hcall
      refine h.call_read hcall.2 hring ?_
      split_ifs with hport
      · exact .inr ⟨rfl, h.zero hport⟩
      · exact .inl rfl
    · next len hpc =>
      obtain ⟨s, hring, rfl⟩ := Option.map_eq_some_iff.mp hs
      exact h.read (.inl ⟨len, hpc⟩) hring
    · next hpc =>
      obtain ⟨s, hring, rfl⟩ := Option.map_eq_some_iff.mp hs
      exact h.read (.inr hpc) hring
  | store v =>
    cases hs
    exact h.store ha

end Inv

/-- If a `recvfrom` call has returned 0, the peer has closed, and the calls before it have
returned every byte that the peer's sends accepted. -/
theorem end_of_stream {x : Sys} (h : machine.Reachable Allowed x) {pre post : List (List Byte)}
    (hzero : x.results = pre ++ [] :: post) :
    x.closed = true ∧ x.before ++ pre.flatten = x.ring.written :=
  (h.invariant (fun _ => Inv.start) fun _ _ _ hi ha hs => hi.step ha hs).ended pre post hzero

/-- A byte is sent; the second call finds the ring empty before the close and the port 0
after it. -/
def oneByte : List Act :=
  [Act.send [7], Act.recvfrom 1] ++ List.replicate 6 Act.write ++ List.replicate 4 Act.receive ++
    [Act.recvfrom 1, Act.receive, Act.receive, Act.close] ++ List.replicate 3 Act.receive

theorem end_of_stream_oneByte : ∃ x : Sys, x.results = [[7], []] ∧
    x.closed = true ∧ x.before ++ [[7]].flatten = x.ring.written := by
  have h0 : machine.Reachable Allowed
      ⟨RingBuffer.Sys.start fun _ => 0, 7, false, .idle, [], []⟩ :=
    .init ⟨.init ⟨_, rfl⟩, rfl, rfl, by decide, rfl, rfl, rfl, rfl⟩
  obtain ⟨x, hx, hr⟩ := h0.run (l := oneByte) (P := fun x : Sys => decide (x.results = [[7], []]))
    (by simp [oneByte, Allowed]) (by decide +kernel)
  have hresults : x.results = [[7]] ++ [] :: [] := of_decide_eq_true hr
  exact ⟨x, hresults, end_of_stream hx hresults⟩

end ShmSocket.Receiving
