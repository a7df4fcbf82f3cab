import ShmSocket.Connection.EndOfStream
import ShmSocket.RingBuffer.Progress

/-! When a `recvfrom` call returns: it goes round its loop while the ring has no byte for it
and the peer's port is taken, and it does not stay in the loop once one of the two ends. -/
namespace ShmSocket.Receiving
open StepMachine
open RingBuffer (OneToOne Stream work)
variable {x x' : Sys} {s s' : RingBuffer.Sys} {a : Act} {results : List (List Byte)}

/-- The ring holds a published byte that no read has consumed. -/
def Unread (s : RingBuffer.Sys) : Prop := s.delivered.length < s.published

instance : Decidable (Unread s) := inferInstanceAs (Decidable (_ < _))

theorem Unread.mono (h : Unread s) (hd : s'.delivered = s.delivered)
    (hp : s.published ≤ s'.published) : Unread s' := by
  unfold Unread at h ⊢
  rw [hd]
  omega

theorem published_le {b : RingBuffer.Act} (hs : s.step b = some s') :
    s.published ≤ s'.published := by
  rcases RingBuffer.step_logs hs with hl | ⟨_, _, _, _, hl⟩
  · exact hl.published ▸ Nat.le_add_right _ _
  · exact hl.published ▸ Nat.le_add_right _ _

/-- The rest of a read depends on its thread and on `head`. -/
theorem work_congr (hr : ∀ pc f, s.thread receiver ≠ .writing pc f)
    (ht : s'.thread receiver = s.thread receiver) (hhead : s'.ring.head = s.ring.head) :
    work {receiver} s' = work {receiver} s := by
  unfold work
  simp only [Finset.sum_singleton, ht, hhead]
  cases hth : s.thread receiver with
  | idle => rfl
  | writing pc f => exact absurd hth (hr pc f)
  | reading pc f => cases pc <;> rfl

/-- A read that returns a byte has found a published one. -/
theorem unread_of_read {pc : RingBuffer.ReadPc} {f g : RingBuffer.ReadFrame} {bytes : List Byte}
    (h : Stream peer receiver s) (h' : Stream peer receiver s')
    (ht : s.thread receiver = .reading pc f) (hlog : s'.log = s.log ++ [.got g bytes])
    (hfound : pc = .loadOldtail ∧ g.headAt = f.headAt ∧ g.tailAt = s.published ∨
      pc = .casHead ∧ bytes = f.out) (hne : bytes ≠ []) : Unread s := by
  have hcur := h.reader receiver pc f ht
  have hok : RingBuffer.ThreadOk s (s.thread receiver) := h.inv.threads receiver
  rw [ht] at hok
  have hpos := List.length_pos_of_ne_nil hne
  unfold Unread
  rcases hfound with ⟨rfl, hhead, htail⟩ | ⟨rfl, -⟩
  · have hmem : RingBuffer.Ret.got g bytes ∈ s'.log := by simp [hlog]
    obtain ⟨hlen, hocc⟩ := h'.got hmem
    have hhere : f.headAt = s.delivered.length := hcur.2.2
    rw [hocc, hhead, htail, hhere] at hlen
    omega
  · have hhere : f.headAt = s.delivered.length := hcur.2.1
    obtain ⟨-, -, hlen, hreads⟩ := hok
    have hpub := (hreads hhere).published
    omega

/-- All that a step of a `recvfrom` call can be. -/
inductive Received (x : Sys) : Sys → Prop
  | port {len : ℕ} {s : RingBuffer.Sys} (hpc : x.pc = .readPortTable len)
      (hd : s.delivered = x.ring.delivered) (hp : s.published = x.ring.published) :
      Received x { x with ring := s, pc := if x.port = 0 then .lastRead else .read len }
  | on {s : RingBuffer.Sys} (hd : s.delivered = x.ring.delivered)
      (hp : s.published = x.ring.published)
      (hlt : work {receiver} s < work {receiver} x.ring) : Received x { x with ring := s }
  | empty {len : ℕ} {s : RingBuffer.Sys} (hpc : x.pc = .read len) (hnone : ¬ Unread x.ring) :
      Received x { x with ring := s, pc := .readPortTable len }
  | ret {s : RingBuffer.Sys} {bytes : List Byte} (hdue : x.pc = .lastRead ∨ Unread x.ring) :
      Received x ({ x with ring := s }.ret bytes)

/-- A step of the `rb_read` of a `recvfrom` call. -/
theorem received_read (h : Inv x) (hasks : Asks x.ring)
    (hpc : (∃ len, x.pc = .read len) ∨ x.pc = .lastRead)
    (hs : x.ring.step (.exec receiver) = some s) :
    Received x (match s.thread receiver with
      | .idle => { x with ring := s }.readReturned (lastRead s)
      | _ => { x with ring := s }) := by
  have hreach := h.reach.step (a := RingBuffer.Act.exec receiver) ⟨trivial, trivial⟩ hs
  have hst := Stream.of_reachable h.reach
  have hst' := Stream.of_reachable hreach
  obtain ⟨pc, f, ht, hreq⟩ := hasks
  rcases read_step ht hs with ⟨pc', g, hth, hlog, -⟩ | ⟨g, bytes, hth, hlog, hg, hfound⟩
  · have hr : s.thread receiver = .reading pc' g := by rw [hth, Function.update_self]
    have hd : s.delivered = x.ring.delivered := by
      rw [← RingBuffer.returned_eq hreach, ← RingBuffer.returned_eq h.reach]
      simp only [RingBuffer.Sys.returned, hlog]
    have hp : s.published = x.ring.published := by
      cases RingBuffer.step_cases hs with
      | writing hw => simp [ht] at hw
      | reading =>
        obtain ⟨-, -, -, -, hp⟩ := RingBuffer.stepRead_thread x.ring receiver _ _
        exact hp
    have hlt : work {receiver} s < work {receiver} x.ring := by
      rcases RingBuffer.work_exec (Finset.mem_singleton_self receiver) hs with ⟨-, f', hf, -⟩ | hlt
      · simp [ht] at hf
      · exact hlt
    simp only [hr]
    exact .on hd hp hlt
  · have hr : s.thread receiver = .idle := by rw [hth, Function.update_self]
    have hlast : lastRead s = bytes := by simp [lastRead, hlog, RingBuffer.Ret.read]
    have hunread : bytes ≠ [] → Unread x.ring := unread_of_read hst hst' ht hlog hfound
    simp only [hr, hlast, Sys.readReturned]
    rcases hpc with ⟨len, hpc⟩ | hpc
    · rw [hpc]
      split_ifs with hb
      · subst hb
        refine .empty hpc ?_
        have hall := read_empty hst hst' ht (hg ▸ hreq) hlog hfound
        unfold Unread
        omega
      · exact .ret (.inr (hunread hb))
    · rw [hpc]
      exact .ret (.inl hpc)

theorem receive_cases (h : Inv x) (hs : x.step .receive = some x') : Received x x' := by
  have hcall := h.call
  simp only [Sys.step] at hs
  split at hs
  · cases hs
  · next len hpc =>
    obtain ⟨s, hring, rfl⟩ := Option.map_eq_some_iff.mp hs
    cases RingBuffer.step_cases hring
    exact .port hpc rfl rfl
  · next len hpc =>
    obtain ⟨s, hring, rfl⟩ := Option.map_eq_some_iff.mp hs
    rw [hpc] at hcall
    exact received_read h hcall.1 (.inl ⟨len, hpc⟩) hring
  · next hpc =>
    obtain ⟨s, hring, rfl⟩ := Option.map_eq_some_iff.mp hs
    rw [hpc] at hcall
    exact received_read h hcall.1 (.inr hpc) hring

/-- A `recvfrom` call can always step. -/
theorem exists_receive (h : Inv x) (hbusy : x.pc ≠ .idle) : ∃ x', x.step .receive = some x' := by
  have hcall := h.call
  have hread : Asks x.ring → ∃ s, x.ring.step (.exec receiver) = some s := by
    rintro ⟨pc, f, ht, -⟩
    exact RingBuffer.exec_of_busy (by simp [ht])
  cases hpc : x.pc with
  | idle => exact absurd hpc hbusy
  | readPortTable len =>
    rw [hpc] at hcall
    simp [Sys.step, hpc, RingBuffer.Sys.step, hcall.1]
  | read len =>
    rw [hpc] at hcall
    obtain ⟨s, hs⟩ := hread hcall.1
    simp [Sys.step, hpc, hs]
  | lastRead =>
    rw [hpc] at hcall
    obtain ⟨s, hs⟩ := hread hcall.1
    simp [Sys.step, hpc, hs]

/-- What the steps of the others do to a `recvfrom` call. -/
structure Aside (x x' : Sys) : Prop where
  pc : x'.pc = x.pc
  results : x'.results = x.results
  thread : x'.ring.thread receiver = x.ring.thread receiver
  delivered : x'.ring.delivered = x.ring.delivered
  published : x.ring.published ≤ x'.ring.published

theorem aside_of_step (h : Inv x) (h' : Inv x') (hbusy : x.pc ≠ .idle) (ha : a ≠ .receive)
    (hs : x.step a = some x') : Aside x x' := by
  cases a with
  | send input =>
    simp only [Sys.step] at hs
    split at hs
    · cases hs
    · obtain ⟨s, hring, rfl⟩ := Option.map_eq_some_iff.mp hs
      cases RingBuffer.step_cases hring
      refine ⟨rfl, rfl, ?_, rfl, le_rfl⟩
      simp [RingBuffer.Sys.setThread]
  | write =>
    obtain ⟨s, hring, rfl⟩ := Option.map_eq_some_iff.mp hs
    obtain ⟨ht, hr⟩ := write_step (.of_reachable h.reach) hring
    refine ⟨rfl, rfl, ht, ?_, published_le hring⟩
    rw [← RingBuffer.returned_eq h.reach, ← hr]
    exact (RingBuffer.returned_eq h'.reach).symm
  | close =>
    simp only [Sys.step] at hs
    split at hs
    · split at hs
      · cases hs
      · cases hs
        exact ⟨rfl, rfl, rfl, rfl, le_rfl⟩
    · cases hs
  | recvfrom len =>
    cases hpc : x.pc with
    | idle => exact absurd hpc hbusy
    | _ => simp [Sys.step, hpc] at hs
  | receive => exact absurd rfl ha
  | store v =>
    cases hs
    exact ⟨rfl, rfl, rfl, rfl, le_rfl⟩

/-- The part of the loop a call has before it: an empty read, a load of the port word, a
read that ends it. -/
def phase (s : RingBuffer.Sys) : Pc → ℕ
  | .read _ => if Unread s then 0 else 2
  | .readPortTable _ => 1
  | _ => 0

def rank (x : Sys) : ℕ ×ₗ (ℕ ×ₗ ℕ) := toLex (phase x.ring x.pc, work {receiver} x.ring)

theorem phase_le (pc : Pc) (hd : s'.delivered = s.delivered) (hp : s.published ≤ s'.published) :
    phase s' pc ≤ phase s pc := by
  cases pc with
  | read len =>
    by_cases hu : Unread s
    · simp [phase, hu.mono hd hp]
    · simp only [phase, if_neg hu]
      split_ifs <;> omega
  | _ => exact le_rfl

theorem Aside.rank_le (h : Inv x) (h' : Inv x') (hx : Aside x x') : rank x' ≤ rank x := by
  have hwork : work {receiver} x'.ring = work {receiver} x.ring := by
    refine work_congr (fun pc f ht => ?_) hx.thread ?_
    · exact absurd ((Stream.of_reachable h.reach).writer.1 receiver pc f ht) (by decide)
    · rw [(Stream.of_reachable h.reach).inv.head, (Stream.of_reachable h'.reach).inv.head,
        hx.delivered]
  unfold rank
  rw [hwork, hx.pc]
  exact Prod.Lex.toLex_mono ⟨phase_le x.pc hx.delivered hx.published, le_rfl⟩

/-- Once a byte is unread or the port is 0, each step of the call brings it nearer to its
return. -/
theorem Received.rank_lt (hx : Received x x') (hdue : Unread x.ring ∨ x.port = 0) :
    x.results.length < x'.results.length ∨ rank x' < rank x := by
  cases hx with
  | @port len s hpc hd hp =>
    right
    apply Prod.Lex.left
    rw [hpc]
    by_cases hport : x.port = 0
    · simp [phase, hport]
    · have hu : Unread s := (hdue.resolve_right hport).mono hd hp.ge
      simp [phase, hport, hu]
  | @on s hd hp hlt =>
    right
    have hphase : phase s x.pc = phase x.ring x.pc :=
      le_antisymm (phase_le x.pc hd hp.ge) (phase_le x.pc hd.symm hp.le)
    unfold rank
    rw [hphase]
    exact Prod.Lex.right _ hlt
  | empty hpc hnone =>
    right
    apply Prod.Lex.left
    simp [phase, hpc, hnone]
  | ret => exact .inl (by simp [Sys.ret])

/-- A call that has not returned since `results` were the results. -/
structure Awaits (results : List (List Byte)) (x : Sys) : Prop where
  inv : Inv x
  busy : x.pc ≠ .idle
  same : x.results = results

theorem Received.awaits (hx : Received x x') (h : Awaits results x) (h' : Inv x') :
    results.length < x'.results.length ∨ Awaits results x' := by
  cases hx with
  | port =>
    refine .inr ⟨h', ?_, h.same⟩
    dsimp only
    split_ifs <;> simp
  | on => exact .inr ⟨h', h.busy, h.same⟩
  | empty => exact .inr ⟨h', by simp, h.same⟩
  | ret => exact .inl (by simp [Sys.ret, h.same])

theorem Awaits.step (h : Awaits results x) (ha : Allowed x a) (hs : x.step a = some x') :
    results.length < x'.results.length ∨ Awaits results x' := by
  have h' := h.inv.step ha hs
  by_cases he : a = .receive
  · subst he
    exact (receive_cases h.inv hs).awaits h h'
  · have hx := aside_of_step h.inv h' h.busy he hs
    exact .inr ⟨h', hx.pc ▸ h.busy, hx.results.trans h.same⟩

/-- What ends the loop stays as long as the call does. -/
theorem Awaits.due (h : Awaits results x) (h' : Awaits results x') (hs : x.step a = some x')
    (hdue : Unread x.ring) : Unread x'.ring := by
  by_cases he : a = .receive
  · subst he
    have hsame := h'.same.trans h.same.symm
    cases receive_cases h.inv hs with
    | port hpc hd hp => exact hdue.mono hd hp.ge
    | on hd hp => exact hdue.mono hd hp.ge
    | empty hpc hnone => exact absurd hdue hnone
    | ret => simp [Sys.ret] at hsame
  · have hx := aside_of_step h.inv h'.inv h.busy he hs
    exact hdue.mono hx.delivered hx.published

/-- While a call awaits a byte or the port's zero, only these end its loop. -/
theorem Awaits.stays (h : Awaits results x) (ha : Allowed x a) (hs : x.step a = some x')
    (hnone : ¬ Unread x.ring) (hport : x.port ≠ 0) (hpc : x.pc ≠ .lastRead) :
    Awaits results x' ∧ x'.pc ≠ .lastRead := by
  have h' := h.inv.step ha hs
  by_cases he : a = .receive
  · subst he
    have hx := receive_cases h.inv hs
    have haw : Awaits results x' := by
      refine (hx.awaits h h').resolve_left fun hgrew => ?_
      cases hx with
      | port => simp [h.same] at hgrew
      | on => simp [h.same] at hgrew
      | empty => simp [h.same] at hgrew
      | ret hdue => exact hdue.elim hpc hnone
    refine ⟨haw, ?_⟩
    cases hx with
    | port => simp [hport]
    | on => exact hpc
    | empty => simp
    | ret hdue => exact absurd hdue (not_or.mpr ⟨hpc, hnone⟩)
  · have hx := aside_of_step h.inv h' h.busy he hs
    exact ⟨⟨h', hx.pc ▸ h.busy, hx.results.trans h.same⟩, hx.pc ▸ hpc⟩

/-- The call in progress at the start of the run has returned. -/
def Returned (R : machine.Run) (n : ℕ) : Prop :=
  (R.state 0).results.length < (R.state n).results.length

/-- A call that never returns stays in progress. -/
theorem awaits_of_never {R : machine.Run} (h : Awaits (R.state 0).results (R.state 0))
    (hC : R.Meets Allowed) {n : ℕ} (hnever : ∀ m ≤ n, ¬ Returned R m) :
    Awaits (R.state 0).results (R.state n) := by
  induction n with
  | zero => exact h
  | succ n ih =>
    have hn := ih fun m hm => hnever m (by omega)
    cases hs : machine.step (R.state n) (R.label n) with
    | none => exact Run.state_stay hs ▸ hn
    | some x =>
      have hx : R.state (n + 1) = x := Run.state_succ hs
      rw [hx]
      exact (hn.step (hC n) hs).resolve_left (hx ▸ hnever (n + 1) le_rfl)

/-- A byte that is there for a call that never returns stays there. -/
theorem unread_of_never {R : machine.Run} (haw : ∀ n, Awaits (R.state 0).results (R.state n))
    {n m : ℕ} (hnm : n ≤ m) (hn : Unread (R.state n).ring) : Unread (R.state m).ring := by
  induction m, hnm using Nat.le_induction with
  | base => exact hn
  | succ m _ ih =>
    cases hs : machine.step (R.state m) (R.label m) with
    | none => exact Run.state_stay hs ▸ ih
    | some x =>
      have hx : R.state (m + 1) = x := Run.state_succ hs
      rw [hx]
      exact (haw m).due (hx ▸ haw (m + 1)) hs ih

/-- The end of the loop is reached when the receiver is scheduled again and again. -/
theorem returns_of_due {R : machine.Run} (hC : R.Meets Allowed) (hfair : R.Fair {Act.receive})
    (h : ∀ n, Awaits results (R.state n) ∧ (Unread (R.state n).ring ∨ (R.state n).port = 0)) :
    ∃ n, results.length < (R.state n).results.length := by
  refine R.reaches_by (I := fun x => Awaits results x ∧ (Unread x.ring ∨ x.port = 0))
    (G := fun x => results.length < x.results.length) rank hC hfair h ?_ ?_
  · rintro x a x' ⟨haw, hdue⟩ ha hs
    have h' := haw.inv.step ha hs
    by_cases he : a = .receive
    · subst he
      rw [← haw.same]
      exact ((receive_cases haw.inv hs).rank_lt hdue).imp id le_of_lt
    · exact .inr ((aside_of_step haw.inv h' haw.busy he hs).rank_le haw.inv h')
  · rintro x ⟨haw, hdue⟩
    obtain ⟨x', hs⟩ := exists_receive haw.inv haw.busy
    rw [← haw.same]
    exact ⟨x', hs, (receive_cases haw.inv hs).rank_lt hdue⟩

/-- A `recvfrom` call returns once a byte is unread or the peer's port stays 0, and it does
not return before a byte is unread or the port is 0. -/
theorem recvfrom_returns {R : machine.Run} (h : machine.Reachable Allowed (R.state 0))
    (hC : R.Meets Allowed) (hfair : R.Fair {Act.receive}) (hcall : (R.state 0).pc ≠ .idle) :
    ((∃ n, Unread (R.state n).ring ∨ ∀ m, n ≤ m → (R.state m).port = 0) →
      ∃ n, Returned R n) ∧
    ∀ n, Returned R n → (R.state 0).pc = .lastRead ∨
      ∃ m < n, Unread (R.state m).ring ∨ (R.state m).port = 0 := by
  have hinv : Inv (R.state 0) :=
    h.invariant (fun _ => Inv.start) fun _ _ _ hi ha hs => hi.step ha hs
  have h0 : Awaits (R.state 0).results (R.state 0) := ⟨hinv, hcall, rfl⟩
  constructor
  · rintro ⟨n, hn⟩
    by_contra hnever
    have haw : ∀ k, Awaits (R.state 0).results (R.state k) := fun k =>
      awaits_of_never h0 hC fun m _ hm => hnever ⟨m, hm⟩
    obtain ⟨k, hk⟩ := returns_of_due (R := R.later n) (fun k => hC (n + k)) (hfair.later n)
      fun k => ⟨haw (n + k), hn.imp (unread_of_never haw (Nat.le_add_right n k))
        fun hport => hport _ (Nat.le_add_right n k)⟩
    exact hnever ⟨n + k, hk⟩
  · intro n hn
    by_contra hnone
    obtain ⟨hlast, hnone⟩ := not_or.mp hnone
    have hstays : ∀ k ≤ n, Awaits (R.state 0).results (R.state k) ∧ (R.state k).pc ≠ .lastRead := by
      intro k
      induction k with
      | zero => exact fun _ => ⟨h0, hlast⟩
      | succ k ih =>
        intro hk
        obtain ⟨haw, hpc⟩ := ih (by omega)
        have hwait : ¬ (Unread (R.state k).ring ∨ (R.state k).port = 0) :=
          fun hdue => hnone ⟨k, hk, hdue⟩
        cases hs : machine.step (R.state k) (R.label k) with
        | none => exact Run.state_stay hs ▸ ⟨haw, hpc⟩
        | some x =>
          rw [Run.state_succ hs]
          exact haw.stays (hC k) hs (fun hu => hwait (.inl hu)) (fun hp => hwait (.inr hp)) hpc
    have hsame := (hstays n le_rfl).1.same
    rw [Returned, hsame] at hn
    exact absurd hn (lt_irrefl _)

/-- The receiver has called `recvfrom` on an empty ring. -/
def called : Sys :=
  ⟨(RingBuffer.Sys.start fun _ => 0).setThread receiver
    (.reading .loadHead ⟨1, 1, 0, 0, [], 0, 0⟩), 7, false, .read 1, [], []⟩

theorem called_reachable : machine.Reachable Allowed called := by
  have h0 : machine.Reachable Allowed
      ⟨RingBuffer.Sys.start fun _ => 0, 7, false, .idle, [], []⟩ :=
    .init ⟨.init ⟨_, rfl⟩, rfl, rfl, by decide, rfl, rfl, rfl, rfl⟩
  exact h0.step (a := Act.recvfrom 1) ⟨by decide, by decide⟩ rfl

/-- The receiver polls the empty ring, one byte is sent, and from then on only the receiver
is scheduled. -/
def lateByte : machine.Run := .follow machine called fun n =>
  if n < 5 then .receive else if n = 5 then .send [7] else if n < 12 then .write else .receive

theorem recvfrom_returns_lateByte : ∃ n, Returned lateByte n := by
  have hC : lateByte.Meets Allowed := by
    intro n
    simp only [lateByte, Run.follow]
    split_ifs <;> trivial
  have hfair : lateByte.Fair {Act.receive} := by
    rintro a rfl n
    refine ⟨n + 12, by omega, ?_⟩
    simp [lateByte, Run.follow]
  exact (recvfrom_returns called_reachable hC hfair (by decide)).1
    ⟨12, .inl (by decide +kernel)⟩

end ShmSocket.Receiving
