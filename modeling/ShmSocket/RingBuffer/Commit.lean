import ShmSocket.RingBuffer.History

/-! Any number of writers and one reader, when no other thread steps between the loads of
a writer's last attempt and its swap on `tail`. The reservations tile what is not yet
published, and `oldtail` moves over them in their order. -/
namespace ShmSocket.RingBuffer
open StepMachine CircularWindow

/-- Before a successful swap on `tail` the last three steps are those of the same thread:
the loads of `head`, `tail` and `oldtail`. -/
def LoadsAtOnce (x : Sys × List Act) : Act → Prop
  | .exec t => ∀ f, x.1.thread t = .writing .casTail f → x.1.ring.tail = f.tail →
      ∃ past, x.2 = .exec t :: .exec t :: .exec t :: past
  | _ => True

/-- Attempts without another thread's step so far have loaded the current head. -/
structure Current (s : Sys) (past : List Act) : Prop where
  one : ∀ t f rest, past = .exec t :: rest → s.thread t = .writing .loadTail f →
    f.headAt = s.delivered.length
  two : ∀ t f rest, past = .exec t :: .exec t :: rest → s.thread t = .writing .loadOldtail f →
    f.headAt = s.delivered.length
  three : ∀ t f rest, past = .exec t :: .exec t :: .exec t :: rest →
    s.thread t = .writing .casTail f → f.headAt = s.delivered.length

/-- Every unpublished byte belongs to a reservation that is still being served. -/
def Covered (s : Sys) : Prop :=
  ∀ q, s.published ≤ q → q < s.accepted.length → ∃ t, q ∈ (s.thread t).span

variable {s s' : Sys} {t r : Tid} {a : Act} {past : List Act}

theorem setThread_self (s : Sys) (t : Tid) (th : Thread) : (s.setThread t th).thread t = th :=
  Function.update_self _ _ _

theorem ret_self (s : Sys) (t : Tid) (ret : Ret) : (s.ret t ret).thread t = .idle :=
  Function.update_self _ _ _

/-- Where the places before the swap on `tail` are reached from in one step. -/
def CameFrom (s s' : Sys) (t : Tid) : WritePc → WriteFrame → Prop
  | .loadTail, f => f.headAt = s'.delivered.length
  | .loadOldtail, f => ∃ g, s.thread t = .writing .loadTail g ∧ f.headAt = g.headAt ∧
      s'.delivered = s.delivered
  | .casTail, f => ∃ g, s.thread t = .writing .loadOldtail g ∧ f.headAt = g.headAt ∧
      s'.delivered = s.delivered
  | .loadHead, _ | .copy _, _ | .casOldtail, _ => True

theorem attempt_step {pc : WritePc} {f : WriteFrame} (hs : s.step (.exec t) = some s')
    (ht : s'.thread t = .writing pc f) : CameFrom s s' t pc f := by
  cases step_cases hs with
  | @writing _ pc' g hpc =>
    cases pc' with
    | loadHead =>
      cases (setThread_self _ _ _).symm.trans ht
      exact rfl
    | loadTail =>
      cases (setThread_self _ _ _).symm.trans ht
      exact ⟨g, hpc, rfl, rfl⟩
    | loadOldtail =>
      simp only [Sys.stepWrite] at ht ⊢
      split_ifs at ht ⊢
      · cases (ret_self _ _ _).symm.trans ht
      · cases (setThread_self _ _ _).symm.trans ht
        exact ⟨g, hpc, rfl, rfl⟩
    | casTail =>
      simp only [Sys.stepWrite] at ht
      split_ifs at ht <;> cases (setThread_self _ _ _).symm.trans ht <;> trivial
    | copy k =>
      have hnext := (setThread_self _ _ _).symm.trans ht
      split_ifs at hnext <;> cases hnext <;> trivial
    | casOldtail =>
      simp only [Sys.stepWrite] at ht
      split_ifs at ht
      · cases (ret_self _ _ _).symm.trans ht
      · cases hpc.symm.trans ht
        trivial
  | @reading _ pc' g hpc =>
    obtain ⟨th, hth, hnot, -⟩ := stepRead_thread s t pc' g
    rw [hth, Function.update_self] at ht
    exact absurd ht (hnot pc f)

theorem Current.step (h : Current s past) (hs : s.step a = some s') : Current s' (a :: past) := by
  constructor
  · intro t f rest hpast ht
    obtain ⟨rfl, -⟩ := List.cons.inj hpast
    exact attempt_step hs ht
  · intro t f rest hpast ht
    obtain ⟨rfl, hrest⟩ := List.cons.inj hpast
    obtain ⟨g, hg, hhead, hd⟩ := attempt_step hs ht
    rw [hhead, hd]
    exact h.one t g rest hrest hg
  · intro t f rest hpast ht
    obtain ⟨rfl, hrest⟩ := List.cons.inj hpast
    obtain ⟨g, hg, hhead, hd⟩ := attempt_step hs ht
    rw [hhead, hd]
    exact h.two t g rest hrest hg

/-- An attempt whose loads were made at once has the current head when it swaps `tail`. -/
theorem Current.notLapped (h : Current s past) (hi : Inv s) (hl : LoadsAtOnce (s, past) a) :
    NotLapped s a := by
  cases a with
  | write t input => trivial
  | read t len => trivial
  | exec t =>
    intro f ht hcas
    obtain ⟨rest, hpast⟩ := hl f ht hcas
    rw [h.three t f rest hpast ht]
    exact hi.room

/-- A step of `t` that leaves its reservation, if any, as it was. -/
theorem Covered.of_step {th : Thread} (h : Covered s)
    (hth : s'.thread = Function.update s.thread t th) (hspan : th.span = (s.thread t).span)
    (ha : s'.accepted = s.accepted) (hp : s'.published = s.published) : Covered s' := by
  intro q hq hq'
  rw [hp] at hq
  rw [ha] at hq'
  obtain ⟨u, hu⟩ := h q hq hq'
  refine ⟨u, ?_⟩
  rw [hth]
  by_cases he : u = t
  · rw [he] at hu ⊢
    rwa [Function.update_self, hspan]
  · rwa [Function.update_of_ne he]

/-- A new reservation starts where the others end. -/
theorem Covered.reserve {f : WriteFrame} (h : Covered s)
    (ht : s.thread t = .writing .casTail f) (hcas : s.ring.tail = f.tail) :
    Covered (s.stepWrite t .casTail f) := by
  simp only [Sys.stepWrite, if_pos hcas]
  intro q hq hq'
  change q < (s.accepted ++ f.input.take f.len).length at hq'
  rw [List.length_append, List.length_take] at hq'
  by_cases hold : q < s.accepted.length
  · obtain ⟨u, hu⟩ := h q hq hold
    have he : u ≠ t := by
      rintro rfl
      rw [ht] at hu
      exact hu
    refine ⟨u, ?_⟩
    change q ∈ (Function.update s.thread t _ u).span
    rwa [Function.update_of_ne he]
  · refine ⟨t, ?_⟩
    change q ∈ (Function.update s.thread t _ t).span
    rw [Function.update_self]
    exact ⟨not_lt.mp hold, by change q < s.accepted.length + f.len; omega⟩

/-- Publishing ends the first reservation, and the others cover the rest. -/
theorem Covered.publish {f : WriteFrame} (h : Covered s) (hi : Inv s)
    (ht : s.thread t = .writing .casOldtail f) (hcas : s.ring.oldtail = f.tail) :
    Covered (s.stepWrite t .casOldtail f) := by
  have hp := published_eq hi ht hcas
  simp only [Sys.stepWrite, if_pos hcas]
  intro q hq hq'
  change s.published + f.len ≤ q at hq
  obtain ⟨u, hu⟩ := h q (by omega) hq'
  have he : u ≠ t := by
    rintro rfl
    rw [ht] at hu
    have hlt : q < f.tailAt + f.len := hu.2
    omega
  refine ⟨u, ?_⟩
  change q ∈ (Function.update s.thread t _ u).span
  rwa [Function.update_of_ne he]

theorem Covered.stepWrite {pc : WritePc} {f : WriteFrame} (h : Covered s) (hi : Inv s)
    (ht : s.thread t = .writing pc f) : Covered (s.stepWrite t pc f) := by
  have hspan : ∀ th : Thread, s.thread t = th → th.span = (s.thread t).span := fun th he =>
    congrArg Thread.span he.symm
  have hold := hspan _ ht
  cases pc with
  | loadHead => exact h.of_step rfl hold rfl rfl
  | loadTail => exact h.of_step rfl hold rfl rfl
  | loadOldtail =>
    simp only [Sys.stepWrite]
    split_ifs
    · exact h.of_step rfl hold rfl rfl
    · exact h.of_step rfl hold rfl rfl
  | casTail =>
    by_cases hcas : s.ring.tail = f.tail
    · exact h.reserve ht hcas
    · simp only [Sys.stepWrite, if_neg hcas]
      exact h.of_step rfl hold rfl rfl
  | copy k =>
    refine h.of_step rfl ?_ rfl rfl
    split_ifs
    · exact hold
    · exact hold
  | casOldtail =>
    by_cases hcas : s.ring.oldtail = f.tail
    · exact h.publish hi ht hcas
    · simp only [Sys.stepWrite, if_neg hcas]
      exact h

theorem Covered.step (h : Covered s) (hi : Inv s) (hs : s.step a = some s') : Covered s' := by
  cases step_cases hs with
  | write ht => exact h.of_step rfl (congrArg Thread.span ht).symm rfl rfl
  | read ht => exact h.of_step rfl (congrArg Thread.span ht).symm rfl rfl
  | writing ht => exact h.stepWrite hi ht
  | @reading t pc f ht =>
    obtain ⟨th, hth, hnot, ha, hp⟩ := stepRead_thread s t pc f
    refine h.of_step hth ?_ ha hp
    rw [ht]
    cases th with
    | idle => rfl
    | reading pc' f' => rfl
    | writing pc' f' => exact absurd rfl (hnot pc' f')

/-- What holds in every state of such a run. -/
structure Committing (r : Tid) (x : Sys × List Act) : Prop where
  inv : Inv x.1
  reader : SoleReader r x.1
  current : Current x.1 x.2
  covered : Covered x.1
  written : WrittenOk x.1

def OneReaderAtOnce (r : Tid) (x : Sys × List Act) (a : Act) : Prop :=
  LoadsAtOnce x a ∧ OneReader r a

theorem Committing.step {x x' : Sys × List Act} (h : Committing r x)
    (hc : OneReaderAtOnce r x a) (hs : machine.traced.step x a = some x') : Committing r x' := by
  obtain ⟨s', hstep, rfl⟩ := Option.map_eq_some_iff.mp hs
  have hlap := h.current.notLapped h.inv hc.1
  exact ⟨h.inv.step hlap (h.reader.notTurned a) hstep, h.reader.step h.inv hc.2 hstep,
    h.current.step hstep, h.covered.step h.inv hstep, h.written.step h.inv hstep⟩

theorem Committing.start {x : Sys × List Act} (h : machine.traced.init x) : Committing r x := by
  obtain ⟨s, past⟩ := x
  obtain ⟨⟨content, rfl⟩, rfl⟩ := h
  refine ⟨.start content, .start r content, ⟨?_, ?_, ?_⟩, ?_, rfl⟩
  · rintro _ _ _ ⟨⟩
  · rintro _ _ _ ⟨⟩
  · rintro _ _ _ ⟨⟩
  · exact fun q _ hq => absurd hq (Nat.not_lt_zero q)

/-- The commit protocol of `oldtail`. -/
structure CommitProtocol (r : Tid) (s : Sys) : Prop where
  /-- The unpublished part of the stream is tiled by the reservations being served; -/
  tiled : s.ring.oldtail = s.published % shmDataSize ∧
    ∀ q, s.published ≤ q → q < s.accepted.length → ∃! t, q ∈ (s.thread t).span
  /-- `oldtail` moves only to the end of the first of them, by its own writer; -/
  moves : ∀ a s', s.step a = some s' → s'.published ≠ s.published ∨
      s'.ring.oldtail ≠ s.ring.oldtail →
    ∃ t f, a = .exec t ∧ s.thread t = .writing .casOldtail f ∧ s.published = f.tailAt ∧
      s'.published = f.tailAt + f.len ∧ s'.ring.oldtail = s'.published % shmDataSize
  /-- a spin succeeds exactly when all earlier reservations are published. -/
  inOrder : ∀ t f, s.thread t = .writing .casOldtail f →
    (s.ring.oldtail = f.tail ↔ ∀ u q, u ≠ t → q ∈ (s.thread u).span → f.tailAt + f.len ≤ q)
  /-- The head a reader holds when it loads `oldtail` is the current one; -/
  head : ∀ f, s.thread r = .reading .loadOldtail f →
    f.head = s.ring.head ∧ s.ring.head = s.delivered.length % shmDataSize
  /-- all bytes from there to `oldtail` are in place, and no copy will hit them. -/
  inPlace : Holds shmDataSize s.ring.content s.accepted s.delivered.length s.published
  untouched : ∀ t k f q, s.thread t = .writing (.copy k) f → s.delivered.length ≤ q →
    q < s.published → copyOffset f.tail f.len k ≠ q % shmDataSize
  /-- The published stream is the finished writes, each in one piece; reads return it. -/
  contiguous : s.written = s.accepted.take s.published
  delivered : s.returned <+: s.written

/-- Only a successful swap on `oldtail` moves it. -/
theorem oldtail_step (hs : s.step a = some s') :
    (s'.published = s.published ∧ s'.ring.oldtail = s.ring.oldtail) ∨
      ∃ t f, a = .exec t ∧ s.thread t = .writing .casOldtail f ∧ s.ring.oldtail = f.tail ∧
        s' = s.stepWrite t .casOldtail f := by
  cases step_cases hs with
  | write => exact .inl ⟨rfl, rfl⟩
  | read => exact .inl ⟨rfl, rfl⟩
  | @writing t pc f ht =>
    cases pc with
    | loadHead => exact .inl ⟨rfl, rfl⟩
    | loadTail => exact .inl ⟨rfl, rfl⟩
    | loadOldtail =>
      simp only [Sys.stepWrite]
      split_ifs <;> exact .inl ⟨rfl, rfl⟩
    | casTail =>
      simp only [Sys.stepWrite]
      split_ifs <;> exact .inl ⟨rfl, rfl⟩
    | copy k => exact .inl ⟨rfl, rfl⟩
    | casOldtail =>
      by_cases hcas : s.ring.oldtail = f.tail
      · exact .inr ⟨t, f, rfl, ht, hcas, rfl⟩
      · have hstay : s.stepWrite t .casOldtail f = s := by
          simp only [Sys.stepWrite, if_neg hcas]
        rw [hstay]
        exact .inl ⟨rfl, rfl⟩
  | @reading t pc f ht =>
    cases pc with
    | loadHead => exact .inl ⟨rfl, rfl⟩
    | loadOldtail =>
      simp only [Sys.stepRead]
      split_ifs <;> exact .inl ⟨rfl, rfl⟩
    | copy => exact .inl ⟨rfl, rfl⟩
    | casHead =>
      simp only [Sys.stepRead]
      split_ifs <;> exact .inl ⟨rfl, rfl⟩

/-- The reservation of a call that waits to publish it. -/
theorem spinning_reserves (hi : Inv s) {f : WriteFrame}
    (ht : s.thread t = .writing .casOldtail f) : Reserves s f f.len := by
  have hok := hi.threads t
  rwa [ht] at hok

/-- The test of the spin compares wrapped positions, but it singles out the reservation
that starts where the published bytes end. -/
theorem spin_iff (hi : Inv s) (hcov : Covered s) {f : WriteFrame}
    (ht : s.thread t = .writing .casOldtail f) :
    s.ring.oldtail = f.tail ↔
      ∀ u q, u ≠ t → q ∈ (s.thread u).span → f.tailAt + f.len ≤ q := by
  have hr := spinning_reserves hi ht
  constructor
  · intro hcas u q hu hq
    have hp := published_eq hi ht hcas
    have hge := (span_bounds (hi.threads u) hq).1
    by_contra hlt
    have hown : q ∈ (s.thread t).span := by
      rw [ht]
      exact ⟨by omega, by omega⟩
    exact hu (hi.disjoint u t q hq hown)
  · intro hlater
    have hp : s.published = f.tailAt := by
      by_contra hne
      have hun := hr.unpublished
      have hacc := hr.accepted
      have hpos := hr.pos
      obtain ⟨u, hu⟩ := hcov s.published le_rfl (by omega)
      have hut : u ≠ t := by
        rintro rfl
        rw [ht] at hu
        have hge : f.tailAt ≤ s.published := hu.1
        omega
      have hle := hlater u _ hut hu
      omega
    rw [hi.oldtail, hr.image, hp]

/-- A copy stays inside its own reservation. -/
theorem copy_untouched (hi : Inv s) {f : WriteFrame} {k q : ℕ}
    (ht : s.thread t = .writing (.copy k) f) (hq : s.delivered.length ≤ q)
    (hq' : q < s.published) : copyOffset f.tail f.len k ≠ q % shmDataSize := by
  have hok := hi.threads t
  rw [ht] at hok
  obtain ⟨hr, hk⟩ := hok
  have hroom := hi.room
  have hcons := hi.consumed
  have hun := hr.unpublished
  have hacc := hr.accepted
  intro he
  rw [hr.image, copyOffset_mod (by omega) hk] at he
  have heq := eq_of_mod_eq (n := shmDataSize) (a := s.delivered.length) (by omega) (by omega)
    hq (by omega) he
  omega

theorem Committing.protocol {x : Sys × List Act} (h : Committing r x)
    (hreturned : x.1.returned = x.1.delivered) : CommitProtocol r x.1 := by
  obtain ⟨s, past⟩ := x
  have hi := h.inv
  constructor
  · refine ⟨hi.oldtail, fun q hq hq' => ?_⟩
    obtain ⟨t, ht⟩ := h.covered q hq hq'
    exact ⟨t, ht, fun u hu => hi.disjoint u t q hu ht⟩
  · intro a s' hs hmoved
    rcases oldtail_step hs with ⟨hp, ho⟩ | ⟨t, f, ha, ht, hcas, rfl⟩
    · rcases hmoved with hne | hne
      · exact absurd hp hne
      · exact absurd ho hne
    · have hp := published_eq hi ht hcas
      refine ⟨t, f, ha, ht, hp, ?_, (hi.publish ht hcas).oldtail⟩
      simp only [Sys.stepWrite, if_pos hcas]
      change s.published + f.len = _
      rw [hp]
  · exact fun t f ht => spin_iff hi h.covered ht
  · intro f hf
    obtain ⟨-, -, hcur⟩ := h.reader r _ f hf
    have hseen := hi.threads r
    rw [hf] at hseen
    have hseen : HeadSeen s f.head f.headAt := hseen
    rw [hseen.image, hcur]
    exact ⟨hi.head.symm, hi.head⟩
  · exact hi.stored
  · exact fun t k f q ht hq hq' => copy_untouched hi ht hq hq'
  · exact h.written
  · rw [hreturned, h.written]
    exact List.prefix_take_iff.mpr ⟨hi.stream, hi.consumed⟩

/-- With one reader, any number of writers whose loads are made at once commit their
reservations in order. -/
theorem commit_protocol {r : Tid} {x : Sys × List Act}
    (h : machine.traced.Reachable (OneReaderAtOnce r) x) : CommitProtocol r x.1 := by
  have hx : Committing r x :=
    h.invariant (fun _ => Committing.start) fun _ _ _ hi hc hs => hi.step hc hs
  exact hx.protocol (returned_eq h.of_traced)

/-- Writers 0 and 1 reserve one byte each, and 1 copies first. -/
theorem commit_protocol_two : ∃ x : Sys × List Act,
    x.1.thread 1 = .writing .casOldtail ⟨[2], 1, 0, 1, 0, 0, 1⟩ ∧ x.1.published = 0 ∧
    CommitProtocol 2 x.1 := by
  have h0 : machine.traced.Reachable (OneReaderAtOnce 2) (Sys.start fun _ => 0, []) :=
    .init ⟨⟨_, rfl⟩, rfl⟩
  have h1 := h0.step (a := Act.write 0 [1]) ⟨trivial, trivial⟩ rfl
  have h2 := h1.step (a := Act.write 1 [2]) ⟨trivial, trivial⟩ rfl
  have h3 := h2.step (a := Act.exec 0) ⟨fun f hf => (nomatch hf), trivial⟩ rfl
  have h4 := h3.step (a := Act.exec 0) ⟨fun f hf => (nomatch hf), trivial⟩ rfl
  have h5 := h4.step (a := Act.exec 0) ⟨fun f hf => (nomatch hf), trivial⟩ rfl
  have h6 := h5.step (a := Act.exec 0) ⟨fun f _ _ => ⟨_, rfl⟩, trivial⟩ rfl
  have h7 := h6.step (a := Act.exec 1) ⟨fun f hf => (nomatch hf), trivial⟩ rfl
  have h8 := h7.step (a := Act.exec 1) ⟨fun f hf => (nomatch hf), trivial⟩ rfl
  have h9 := h8.step (a := Act.exec 1) ⟨fun f hf => (nomatch hf), trivial⟩ rfl
  have h10 := h9.step (a := Act.exec 1) ⟨fun f _ _ => ⟨_, rfl⟩, trivial⟩ rfl
  have h11 := h10.step (a := Act.exec 1) ⟨fun f hf => (nomatch hf), trivial⟩ rfl
  exact ⟨_, rfl, rfl, commit_protocol h11⟩

end ShmSocket.RingBuffer
