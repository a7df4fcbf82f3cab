import ShmSocket.RingBuffer.Sequential
import ShmSocket.Pool.Channel
import ShmSocket.PortTable.Steps

/-! Attaching to a shared segment. `rb_init`, `Channel::Channel` and `init_port_table`
read the attach count, attach, and make their first stores when the count was 0. The count
may be stale by then. -/
namespace ShmSocket.Attach
open StepMachine

/-- What the kinds of segment differ in: the stores made when the count read was 0, and
what a segment holds after the last one to leave has removed it. -/
structure Kind (κ : Type*) where
  reset : κ → κ
  removed : Option κ

/-- `data[0] = data[1] = data[2] = 0` in `rb_init`. Nothing removes a ring. -/
def rbInit : Kind Ring := ⟨fun r => { r with head := 0, tail := 0, oldtail := 0 }, none⟩

/-- The free list that `Channel::Channel` builds. `Channel::~Channel` removes a segment that
nobody is attached to, and the next `shmget` gives a zero-filled one. -/
def channel : Kind Address := ⟨Address.init, some fun _ => 0⟩

/-- The `memset` of `init_port_table`. Nothing removes the port table. -/
def initPortTable : Kind (ℕ → ℤ) := ⟨fun _ _ => 0, none⟩

inductive Segment where
  | ring
  | poolChannel
  | portTable

abbrev Segment.Content : Segment → Type
  | .ring => Ring
  | .poolChannel => Address
  | .portTable => ℕ → ℤ

def Segment.kind : (g : Segment) → Kind g.Content
  | .ring => rbInit
  | .poolChannel => channel
  | .portTable => initPortTable

/-- An attach, of any process. -/
abbrev Aid := ℕ

/-- Where an attach is, with the count it has read. -/
inductive Phase where
  | out
  | counted (nattch : ℕ)
  | attached (nattch : ℕ)
  | ready

/-- The attach has read the count 0 and its stores are still to come. -/
def Phase.Resets : Phase → Prop
  | .counted n | .attached n => n = 0
  | .out | .ready => False

/-- The attach counts in `shm_nattch`. -/
def Phase.Inside : Phase → Prop
  | .attached _ | .ready => True
  | .out | .counted _ => False

/-- An attach that waits for the segment of a removed identifier fails. -/
def Phase.afterRemoval : Phase → Phase
  | .counted _ => .out
  | phase => phase

variable {κ : Type*}

/-- `base` and `history` are kept by nobody: what the segment held when the first of those
attached began to change it, and their changes since. -/
structure Sys (κ : Type*) where
  content : κ
  attached : Finset Aid
  phase : Aid → Phase
  base : κ
  history : List (κ → κ)

/-- `stat`, `attach` and `init` are the three steps of an attach; `op` is a change that an
operation makes after the attach is complete; `detach` is `shmdt` or the end of the process. -/
inductive Act (κ : Type*) where
  | stat (a : Aid)
  | attach (a : Aid)
  | init (a : Aid)
  | op (a : Aid) (change : κ → κ)
  | detach (a : Aid)

namespace Sys

def setPhase (s : Sys κ) (a : Aid) (phase : Phase) : Sys κ :=
  { s with phase := Function.update s.phase a phase }

/-- The stores of an attach that has read 0. They are a first state of the segment only as
long as nobody has changed it. -/
def reset (s : Sys κ) (k : Kind κ) : Sys κ :=
  { s with
    content := k.reset s.content
    base := if s.history.isEmpty then k.reset s.content else s.base }

/-- The last one to leave: nobody is attached whose changes could be lost. -/
def leftAlone (s : Sys κ) (k : Kind κ) : Sys κ :=
  match k.removed with
  | none => { s with base := s.content, history := [] }
  | some fresh =>
      { s with
        content := fresh
        phase := fun a => (s.phase a).afterRemoval
        base := fresh
        history := [] }

def leave (s : Sys κ) (k : Kind κ) (a : Aid) : Sys κ :=
  let rest := { s.setPhase a .out with attached := s.attached.erase a }
  if rest.attached = ∅ then rest.leftAlone k else rest

def step (k : Kind κ) (s : Sys κ) : Act κ → Option (Sys κ)
  | .stat a =>
      match s.phase a with
      | .out => some (s.setPhase a (.counted s.attached.card))
      | _ => none
  | .attach a =>
      match s.phase a with
      | .counted n => some { s.setPhase a (.attached n) with attached := insert a s.attached }
      | _ => none
  | .init a =>
      match s.phase a with
      | .attached n => some ((if n = 0 then s.reset k else s).setPhase a .ready)
      | _ => none
  | .op a change =>
      match s.phase a with
      | .ready =>
          some { s with content := change s.content, history := s.history ++ [change] }
      | _ => none
  | .detach a =>
      match s.phase a with
      | .attached _ | .ready => some (s.leave k a)
      | _ => none

/-- No change has been forgotten: the segment holds what the changes since its first state
make of it. -/
def Remembered (s : Sys κ) : Prop :=
  s.content = s.history.foldl (fun content change => change content) s.base

end Sys

/-- A segment nobody is attached to, with any content. -/
def machine (k : Kind κ) : StepMachine (Sys κ) (Act κ) where
  init s := s.attached = ∅ ∧ (∀ a, s.phase a = .out) ∧ s.history = [] ∧ s.base = s.content
  step := Sys.step k

/-- Whoever changes the segment does so while no attach that has read the count 0 still has
its stores to make. -/
def NoneResets (s : Sys κ) : Act κ → Prop
  | .op _ _ => ∀ a, ¬ (s.phase a).Resets
  | _ => True

/-- `Sys.Remembered` with what keeps it: an attach that still has stores to make has come
before the first change. -/
structure Inv (s : Sys κ) : Prop where
  attached : ∀ a, a ∈ s.attached ↔ (s.phase a).Inside
  remembered : s.Remembered
  held : s.attached = ∅ → s.history = []
  unchanged : ∀ a, (s.phase a).Resets → s.history = []

namespace Inv
variable {k : Kind κ} {s s' : Sys κ} {a : Aid} {n : ℕ}

theorem start (h : (machine k).init s) : Inv s := by
  obtain ⟨hnone, hout, hempty, hbase⟩ := h
  refine ⟨fun a => ?_, ?_, fun _ => hempty, fun _ _ => hempty⟩
  · rw [hnone, hout a]
    exact ⟨fun h => absurd h (Finset.notMem_empty a), fun h => h.elim⟩
  · unfold Sys.Remembered
    rw [hempty, hbase]
    rfl

/-- Moving one attach keeps the list of those inside. -/
theorem attached_move {phase : Phase} {A : Finset Aid} (h : Inv s)
    (hmem : ∀ b, b ∈ A ↔ b ≠ a ∧ b ∈ s.attached ∨ b = a ∧ phase.Inside) (b : Aid) :
    b ∈ A ↔ ((s.setPhase a phase).phase b).Inside := by
  rw [hmem b]
  by_cases hb : b = a
  · subst hb
    simp [Sys.setPhase]
  · simpa [Sys.setPhase, hb] using h.attached b

/-- A step that leaves the segment as it is and moves one attach. -/
theorem move {phase : Phase} {A : Finset Aid} (h : Inv s)
    (hmem : ∀ b, b ∈ A ↔ b ≠ a ∧ b ∈ s.attached ∨ b = a ∧ phase.Inside)
    (hheld : A = ∅ → s.history = []) (hresets : phase.Resets → s.history = []) :
    Inv { s.setPhase a phase with attached := A } :=
  ⟨h.attached_move hmem, h.remembered, hheld,
    (Function.forall_update_iff s.phase fun _ p => p.Resets → s.history = []).mpr
      ⟨hresets, fun b _ => h.unchanged b⟩⟩

theorem stat (h : Inv s) (hout : s.phase a = .out) :
    Inv (s.setPhase a (.counted s.attached.card)) := by
  have hnot : a ∉ s.attached := fun ha => by
    have hin := (h.attached a).mp ha
    rw [hout] at hin
    exact hin
  refine h.move (A := s.attached) (fun b => ?_) h.held
    fun hzero => h.held (Finset.card_eq_zero.mp hzero)
  constructor
  · intro hb
    exact .inl ⟨fun hba => hnot (hba ▸ hb), hb⟩
  · rintro (⟨-, hb⟩ | ⟨-, hin⟩)
    · exact hb
    · exact hin.elim

theorem attach (h : Inv s) (hcounted : s.phase a = .counted n) :
    Inv { s.setPhase a (.attached n) with attached := insert a s.attached } := by
  refine h.move (fun b => ?_) (fun hempty => absurd hempty (Finset.insert_ne_empty a s.attached))
    fun hzero => h.unchanged a (by rw [hcounted]; exact hzero)
  rw [Finset.mem_insert]
  constructor
  · intro hb
    by_cases hba : b = a
    · exact .inr ⟨hba, trivial⟩
    · exact .inl ⟨hba, hb.resolve_left hba⟩
  · rintro (⟨-, hb⟩ | ⟨hb, -⟩)
    · exact .inr hb
    · exact .inl hb

/-- The stores of an attach that has read 0 come before the first change. -/
theorem reset (h : Inv s) (hempty : s.history = []) : Inv (s.reset k) := by
  refine ⟨h.attached, ?_, h.held, h.unchanged⟩
  unfold Sys.Remembered Sys.reset
  rw [hempty]
  rfl

theorem ready (h : Inv s) (hattached : s.phase a = .attached n) : Inv (s.setPhase a .ready) := by
  have hmem : a ∈ s.attached := (h.attached a).mpr (by rw [hattached]; trivial)
  refine h.move (A := s.attached) (fun b => ?_) h.held fun hresets => hresets.elim
  constructor
  · intro hb
    by_cases hba : b = a
    · exact .inr ⟨hba, trivial⟩
    · exact .inl ⟨hba, hb⟩
  · rintro (⟨-, hb⟩ | ⟨rfl, -⟩)
    · exact hb
    · exact hmem

theorem init (h : Inv s) (hattached : s.phase a = .attached n) :
    Inv ((if n = 0 then s.reset k else s).setPhase a .ready) := by
  split_ifs with hzero
  · have hempty : s.history = [] := h.unchanged a (by rw [hattached]; exact hzero)
    exact (h.reset hempty).ready hattached
  · exact h.ready hattached

/-- Nobody who still has stores to make is left when an operation changes the segment. -/
theorem op {change : κ → κ} (h : Inv s) (hready : s.phase a = .ready)
    (hnone : ∀ b, ¬ (s.phase b).Resets) :
    Inv { s with content := change s.content, history := s.history ++ [change] } := by
  have hmem : a ∈ s.attached := (h.attached a).mpr (by rw [hready]; trivial)
  refine ⟨h.attached, ?_, fun hempty => ?_, fun b hb => absurd hb (hnone b)⟩
  · have hcontent := h.remembered
    unfold Sys.Remembered at hcontent ⊢
    rw [List.foldl_append, ← hcontent]
    rfl
  · have hnone : a ∉ s.attached := fun ha => Finset.notMem_empty a (hempty ▸ ha)
    exact absurd hmem hnone

theorem leftAlone (h : ∀ b, b ∈ s.attached ↔ (s.phase b).Inside) : Inv (s.leftAlone k) := by
  unfold Sys.leftAlone
  cases k.removed with
  | none => exact ⟨h, rfl, fun _ => rfl, fun _ _ => rfl⟩
  | some fresh =>
    refine ⟨fun b => ?_, rfl, fun _ => rfl, fun _ _ => rfl⟩
    rw [h b]
    change _ ↔ (s.phase b).afterRemoval.Inside
    cases s.phase b <;> rfl

theorem leave (h : Inv s) : Inv (s.leave k a) := by
  have hmem : ∀ b, b ∈ s.attached.erase a ↔
      b ≠ a ∧ b ∈ s.attached ∨ b = a ∧ Phase.out.Inside := fun b => by
    simp [Phase.Inside, Finset.mem_erase]
  simp only [Sys.leave]
  split_ifs with hempty
  · exact leftAlone (h.attached_move hmem)
  · exact h.move hmem (fun he => absurd he hempty) fun hresets => hresets.elim

theorem step {act : Act κ} (h : Inv s) (hc : NoneResets s act) (hs : s.step k act = some s') :
    Inv s' := by
  cases act with
  | stat a =>
    simp only [Sys.step] at hs
    split at hs
    · next hout =>
      cases hs
      exact h.stat hout
    · cases hs
  | attach a =>
    simp only [Sys.step] at hs
    split at hs
    · next n hcounted =>
      cases hs
      exact h.attach hcounted
    · cases hs
  | init a =>
    simp only [Sys.step] at hs
    split at hs
    · next n hattached =>
      cases hs
      exact h.init hattached
    · cases hs
  | op a change =>
    simp only [Sys.step] at hs
    split at hs
    · next hready =>
      cases hs
      exact h.op hready hc
    · cases hs
  | detach a =>
    simp only [Sys.step] at hs
    split at hs
    · cases hs
      exact h.leave
    · cases hs
      exact h.leave
    · cases hs

end Inv

/-- As long as nobody changes a segment while another attach that has read the count 0 still
has stores to make, no change is forgotten while a process is attached. -/
theorem changes_remembered (g : Segment) {s : Sys g.Content}
    (h : (machine g.kind).Reachable NoneResets s) : s.Remembered :=
  (h.invariant (fun _ => Inv.start) fun _ _ _ hi hc hs => hi.step hc hs).remembered

/-- One change by an operation: `rb_write` of one byte, `Channel::get`, and the store of
`bind` for process 7 to port 80. -/
def Segment.change : (g : Segment) → g.Content → g.Content
  | .ring => fun r => ((rbWrite r 1 fun _ => 7).map Prod.snd).getD r
  | .poolChannel => fun a => (channelGet a).2
  | .portTable => fun t => Function.update t 80 7

/-- Nobody has attached yet. -/
def Sys.unused (c : κ) : Sys κ := ⟨c, ∅, fun _ => .out, c, []⟩

theorem unused_reachable (k : Kind κ) (c : κ) {C : Sys κ → Act κ → Prop} :
    (machine k).Reachable C (Sys.unused c) := .init ⟨rfl, fun _ => rfl, rfl, rfl⟩

/-- One process attaches to a new ring and writes; a second one attaches after the write,
reads the count 1 and leaves the byte in the ring. -/
theorem changes_remembered_write : ∃ s : Sys Ring,
    (machine rbInit).Reachable NoneResets s ∧ s.attached = {0, 1} ∧
    s.history = [Segment.ring.change] ∧ s.content.tail = 1 ∧ s.Remembered := by
  have hr := unused_reachable rbInit Ring.zero (C := NoneResets)
  have hr := hr.step (a := Act.stat 0) trivial rfl
  have hr := hr.step (a := Act.attach 0) trivial rfl
  have hr := hr.step (a := Act.init 0) trivial rfl
  have hr := hr.step (a := Act.op 0 Segment.ring.change) (fun a => ?_) rfl
  · have hr := hr.step (a := Act.stat 1) trivial rfl
    have hr := hr.step (a := Act.attach 1) trivial rfl
    have hr := hr.step (a := Act.init 1) trivial rfl
    exact ⟨_, hr, by decide, rfl, by decide +kernel, changes_remembered .ring hr⟩
  · cases a <;> exact id

/-- Two attaches read the count 0. The first has changed the segment when the second makes
its stores. -/
theorem stale_count (k : Kind κ) (c : κ) (change : κ → κ) : ∃ s : Sys κ,
    (machine k).Reachable Any s ∧ s.content = k.reset (change (k.reset c)) ∧
    s.history.foldl (fun content f => f content) s.base = change (k.reset c) := by
  have hr := unused_reachable k c (C := Any)
  have hr := hr.step (a := Act.stat 0) trivial rfl
  have hr := hr.step (a := Act.stat 1) trivial rfl
  have hr := hr.step (a := Act.attach 0) trivial rfl
  have hr := hr.step (a := Act.init 0) trivial rfl
  have hr := hr.step (a := Act.op 0 change) trivial rfl
  have hr := hr.step (a := Act.attach 1) trivial rfl
  have hr := hr.step (a := Act.init 1) trivial rfl
  exact ⟨_, hr, rfl, rfl⟩

/-- The written byte, the index and the port are forgotten. -/
theorem changes_forgotten :
    (∃ s : Sys Ring, (machine rbInit).Reachable Any s ∧ ¬ s.Remembered) ∧
    (∃ s : Sys Address, (machine channel).Reachable Any s ∧ ¬ s.Remembered) ∧
    ∃ s : Sys (ℕ → ℤ), (machine initPortTable).Reachable Any s ∧ ¬ s.Remembered := by
  refine ⟨?_, ?_, ?_⟩
  · obtain ⟨s, hr, hcontent, hreplay⟩ := stale_count rbInit Ring.zero Segment.ring.change
    refine ⟨s, hr, fun h => ?_⟩
    have heq := congrArg Ring.tail (hcontent.symm.trans (h.trans hreplay))
    exact absurd heq (by decide +kernel)
  · obtain ⟨s, hr, hcontent, hreplay⟩ :=
      stale_count channel (fun _ => 0) Segment.poolChannel.change
    refine ⟨s, hr, fun h => ?_⟩
    have heq := congrFun (hcontent.symm.trans (h.trans hreplay)) 0
    exact absurd heq (by decide +kernel)
  · obtain ⟨s, hr, hcontent, hreplay⟩ :=
      stale_count initPortTable (fun _ => 0) Segment.portTable.change
    refine ⟨s, hr, fun h => ?_⟩
    have heq := congrFun (hcontent.symm.trans (h.trans hreplay)) 80
    exact absurd heq (by decide +kernel)

end ShmSocket.Attach
