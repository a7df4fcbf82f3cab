import ShmSocket.RingBuffer.History

/-! Calls of `rb_write` and `rb_read` whose swaps fail. A retry keeps the `len` that the
failed attempt has clamped, so a call serves its caller exactly when no attempt that
failed has found less than the last one. -/
namespace ShmSocket.RingBuffer
open StepMachine

/-- The length that the caller asked for. -/
def Ret.req : Ret → ℕ
  | .wrote f _ => f.input.length
  | .got f _ => f.req

/-- The count that the call returned. -/
def Ret.count : Ret → ℕ
  | .wrote _ count => count
  | .got _ bytes => bytes.length

def Ret.isWrite : Ret → Bool
  | .wrote _ _ => true
  | .got _ _ => false

/-- The `size` that the next step of a thread computes: free space or available bytes. -/
def Sys.computed (s : Sys) (t : Tid) : Option ℕ :=
  match s.thread t with
  | .writing .loadOldtail f => some (writeSize f.head f.tail)
  | .reading .loadOldtail f => some (readSize f.head s.ring.oldtail)
  | _ => none

/-- The calls with the sizes of their attempts, the last one first: of the calls in
progress and of those that have returned. -/
structure Attempts where
  sys : Sys
  sizes : Tid → List ℕ
  finished : List (Ret × List ℕ)

namespace Attempts

/-- The sizes of a thread's call after its step. -/
def sizesAfter (x : Attempts) : Act → List ℕ
  | .write _ _ | .read _ _ => []
  | .exec t => (x.sys.computed t).toList ++ x.sizes t

def step (x : Attempts) (a : Act) : Option Attempts :=
  (x.sys.step a).map fun sys =>
    { sys
      sizes := Function.update x.sizes a.thread (x.sizesAfter a)
      finished := x.finished ++
        (sys.log.drop x.sys.log.length).map fun r => (r, x.sizesAfter a) }

/-- Any ring that no thread uses. -/
def machine : StepMachine Attempts Act where
  init x := (∀ t, x.sys.thread t = .idle) ∧ x.finished = []
  step := step

end Attempts

/-- `len` is what the sizes of all attempts so far leave of the length asked for. -/
def Clamped (len req : ℕ) (sizes : List ℕ) : Prop := len = sizes.foldr min req

def ThreadClamped (sizes : List ℕ) : Thread → Prop
  | .idle => True
  | .writing pc f => Clamped f.len f.input.length sizes ∧ match pc with
    | .loadHead | .loadTail | .loadOldtail => True
    | .casTail | .copy _ | .casOldtail => sizes ≠ []
  | .reading pc f => Clamped f.len f.req sizes ∧ match pc with
    | .loadHead | .loadOldtail => True
    | .copy => sizes ≠ [] ∧ f.out.length < f.len
    | .casHead => sizes ≠ [] ∧ f.out.length = f.len

def RetClamped (sizes : List ℕ) (r : Ret) : Prop := Clamped r.count r.req sizes ∧ sizes ≠ []

variable {s s' : Sys} {t : Tid} {sizes : List ℕ} {a : Act}

theorem stepWrite_outcome {pc : WritePc} {f : WriteFrame} (ht : s.thread t = .writing pc f)
    (h : ThreadClamped sizes (.writing pc f)) :
    Outcome s t (ThreadClamped ((s.computed t).toList ++ sizes))
      (RetClamped ((s.computed t).toList ++ sizes)) (s.stepWrite t pc f) := by
  obtain ⟨hlen, hpc⟩ := h
  cases pc with
  | loadHead | loadTail =>
    simp only [Sys.computed, ht]
    exact .goes rfl rfl ⟨hlen, trivial⟩
  | loadOldtail =>
    have hclamp : Clamped (min (writeSize f.head f.tail) f.len) f.input.length
        (writeSize f.head f.tail :: sizes) := congrArg (min _) hlen
    simp only [Sys.computed, ht, Option.toList_some, List.singleton_append, Sys.stepWrite]
    split_ifs with hz
    · rw [hz] at hclamp
      exact .returns rfl rfl ⟨hclamp, List.cons_ne_nil _ _⟩
    · exact .goes rfl rfl ⟨hclamp, List.cons_ne_nil _ _⟩
  | casTail =>
    simp only [Sys.computed, ht, Option.toList_none, List.nil_append, Sys.stepWrite]
    split_ifs
    · exact .goes rfl rfl ⟨hlen, hpc⟩
    · exact .goes rfl rfl ⟨hlen, trivial⟩
  | copy k =>
    simp only [Sys.computed, ht, Option.toList_none, List.nil_append, Sys.stepWrite]
    refine .goes rfl rfl ?_
    split_ifs
    · exact ⟨hlen, hpc⟩
    · exact ⟨hlen, hpc⟩
  | casOldtail =>
    simp only [Sys.computed, ht, Option.toList_none, List.nil_append, Sys.stepWrite]
    split_ifs
    · exact .returns rfl rfl ⟨hlen, hpc⟩
    · exact .goes (Function.update_eq_self t s.thread).symm rfl (ht ▸ ⟨hlen, hpc⟩)

theorem stepRead_outcome {pc : ReadPc} {f : ReadFrame} (ht : s.thread t = .reading pc f)
    (h : ThreadClamped sizes (.reading pc f)) :
    Outcome s t (ThreadClamped ((s.computed t).toList ++ sizes))
      (RetClamped ((s.computed t).toList ++ sizes)) (s.stepRead t pc f) := by
  obtain ⟨hlen, hpc⟩ := h
  cases pc with
  | loadHead =>
    simp only [Sys.computed, ht]
    exact .goes rfl rfl ⟨hlen, trivial⟩
  | loadOldtail =>
    have hclamp : Clamped (min (readSize f.head s.ring.oldtail) f.len) f.req
        (readSize f.head s.ring.oldtail :: sizes) := congrArg (min _) hlen
    simp only [Sys.computed, ht, Option.toList_some, List.singleton_append, Sys.stepRead]
    split_ifs with hz
    · rw [hz] at hclamp
      exact .returns rfl rfl ⟨hclamp, List.cons_ne_nil _ _⟩
    · exact .goes rfl rfl ⟨hclamp, List.cons_ne_nil _ _, Nat.pos_of_ne_zero hz⟩
  | copy =>
    simp only [Sys.computed, ht, Option.toList_none, List.nil_append, Sys.stepRead]
    refine .goes rfl rfl ?_
    split_ifs with hmore
    · exact ⟨hlen, hpc.1, hmore⟩
    · refine ⟨hlen, hpc.1, ?_⟩
      have hlt : f.out.length < f.len := hpc.2
      simp only [List.length_append, List.length_singleton] at hmore ⊢
      omega
  | casHead =>
    simp only [Sys.computed, ht, Option.toList_none, List.nil_append, Sys.stepRead]
    split_ifs
    · exact .returns rfl rfl ⟨hpc.2.trans hlen, hpc.1⟩
    · exact .goes rfl rfl ⟨hlen, trivial⟩

theorem step_outcome (hs : s.step (.exec t) = some s')
    (h : ThreadClamped sizes (s.thread t)) :
    Outcome s t (ThreadClamped ((s.computed t).toList ++ sizes))
      (RetClamped ((s.computed t).toList ++ sizes)) s' := by
  cases step_cases hs with
  | writing ht => exact stepWrite_outcome ht (ht ▸ h)
  | reading ht => exact stepRead_outcome ht (ht ▸ h)

namespace Attempts
variable {x x' : Attempts}

structure Inv (x : Attempts) : Prop where
  threads : ∀ t, ThreadClamped (x.sizes t) (x.sys.thread t)
  finished : ∀ r sizes, (r, sizes) ∈ x.finished → RetClamped sizes r

theorem Inv.start (h : machine.init x) : Inv x := by
  obtain ⟨hidle, hfinished⟩ := h
  constructor
  · intro t
    rw [hidle t]
    trivial
  · intro r sizes hr
    rw [hfinished] at hr
    cases hr

/-- The invariant after a step that moves one thread and adds these returns to the log. -/
theorem Inv.of_move {th : Thread} (rs : List Ret) (h : Inv x)
    (hthread : s'.thread = Function.update x.sys.thread a.thread th)
    (hlog : s'.log = x.sys.log ++ rs) (hok : ThreadClamped (x.sizesAfter a) th)
    (hrs : ∀ r ∈ rs, RetClamped (x.sizesAfter a) r) :
    Inv ⟨s', Function.update x.sizes a.thread (x.sizesAfter a), x.finished ++
      (s'.log.drop x.sys.log.length).map fun r => (r, x.sizesAfter a)⟩ := by
  constructor
  · intro t
    by_cases ht : t = a.thread
    · simp only [ht, hthread, Function.update_self]
      exact hok
    · simp only [hthread, Function.update_of_ne ht]
      exact h.threads t
  · intro r sizes hr
    rw [hlog, List.drop_left, List.mem_append, List.mem_map] at hr
    rcases hr with hold | ⟨r', hr', he⟩
    · exact h.finished r sizes hold
    · obtain ⟨rfl, rfl⟩ := Prod.mk.inj he
      exact hrs r' hr'

/-- The invariant after a step with no return. -/
theorem Inv.of_quiet {th : Thread} (h : Inv x)
    (hthread : s'.thread = Function.update x.sys.thread a.thread th)
    (hlog : s'.log = x.sys.log) (hok : ThreadClamped (x.sizesAfter a) th) :
    Inv ⟨s', Function.update x.sizes a.thread (x.sizesAfter a), x.finished ++
      (s'.log.drop x.sys.log.length).map fun r => (r, x.sizesAfter a)⟩ :=
  h.of_move [] hthread (hlog.trans (List.append_nil _).symm) hok fun _ hr =>
    absurd hr List.not_mem_nil

theorem Inv.step (h : Inv x) (hs : x.step a = some x') : Inv x' := by
  obtain ⟨s', hsys, rfl⟩ := Option.map_eq_some_iff.mp hs
  cases a with
  | write t input =>
    cases step_cases hsys
    exact h.of_quiet (a := .write t input) rfl rfl ⟨rfl, trivial⟩
  | read t len =>
    cases step_cases hsys
    exact h.of_quiet (a := .read t len) rfl rfl ⟨rfl, trivial⟩
  | exec t =>
    cases step_outcome hsys (h.threads t) with
    | goes hthread hlog hok => exact h.of_quiet (a := .exec t) hthread hlog hok
    | @returns r hthread hlog hok =>
      refine h.of_move [r] (a := .exec t) hthread hlog trivial fun r' hr' => ?_
      rw [List.mem_singleton.mp hr']
      exact hok

end Attempts

theorem le_foldr_min (l : List ℕ) (a k : ℕ) : k ≤ l.foldr min a ↔ k ≤ a ∧ ∀ n ∈ l, k ≤ n := by
  induction l with
  | nil => simp
  | cons n l ih =>
    rw [List.foldr_cons, le_min_iff, ih, List.forall_mem_cons]
    tauto

/-- The last size of the attempts decides if and only if no other one is below it and
below the length asked for. -/
theorem Clamped.serves_iff {count req size : ℕ} {failed : List ℕ}
    (h : Clamped count req (size :: failed)) :
    count = min req size ↔ ∀ n ∈ failed, min req size ≤ n := by
  have hle := le_foldr_min failed req (min req size)
  rw [Clamped, List.foldr_cons] at h
  have hreq : failed.foldr min req ≤ req := ((le_foldr_min failed req _).mp le_rfl).1
  constructor
  · intro he
    exact (hle.mp (by omega)).2
  · intro hall
    have := hle.mpr ⟨Nat.min_le_left _ _, hall⟩
    omega

/-- Nobody uses the ring. -/
def unused (r : Ring) : Attempts := ⟨⟨r, fun _ => .idle, [], 0, [], []⟩, fun _ => [], []⟩

theorem unused_init (r : Ring) : Attempts.machine.init (unused r) := ⟨fun _ => rfl, rfl⟩

/-- A writer finds room for one byte, another writer and a reader come first, and the
retry finds more room. -/
def writerOvertaken : List Act :=
  schedule [(.write 0 [1, 2], 3), (.read 2 3, 6), (.write 1 [3], 6), (.exec 0, 6)]

/-- A reader finds one byte, another reader takes it, and the retry finds what a writer
has added. -/
def readerOvertaken : List Act :=
  schedule [(.write 2 [1], 6), (.read 0 2, 3), (.read 1 1, 4), (.write 2 [2, 3], 7), (.exec 0, 4)]

/-- A finished call had attempts, and it returns as many bytes as were asked for and as its
last attempt found if and only if every failed attempt found that many. -/
theorem retries_serve_iff {x : Attempts} (h : Attempts.machine.Reachable Any x) {r : Ret}
    {sizes : List ℕ} (hr : (r, sizes) ∈ x.finished) : ∃ size failed, sizes = size :: failed ∧
      (r.count = min r.req size ↔ ∀ n ∈ failed, min r.req size ≤ n) := by
  have hinv := h.invariant (fun _ => Attempts.Inv.start) fun _ _ _ hi _ hs => hi.step hs
  obtain ⟨hclamped, hne⟩ := hinv.finished r sizes hr
  obtain ⟨size, failed, rfl⟩ := List.exists_cons_of_ne_nil hne
  exact ⟨size, failed, rfl, hclamped.serves_iff⟩

/-- The first attempt of the writer fails. -/
theorem retries_serve_iff_overtaken : ∃ (x : Attempts) (r : Ret) (sizes : List ℕ),
    (r, sizes) ∈ x.finished ∧ sizes.length = 2 ∧ ∃ size failed, sizes = size :: failed ∧
      (r.count = min r.req size ↔ ∀ n ∈ failed, min r.req size ≤ n) := by
  have hrun : ((Attempts.machine.run (unused ⟨2, 0, 0, fun _ => 0⟩) writerOvertaken).any
      fun x => x.finished.any fun y => y.2.length = 2) = true := by decide +kernel
  obtain ⟨x, hx, hany⟩ := reachable_of_run (unused_init _) hrun
  obtain ⟨⟨r, sizes⟩, hr, hlen⟩ := List.any_eq_true.mp hany
  exact ⟨x, r, sizes, hr, of_decide_eq_true hlen, retries_serve_iff hx hr⟩

/-- The count is what the last attempt allows. -/
def ServesLast (r : Ret) (sizes : List ℕ) : Prop :=
  ∃ size failed, sizes = size :: failed ∧ r.count = min r.req size

/-- A call of two bytes whose last attempt finds two or more, and which returns 1. -/
def Shrunk (write : Bool) (y : Ret × List ℕ) : Prop :=
  y.1.isWrite = write ∧ y.1.req = 2 ∧ y.1.count = 1 ∧ 2 ≤ y.2.headD 0

instance (write : Bool) (y : Ret × List ℕ) : Decidable (Shrunk write y) := by
  unfold Shrunk
  infer_instance

theorem Shrunk.not_served {write : Bool} {r : Ret} {sizes : List ℕ} (h : Shrunk write (r, sizes)) :
    ¬ ServesLast r sizes := by
  obtain ⟨-, hreq, hcount, hsize⟩ := h
  rintro ⟨size, failed, rfl, hserves⟩
  simp only [List.headD_cons] at hreq hcount hsize
  omega

/-- A run that ends with such a call. -/
theorem not_served_of_run {write : Bool} {ring : Ring} {as : List Act}
    (h : (Attempts.machine.run (unused ring) as).any
      (fun x => x.finished.any fun y => Shrunk write y) = true) :
    ¬ ∀ x, Attempts.machine.Reachable Any x → ∀ r sizes, (r, sizes) ∈ x.finished →
      r.isWrite = write → ServesLast r sizes := by
  intro hall
  obtain ⟨x, hx, hany⟩ := reachable_of_run (unused_init ring) h
  obtain ⟨⟨r, sizes⟩, hr, hshrunk⟩ := List.any_eq_true.mp hany
  have hshrunk : Shrunk write (r, sizes) := of_decide_eq_true hshrunk
  exact hshrunk.not_served (hall x hx r sizes hr hshrunk.1)

/-- Both calls return one byte of two, where their last attempt finds both. -/
theorem retry_shrinks :
    (¬ ∀ x, Attempts.machine.Reachable Any x → ∀ r sizes, (r, sizes) ∈ x.finished →
      r.isWrite = true → ServesLast r sizes) ∧
    ¬ ∀ x, Attempts.machine.Reachable Any x → ∀ r sizes, (r, sizes) ∈ x.finished →
      r.isWrite = false → ServesLast r sizes :=
  ⟨not_served_of_run (show ((Attempts.machine.run (unused ⟨2, 0, 0, fun _ => 0⟩)
      writerOvertaken).any _) = true by decide +kernel),
    not_served_of_run (show ((Attempts.machine.run (unused Ring.zero)
      readerOvertaken).any _) = true by decide +kernel)⟩

end ShmSocket.RingBuffer
