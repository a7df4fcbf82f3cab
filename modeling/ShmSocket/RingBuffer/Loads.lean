import ShmSocket.RingBuffer.Stream

/-! What the loads of a call find. Every call is watched from outside: which call it is, and
in which states of the ring it has executed its loads. -/
namespace ShmSocket.RingBuffer

/-- A call and the states in which it has loaded `head` and, after that, `tail` (in
`rb_write`) or `oldtail` (in `rb_read`) for the last time. -/
structure Watch where
  call : Act
  head : Option Sys
  tail : Option Sys

/-- The calls with what their loads have found: those in progress and those that have
returned. -/
structure Watched where
  sys : Sys
  watch : Tid → Watch
  finished : List (Ret × Watch)

namespace Watched

/-- The call of a thread after its step: a load happens in the state before the step. -/
def watchAfter (x : Watched) : Act → Watch
  | .exec t => match x.sys.thread t with
      | .writing .loadHead _ | .reading .loadHead _ => { x.watch t with head := some x.sys }
      | .writing .loadTail _ | .reading .loadOldtail _ => { x.watch t with tail := some x.sys }
      | _ => x.watch t
  | a => ⟨a, none, none⟩

def step (x : Watched) (a : Act) : Option Watched :=
  (x.sys.step a).map fun sys =>
    { sys
      watch := Function.update x.watch a.thread (x.watchAfter a)
      finished := x.finished ++
        (sys.log.drop x.sys.log.length).map fun r => (r, x.watchAfter a) }

def machine : StepMachine Watched Act where
  init x := RingBuffer.machine.init x.sys ∧ x.finished = []
  step := step

end Watched

/-- The head of an attempt is the one that its load has found. -/
def HeadLoaded (v : Watch) (head headAt : ℕ) : Prop :=
  ∃ s, v.head = some s ∧ head = s.ring.head ∧ headAt = s.delivered.length

/-- The tail of a write's attempt is the one that its load has found. -/
def WriteLoaded (v : Watch) (f : WriteFrame) : Prop :=
  HeadLoaded v f.head f.headAt ∧
    ∃ s, v.tail = some s ∧ f.tail = s.ring.tail ∧ f.tailAt = s.accepted.length

/-- The tail of a read's attempt is the `oldtail` that its load has found. Nothing has been
consumed since the head was loaded. -/
def ReadLoaded (v : Watch) (f : ReadFrame) : Prop :=
  HeadLoaded v f.head f.headAt ∧ ∃ s, v.tail = some s ∧ f.tail = s.ring.oldtail ∧
    f.tailAt = s.published ∧ f.headAt = s.delivered.length

/-- The watched call of a thread is the one it is in, and so are its loads. -/
def ThreadWatched (t : Tid) (v : Watch) : Thread → Prop
  | .idle => True
  | .writing pc f => v.call = .write t f.input ∧ match pc with
    | .loadHead => True
    | .loadTail => HeadLoaded v f.head f.headAt
    | .loadOldtail | .casTail | .copy _ | .casOldtail => WriteLoaded v f
  | .reading pc f => v.call = .read t f.req ∧ match pc with
    | .loadHead => True
    | .loadOldtail => HeadLoaded v f.head f.headAt
    | .copy | .casHead => ReadLoaded v f

/-- The same for a call that has returned. -/
def RetWatched (t : Tid) (v : Watch) : Ret → Prop
  | .wrote f _ => v.call = .write t f.input ∧ WriteLoaded v f
  | .got f _ => v.call = .read t f.req ∧ ReadLoaded v f

variable {x x' : Watched} {s' : Sys} {w r t : Tid} {a : Act}

theorem stepWrite_watched {pc : WritePc} {f : WriteFrame} (hw : SoleWriter w x.sys)
    (ht : x.sys.thread t = .writing pc f)
    (h : ThreadWatched t (x.watch t) (.writing pc f)) :
    Outcome x.sys t (ThreadWatched t (x.watchAfter (.exec t)))
      (RetWatched t (x.watchAfter (.exec t))) (x.sys.stepWrite t pc f) := by
  obtain ⟨hcall, hpc⟩ := h
  cases pc with
  | loadHead =>
    simp only [Watched.watchAfter, ht]
    exact .goes rfl rfl ⟨hcall, x.sys, rfl, rfl, rfl⟩
  | loadTail =>
    simp only [Watched.watchAfter, ht]
    exact .goes rfl rfl ⟨hcall, hpc, x.sys, rfl, rfl, rfl⟩
  | loadOldtail =>
    simp only [Watched.watchAfter, ht, Sys.stepWrite]
    split_ifs
    · exact .returns rfl rfl ⟨hcall, hpc⟩
    · exact .goes rfl rfl ⟨hcall, hpc⟩
  | casTail =>
    simp only [Watched.watchAfter, ht, Sys.stepWrite]
    -- the only writer has reserved nothing since it loaded the tail
    have hat : f.tailAt = x.sys.accepted.length := by
      obtain rfl := hw.1 t _ f ht
      have hwriter := hw.2
      rw [ht] at hwriter
      exact hwriter.2.1
    split_ifs
    · rw [← hat]
      exact .goes rfl rfl ⟨hcall, hpc⟩
    · exact .goes rfl rfl ⟨hcall, trivial⟩
  | copy k =>
    simp only [Watched.watchAfter, ht, Sys.stepWrite]
    refine .goes rfl rfl ?_
    split_ifs
    · exact ⟨hcall, hpc⟩
    · exact ⟨hcall, hpc⟩
  | casOldtail =>
    simp only [Watched.watchAfter, ht, Sys.stepWrite]
    split_ifs
    · exact .returns rfl rfl ⟨hcall, hpc⟩
    · exact .goes (Function.update_eq_self t x.sys.thread).symm rfl (ht ▸ ⟨hcall, hpc⟩)

theorem stepRead_watched {pc : ReadPc} {f : ReadFrame} (hr : SoleReader r x.sys)
    (ht : x.sys.thread t = .reading pc f)
    (h : ThreadWatched t (x.watch t) (.reading pc f)) :
    Outcome x.sys t (ThreadWatched t (x.watchAfter (.exec t)))
      (RetWatched t (x.watchAfter (.exec t))) (x.sys.stepRead t pc f) := by
  obtain ⟨hcall, hpc⟩ := h
  cases pc with
  | loadHead =>
    simp only [Watched.watchAfter, ht]
    exact .goes rfl rfl ⟨hcall, x.sys, rfl, rfl, rfl⟩
  | loadOldtail =>
    simp only [Watched.watchAfter, ht, Sys.stepRead]
    have hat : f.headAt = x.sys.delivered.length := (hr t _ f ht).2.2
    split_ifs
    · exact .returns rfl rfl ⟨hcall, hpc, x.sys, rfl, rfl, rfl, hat⟩
    · exact .goes rfl rfl ⟨hcall, hpc, x.sys, rfl, rfl, rfl, hat⟩
  | copy =>
    simp only [Watched.watchAfter, ht, Sys.stepRead]
    refine .goes rfl rfl ?_
    split_ifs
    · exact ⟨hcall, hpc⟩
    · exact ⟨hcall, hpc⟩
  | casHead =>
    simp only [Watched.watchAfter, ht, Sys.stepRead]
    split_ifs
    · exact .returns rfl rfl ⟨hcall, hpc⟩
    · exact .goes rfl rfl ⟨hcall, trivial⟩

namespace Watched

/-- All calls in progress and all that have returned are watched. -/
structure Right (x : Watched) : Prop where
  threads : ∀ t, ThreadWatched t (x.watch t) (x.sys.thread t)
  log : x.finished.map Prod.fst = x.sys.log
  finished : ∀ ret v, (ret, v) ∈ x.finished → ∃ t, RetWatched t v ret

theorem Right.start (h : machine.init x) : Right x := by
  obtain ⟨⟨content, hsys⟩, hfinished⟩ := h
  refine ⟨fun t => ?_, ?_, fun ret v hr => ?_⟩
  · rw [hsys]
    trivial
  · rw [hfinished, hsys]
    rfl
  · rw [hfinished] at hr
    cases hr

/-- A step that moves one thread and adds these returns to the log. -/
theorem Right.of_move {th : Thread} (rs : List Ret) (h : Right x)
    (hthread : s'.thread = Function.update x.sys.thread a.thread th)
    (hlog : s'.log = x.sys.log ++ rs) (hok : ThreadWatched a.thread (x.watchAfter a) th)
    (hrs : ∀ ret ∈ rs, RetWatched a.thread (x.watchAfter a) ret) :
    Right ⟨s', Function.update x.watch a.thread (x.watchAfter a), x.finished ++
      (s'.log.drop x.sys.log.length).map fun ret => (ret, x.watchAfter a)⟩ := by
  rw [hlog, List.drop_left]
  refine ⟨fun t => ?_, ?_, fun ret v hr => ?_⟩
  · by_cases ht : t = a.thread
    · simp only [ht, hthread, Function.update_self]
      exact hok
    · simp only [hthread, Function.update_of_ne ht]
      exact h.threads t
  · simp only [List.map_append, List.map_map, h.log, hlog]
    exact congrArg _ (List.map_id rs)
  · rcases List.mem_append.mp hr with hold | hnew
    · exact h.finished ret v hold
    · obtain ⟨ret', hmem, he⟩ := List.mem_map.mp hnew
      obtain ⟨rfl, rfl⟩ := Prod.mk.inj he
      exact ⟨a.thread, hrs ret' hmem⟩

theorem Right.of_outcome (h : Right x)
    (ho : Outcome x.sys t (ThreadWatched t (x.watchAfter (.exec t)))
      (RetWatched t (x.watchAfter (.exec t))) s') :
    Right ⟨s', Function.update x.watch t (x.watchAfter (.exec t)), x.finished ++
      (s'.log.drop x.sys.log.length).map fun ret => (ret, x.watchAfter (.exec t))⟩ := by
  cases ho with
  | goes hthread hlog hok =>
    exact h.of_move [] (a := .exec t) hthread (hlog.trans (List.append_nil _).symm) hok
      fun _ hr => absurd hr List.not_mem_nil
  | @returns ret hthread hlog hok =>
    refine h.of_move [ret] (a := .exec t) hthread hlog trivial fun ret' hr => ?_
    rw [List.mem_singleton.mp hr]
    exact hok

theorem Right.step (h : Right x) (hw : SoleWriter w x.sys) (hr : SoleReader r x.sys)
    (hs : x.step a = some x') : Right x' := by
  obtain ⟨s', hsys, rfl⟩ := Option.map_eq_some_iff.mp hs
  have hcall : ∀ th, s'.thread = Function.update x.sys.thread a.thread th →
      s'.log = x.sys.log → ThreadWatched a.thread (x.watchAfter a) th → Right _ :=
    fun th hthread hlog hok => h.of_move [] hthread (hlog.trans (List.append_nil _).symm) hok
      fun _ hr => absurd hr List.not_mem_nil
  cases step_cases hsys with
  | write ht => exact hcall _ rfl rfl ⟨rfl, trivial⟩
  | read ht => exact hcall _ rfl rfl ⟨rfl, trivial⟩
  | @writing t pc f ht => exact h.of_outcome (stepWrite_watched hw ht (ht ▸ h.threads t))
  | @reading t pc f ht => exact h.of_outcome (stepRead_watched hr ht (ht ▸ h.threads t))

end Watched

/-- The runs of one writer and one reader with all their calls watched. -/
theorem watched_of_reachable
    (h : Watched.machine.Reachable (fun x a => OneToOne w r x.sys a) x) :
    machine.Reachable (OneToOne w r) x.sys ∧ x.Right := by
  refine h.invariant (P := fun x => machine.Reachable (OneToOne w r) x.sys ∧ x.Right) ?_ ?_
  · rintro x h0
    exact ⟨.init h0.1, .start h0⟩
  · rintro x a x' ⟨hr, hx⟩ ho hs
    have hst := Stream.of_reachable hr
    have hx' := hx.step hst.writer hst.reader hs
    obtain ⟨s', hsys, rfl⟩ := Option.map_eq_some_iff.mp hs
    exact ⟨hr.step ho hsys, hx'⟩

/-- One writer, one reader: what the reads returned is a prefix of what the writes
accepted, every count is the one that the header words allow as the call's loads find them,
no swap fails, and a read comes back empty-handed only if there were no published bytes in
the ring when it loaded `oldtail`. -/
theorem stream_correct (h : Watched.machine.Reachable (fun x a => OneToOne w r x.sys a) x) :
    (x.sys.returned <+: x.sys.written ∧ x.sys.written <+: x.sys.accepted) ∧
    x.finished.map Prod.fst = x.sys.log ∧
    (∀ f count v, (Ret.wrote f count, v) ∈ x.finished → ∃ t s₁ s₂,
      v = ⟨.write t f.input, some s₁, some s₂⟩ ∧
      count = min f.input.length (shmDataSize - 1 - occupancy s₁.ring.head s₂.ring.tail) ∧
      occupancy s₁.ring.head s₂.ring.tail = s₂.accepted.length - s₁.delivered.length) ∧
    (∀ f bytes v, (Ret.got f bytes, v) ∈ x.finished → ∃ t s₁ s₂,
      v = ⟨.read t f.req, some s₁, some s₂⟩ ∧
      bytes.length = min f.req (occupancy s₁.ring.head s₂.ring.oldtail) ∧
      occupancy s₁.ring.head s₂.ring.oldtail = s₂.published - s₁.delivered.length ∧
      (bytes = [] → 0 < f.req → s₂.published = s₂.delivered.length)) ∧
    SwapsSucceed x.sys ∧
    ∀ t f, x.sys.thread t = .reading .casHead f → x.sys.ring.head = f.head := by
  obtain ⟨hr, hright⟩ := watched_of_reachable h
  have hst := Stream.of_reachable hr
  have hlogged : ∀ ret v, (ret, v) ∈ x.finished → ret ∈ x.sys.log := fun ret v hmem =>
    hright.log ▸ List.mem_map_of_mem (f := Prod.fst) hmem
  refine ⟨⟨?_, ?_⟩, hright.log, fun f count v hmem => ?_, fun f bytes v hmem => ?_,
    hst.writer_swaps, hst.reader_swaps⟩
  · rw [returned_eq hr, hst.written]
    exact List.prefix_take_iff.mpr ⟨hst.inv.stream, hst.inv.consumed⟩
  · rw [hst.written]
    exact List.take_prefix _ _
  · obtain ⟨t, hcall, ⟨s₁, hhead, hword, hat⟩, s₂, htail, hword', hat'⟩ :=
      hright.finished _ v hmem
    obtain ⟨hcount, hocc⟩ := hst.wrote (hlogged _ _ hmem)
    rw [hword, hword'] at hcount
    rw [hword, hword', hat, hat'] at hocc
    refine ⟨t, s₁, s₂, ?_, hcount, hocc⟩
    rw [← hcall, ← hhead, ← htail]
  · obtain ⟨t, hcall, ⟨s₁, hhead, hword, hat⟩, s₂, htail, hword', hat', hsame⟩ :=
      hright.finished _ v hmem
    obtain ⟨hcount, hocc⟩ := hst.got (hlogged _ _ hmem)
    have hle := (hst.log _ (hlogged _ _ hmem)).1.le
    rw [hword, hword'] at hcount
    rw [hword, hword', hat, hat'] at hocc
    refine ⟨t, s₁, s₂, ?_, hcount, hocc, fun hnil hreq => ?_⟩
    · rw [← hcall, ← hhead, ← htail]
    · rw [hnil, List.length_nil] at hcount
      omega

/-- A read starts when a write has copied its first byte, and another write comes while a
read copies. -/
def overlapping : List Act :=
  schedule [(.write 0 [1, 2, 3], 5), (.read 1 5, 2), (.exec 0, 2), (.read 1 2, 3),
    (.write 0 [4], 6), (.exec 1, 1)]

/-- All four calls have returned, the first read with nothing. -/
theorem stream_correct_overlapping : ∃ x : Watched, x.finished.length = 4 ∧
    x.sys.returned = [1, 2] ∧ x.sys.written = [1, 2, 3, 4] ∧
    x.sys.written <+: x.sys.accepted := by
  obtain ⟨x, hr, hx⟩ := StepMachine.reachable_of_guarded (M := Watched.machine)
    (C := fun x a => OneToOne 0 1 x.sys a) (fun _ _ => of_decide_eq_true) (l := overlapping)
    (P := fun x => decide (x.finished.length = 4 ∧ x.sys.returned = [1, 2] ∧
      x.sys.written = [1, 2, 3, 4]))
    (s := ⟨.start fun _ => 0, fun _ => ⟨.exec 0, none, none⟩, []⟩) ⟨⟨_, rfl⟩, rfl⟩
    (by decide +kernel)
  obtain ⟨hfinished, hreturned, hwritten⟩ := of_decide_eq_true hx
  exact ⟨x, hfinished, hreturned, hwritten, (stream_correct hr).1.2⟩

end ShmSocket.RingBuffer
