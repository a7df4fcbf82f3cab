import ShmSocket.RingBuffer.Roles

/-! The history fields of the state, read off the log of finished calls. -/
namespace ShmSocket.RingBuffer
variable {C : Sys → Act → Prop} {s s' : Sys} {t r w : Tid} {a : Act}

/-- The bytes a call of `rb_read` returned. -/
def Ret.read : Ret → List Byte
  | .got _ bytes => bytes
  | .wrote _ _ => []

/-- The bytes a call of `rb_write` accepted. -/
def Ret.written : Ret → List Byte
  | .wrote f count => f.input.take count
  | .got _ _ => []

/-- The concatenation of what the finished `rb_read` calls returned. -/
def Sys.returned (s : Sys) : List Byte := s.log.flatMap Ret.read

/-- The concatenation of what the finished `rb_write` calls accepted. -/
def Sys.written (s : Sys) : List Byte := s.log.flatMap Ret.written

/-- What a step of a call does to its thread and to the log. -/
inductive Outcome (s : Sys) (t : Tid) (threadOk : Thread → Prop) (retOk : Ret → Prop)
    (s' : Sys) : Prop
  | goes {th : Thread} (thread : s'.thread = Function.update s.thread t th)
      (log : s'.log = s.log) (ok : threadOk th)
  | returns {r : Ret} (thread : s'.thread = Function.update s.thread t .idle)
      (log : s'.log = s.log ++ [r]) (ok : retOk r)

/-- The four places where thread `t` returns from a call. -/
inductive Returns (s : Sys) (t : Tid) : Ret → Prop
  | full {f : WriteFrame} (ht : s.thread t = .writing .loadOldtail f)
      (hz : min (writeSize f.head f.tail) f.len = 0) :
      Returns s t (.wrote { f with
        oldTail := s.ring.oldtail
        len := min (writeSize f.head f.tail) f.len } 0)
  | wrote {f : WriteFrame} (ht : s.thread t = .writing .casOldtail f)
      (hcas : s.ring.oldtail = f.tail) : Returns s t (.wrote f f.len)
  | empty {f : ReadFrame} (ht : s.thread t = .reading .loadOldtail f)
      (hz : min (readSize f.head s.ring.oldtail) f.len = 0) :
      Returns s t (.got { f with
        tail := s.ring.oldtail
        tailAt := s.published
        len := min (readSize f.head s.ring.oldtail) f.len
        out := [] } [])
  | got {f : ReadFrame} (ht : s.thread t = .reading .casHead f) (hcas : s.ring.head = f.head) :
      Returns s t (.got f f.out)

/-- What a step does to the log and to the streams. -/
structure Logs (s s' : Sys) (rs : List Ret) : Prop where
  log : s'.log = s.log ++ rs
  delivered : s'.delivered = s.delivered ++ rs.flatMap Ret.read
  accepted : s.accepted <+: s'.accepted
  published : s'.published = s.published + (rs.map fun
    | .wrote _ count => count
    | .got _ _ => 0).sum

theorem Logs.silent (hl : s'.log = s.log) (hd : s'.delivered = s.delivered)
    (ha : s.accepted <+: s'.accepted) (hp : s'.published = s.published) : Logs s s' [] :=
  ⟨by simp [hl], by simp [hd], ha, by simp [hp]⟩

/-- A step returns from at most one call, and only at one of the four places. -/
theorem step_logs (hs : s.step a = some s') :
    Logs s s' [] ∨ ∃ t r, a = .exec t ∧ Returns s t r ∧ Logs s s' [r] := by
  cases step_cases hs with
  | write => exact Or.inl (.silent rfl rfl List.prefix_rfl rfl)
  | read => exact Or.inl (.silent rfl rfl List.prefix_rfl rfl)
  | @writing t pc f ht =>
    cases pc with
    | loadHead => exact Or.inl (.silent rfl rfl List.prefix_rfl rfl)
    | loadTail => exact Or.inl (.silent rfl rfl List.prefix_rfl rfl)
    | loadOldtail =>
      simp only [Sys.stepWrite]
      split_ifs with hz
      · exact Or.inr ⟨t, _, rfl, .full ht hz, rfl, by simp [Sys.ret, Sys.setThread, Ret.read],
          List.prefix_rfl, by simp [Sys.ret, Sys.setThread]⟩
      · exact Or.inl (.silent rfl rfl List.prefix_rfl rfl)
    | casTail =>
      simp only [Sys.stepWrite]
      split_ifs
      · exact Or.inl (.silent rfl rfl (List.prefix_append _ _) rfl)
      · exact Or.inl (.silent rfl rfl List.prefix_rfl rfl)
    | copy k => exact Or.inl (.silent rfl rfl List.prefix_rfl rfl)
    | casOldtail =>
      simp only [Sys.stepWrite]
      split_ifs with hcas
      · exact Or.inr ⟨t, _, rfl, .wrote ht hcas, rfl,
          by simp [Sys.ret, Sys.setThread, Ret.read], List.prefix_rfl,
          by simp [Sys.ret, Sys.setThread]⟩
      · exact Or.inl (.silent rfl rfl List.prefix_rfl rfl)
  | @reading t pc f ht =>
    cases pc with
    | loadHead => exact Or.inl (.silent rfl rfl List.prefix_rfl rfl)
    | loadOldtail =>
      simp only [Sys.stepRead]
      split_ifs with hz
      · exact Or.inr ⟨t, _, rfl, .empty ht hz, rfl, by simp [Sys.ret, Sys.setThread, Ret.read],
          List.prefix_rfl, by simp [Sys.ret, Sys.setThread]⟩
      · exact Or.inl (.silent rfl rfl List.prefix_rfl rfl)
    | copy => exact Or.inl (.silent rfl rfl List.prefix_rfl rfl)
    | casHead =>
      simp only [Sys.stepRead]
      split_ifs with hcas
      · exact Or.inr ⟨t, _, rfl, .got ht hcas, rfl, by simp [Sys.ret, Sys.setThread, Ret.read],
          List.prefix_rfl, by simp [Sys.ret, Sys.setThread]⟩
      · exact Or.inl (.silent rfl rfl List.prefix_rfl rfl)

/-- What the finished reads returned is what left the ring, on every run. -/
theorem returned_eq (h : machine.Reachable C s) : s.returned = s.delivered := by
  refine h.invariant (P := fun s => s.returned = s.delivered) ?_ ?_
  · rintro s ⟨content, rfl⟩
    rfl
  · intro s a s' hp _ hs
    have hlog : ∀ rs, Logs s s' rs → s'.returned = s'.delivered := by
      intro rs hl
      rw [Sys.returned, hl.log, List.flatMap_append, hl.delivered, ← hp]
      rfl
    rcases step_logs hs with hl | ⟨_, _, _, _, hl⟩
    · exact hlog _ hl
    · exact hlog _ hl

/-- The finished writes are the published part of the stream, in stream order. -/
def WrittenOk (s : Sys) : Prop := s.written = s.accepted.take s.published

theorem WrittenOk.step (hi : Inv s) (h : WrittenOk s) (hs : s.step a = some s') :
    WrittenOk s' := by
  have hgrow : ∀ p ≤ s.accepted.length, s.accepted <+: s'.accepted →
      s'.accepted.take p = s.accepted.take p := by
    rintro p hp ⟨more, hm⟩
    rw [← hm, List.take_append_of_le_length hp]
  unfold WrittenOk Sys.written at h ⊢
  rcases step_logs hs with hl | ⟨t, r, rfl, hr, hl⟩
  · rw [hl.log, List.append_nil, h, hl.published, List.map_nil, List.sum_nil, Nat.add_zero,
      hgrow _ hi.reserved hl.accepted]
  · rw [hl.log, List.flatMap_append, h, hl.published]
    cases hr with
    | wrote ht hcas =>
      next f =>
      have hp := published_eq hi ht hcas
      have hok : ThreadOk s (s.thread t) := hi.threads t
      rw [ht] at hok
      have hok : Reserves s f f.len := hok
      have hacc := hok.accepted
      have hbytes : (s.accepted.drop s.published).take f.len = f.input.take f.len := by
        apply List.ext_getElem?
        intro j
        by_cases hj : j < f.len
        · have hin : j < f.input.length := lt_of_lt_of_le hj hok.fits
          rw [List.getElem?_take_of_lt hj, List.getElem?_take_of_lt hj, List.getElem?_drop, hp,
            hok.bytes j hj, List.getD_eq_getElem?_getD, List.getElem?_eq_getElem hin,
            Option.getD_some]
        · rw [List.getElem?_take, List.getElem?_take, if_neg hj, if_neg hj]
      simp only [List.map_singleton, List.sum_singleton, List.flatMap_singleton, Ret.written]
      rw [hgrow _ (by omega) hl.accepted, List.take_add, hbytes]
    | full ht hz => simp [Ret.written, hgrow _ hi.reserved hl.accepted]
    | empty ht hz => simp [Ret.written, hgrow _ hi.reserved hl.accepted]
    | got ht hcas => simp [Ret.written, hgrow _ hi.reserved hl.accepted]

/-- Every finished call computed its count from exact header words. -/
def LogExact (s : Sys) : Prop :=
  ∀ r ∈ s.log, match r with
    | .wrote f count => f.Exact ∧ count = f.len
    | .got f bytes => f.Exact ∧ bytes.length = f.len

theorem LogExact.step (hi : Inv s) (hr : SoleReader r s) (hw : SoleWriter w s) (h : LogExact s)
    (hs : s.step a = some s') : LogExact s' := by
  rcases step_logs hs with hl | ⟨t, r', rfl, hret, hl⟩
  · intro x hx
    rw [hl.log, List.append_nil] at hx
    exact h x hx
  · intro x hx
    rw [hl.log, List.mem_append, List.mem_singleton] at hx
    rcases hx with hx | rfl
    · exact h x hx
    have hok : ThreadOk s (s.thread t) := hi.threads t
    have hat : ∀ pc f, s.thread t = .writing pc f → WriterAt s (.writing pc f) := by
      intro pc f ht
      obtain rfl := hw.1 t pc f ht
      exact ht ▸ hw.2
    cases hret with
    | full ht hz =>
      rw [ht] at hok
      obtain ⟨_, hlen, hlap, htl, himg⟩ := hat _ _ ht
      exact ⟨write_exact hi hok.2 hlen hlap htl himg, hz.symm⟩
    | wrote ht hcas => exact ⟨(hat _ _ ht).2.2, rfl⟩
    | empty ht hz =>
      rw [ht] at hok
      obtain ⟨_, hreq, hcur⟩ := hr t _ _ ht
      exact ⟨read_exact hi hok hcur hreq, hz.symm⟩
    | got ht hcas =>
      rw [ht] at hok
      exact ⟨(hr t _ _ ht).2.2, hok.2.1⟩

end ShmSocket.RingBuffer
