import ShmSocket.RingBuffer.Progress

/-! The header words are the books of the finished calls, in every interleaving of any
readers and writers: also when `tail` laps a loaded head and bytes are lost, a ring on which
nothing is reserved is settled, and the next calls find a queue. -/
namespace ShmSocket.RingBuffer
open StepMachine
variable {s s' : Sys} {t : Tid} {a : Act} {T : Finset Tid}

/-- The bytes a finished call accepted. -/
def Ret.length : Ret → ℕ
  | .wrote _ count => count
  | .got _ _ => 0

/-- The bytes a call has reserved and not yet published. -/
def Thread.reserved : Thread → ℕ
  | .writing (.copy _) f | .writing .casOldtail f => f.len
  | _ => 0

/-- The lengths of an attempt, whatever the other calls do. -/
def Thread.Sized : Thread → Prop
  | .idle => True
  | .writing .loadHead f => f.len ≤ f.input.length
  | .writing .loadTail f | .writing .loadOldtail f =>
      f.len ≤ f.input.length ∧ f.head < shmDataSize
  | .writing .casTail f => f.len ≤ f.input.length ∧ f.len < shmDataSize
  | .writing (.copy _) f | .writing .casOldtail f => f.len < shmDataSize
  | .reading .loadHead _ => True
  | .reading .loadOldtail f => f.head < shmDataSize
  | .reading .copy f => f.out.length < f.len ∧ f.len < shmDataSize
  | .reading .casHead f => f.out.length = f.len ∧ f.len < shmDataSize

/-- The header words and the histories agree, and what is reserved and unpublished is what
the calls of `T` hold. -/
structure Accounts (T : Finset Tid) (s : Sys) : Prop where
  head : s.ring.head = s.delivered.length % shmDataSize
  tail : s.ring.tail = s.accepted.length % shmDataSize
  oldtail : s.ring.oldtail = s.published % shmDataSize
  within : Within T s
  sized : ∀ t, (s.thread t).Sized
  sum : s.accepted.length = s.published + ∑ t ∈ T, (s.thread t).reserved

theorem writeSize_lt {head tail : ℕ} (hh : head < shmDataSize) :
    writeSize head tail < shmDataSize := by
  unfold writeSize
  split_ifs <;> omega

theorem sized_update {th : Thread} (hall : ∀ t, (s.thread t).Sized) (hnew : th.Sized)
    (hth : s'.thread = Function.update s.thread t th) (u : Tid) : (s'.thread u).Sized := by
  rw [hth]
  by_cases hu : u = t
  · rw [hu, Function.update_self]
    exact hnew
  · rw [Function.update_of_ne hu]
    exact hall u

/-- One thread's share of the reservations changes. -/
theorem sum_reserved_update {th : Thread} (ht : t ∈ T)
    (hth : s'.thread = Function.update s.thread t th) :
    ∑ u ∈ T, (s'.thread u).reserved + (s.thread t).reserved =
      ∑ u ∈ T, (s.thread u).reserved + th.reserved := by
  classical
  have hsplit : ∀ f : Tid → ℕ, ∑ u ∈ T, f u = f t + ∑ u ∈ T.erase t, f u := fun f =>
    (Finset.add_sum_erase T f ht).symm
  have hrest : ∑ u ∈ T.erase t, (s'.thread u).reserved =
      ∑ u ∈ T.erase t, (s.thread u).reserved := by
    apply Finset.sum_congr rfl
    intro u hu
    rw [hth, Function.update_of_ne (Finset.ne_of_mem_erase hu)]
  rw [hsplit, hsplit, hrest, hth, Function.update_self]
  omega

namespace Accounts

/-- A thread steps; the books are balanced with what it then holds. -/
theorem of_step {th : Thread} (h : Accounts T s) (ht : t ∈ T)
    (hth : s'.thread = Function.update s.thread t th) (hnew : th.Sized)
    (hhead : s'.ring.head = s'.delivered.length % shmDataSize)
    (htail : s'.ring.tail = s'.accepted.length % shmDataSize)
    (hold : s'.ring.oldtail = s'.published % shmDataSize)
    (hsum : s'.accepted.length + s.published + (s.thread t).reserved =
      s.accepted.length + s'.published + th.reserved) : Accounts T s' where
  head := hhead
  tail := htail
  oldtail := hold
  within := by
    have hw := h.within.of_step hth
    rwa [Finset.insert_eq_of_mem ht] at hw
  sized := sized_update h.sized hnew hth
  sum := by
    have hshare := sum_reserved_update ht hth
    have hall := h.sum
    omega

/-- A step that leaves the segment and the histories alone. -/
theorem of_local {th : Thread} (h : Accounts T s) (ht : t ∈ T)
    (hth : s'.thread = Function.update s.thread t th) (hnew : th.Sized)
    (hring : s'.ring = s.ring) (hd : s'.delivered = s.delivered)
    (ha : s'.accepted = s.accepted) (hp : s'.published = s.published)
    (hsame : th.reserved = (s.thread t).reserved) : Accounts T s' := by
  apply h.of_step ht hth hnew
  · rw [hring, hd, h.head]
  · rw [hring, ha, h.tail]
  · rw [hring, hp, h.oldtail]
  · rw [ha, hp, hsame]

theorem insert (h : Accounts T s) (ht : s.thread t = .idle) : Accounts (insert t T) s where
  head := h.head
  tail := h.tail
  oldtail := h.oldtail
  within := fun u hu => h.within u fun hmem => hu (Finset.mem_insert_of_mem hmem)
  sized := h.sized
  sum := by
    by_cases hmem : t ∈ T
    · rw [Finset.insert_eq_of_mem hmem, h.sum]
    · rw [Finset.sum_insert hmem, ht, h.sum]
      simp [Thread.reserved]

theorem head_lt (h : Accounts T s) : s.ring.head < shmDataSize := by
  rw [h.head]
  exact Nat.mod_lt _ shmDataSize_pos

theorem oldtail_lt (h : Accounts T s) : s.ring.oldtail < shmDataSize := by
  rw [h.oldtail]
  exact Nat.mod_lt _ shmDataSize_pos

theorem stepWrite {pc : WritePc} {f : WriteFrame} (h : Accounts T s) (ht : t ∈ T)
    (hpc : s.thread t = .writing pc f) : Accounts T (s.stepWrite t pc f) := by
  have hf := h.sized t
  rw [hpc] at hf
  cases pc with
  | loadHead => exact h.of_local ht rfl ⟨hf, h.head_lt⟩ rfl rfl rfl rfl (by rw [hpc]; rfl)
  | loadTail => exact h.of_local ht rfl hf rfl rfl rfl rfl (by rw [hpc]; rfl)
  | loadOldtail =>
    simp only [Sys.stepWrite]
    split_ifs
    · exact h.of_local ht rfl trivial rfl rfl rfl rfl (by rw [hpc]; rfl)
    · refine h.of_local ht rfl ⟨(Nat.min_le_right _ _).trans hf.1, ?_⟩ rfl rfl rfl rfl
        (by rw [hpc]; rfl)
      exact lt_of_le_of_lt (Nat.min_le_left _ _) (writeSize_lt hf.2)
  | casTail =>
    by_cases hcas : s.ring.tail = f.tail
    · have htake : (f.input.take f.len).length = f.len := by
        rw [List.length_take, Nat.min_eq_left hf.1]
      simp only [Sys.stepWrite, if_pos hcas]
      apply h.of_step ht rfl
      · exact hf.2
      · exact h.head
      · change advance f.tail f.len = (s.accepted ++ f.input.take f.len).length % shmDataSize
        rw [← hcas, h.tail, advance_mod hf.2, List.length_append, htake]
      · exact h.oldtail
      · rw [hpc]
        change (s.accepted ++ f.input.take f.len).length + s.published + 0 =
          s.accepted.length + s.published + f.len
        rw [List.length_append, htake]
        omega
    · simp only [Sys.stepWrite, if_neg hcas]
      exact h.of_local ht rfl hf.1 rfl rfl rfl rfl (by rw [hpc]; rfl)
  | copy k =>
    refine h.of_step ht rfl ?_ h.head h.tail h.oldtail ?_
    · split_ifs <;> exact hf
    · rw [hpc]
      split_ifs <;> rfl
  | casOldtail =>
    by_cases hcas : s.ring.oldtail = f.tail
    · simp only [Sys.stepWrite, if_pos hcas]
      apply h.of_step ht rfl
      · trivial
      · exact h.head
      · exact h.tail
      · change advance f.tail f.len = (s.published + f.len) % shmDataSize
        rw [← hcas, h.oldtail, advance_mod hf]
      · rw [hpc]
        change s.accepted.length + s.published + f.len =
          s.accepted.length + (s.published + f.len) + 0
        omega
    · simp only [Sys.stepWrite, if_neg hcas]
      exact h

theorem stepRead {pc : ReadPc} {f : ReadFrame} (h : Accounts T s) (ht : t ∈ T)
    (hpc : s.thread t = .reading pc f) : Accounts T (s.stepRead t pc f) := by
  have hf := h.sized t
  rw [hpc] at hf
  cases pc with
  | loadHead => exact h.of_local ht rfl h.head_lt rfl rfl rfl rfl (by rw [hpc]; rfl)
  | loadOldtail =>
    simp only [Sys.stepRead]
    split_ifs with hz
    · exact h.of_local ht rfl trivial rfl rfl rfl rfl (by rw [hpc]; rfl)
    · refine h.of_local ht rfl ⟨Nat.pos_of_ne_zero hz, ?_⟩ rfl rfl rfl rfl (by rw [hpc]; rfl)
      exact lt_of_le_of_lt (Nat.min_le_left _ _) (readSize_lt hf h.oldtail_lt)
  | copy =>
    refine h.of_local ht rfl ?_ rfl rfl rfl rfl (by rw [hpc]; split_ifs <;> rfl)
    split_ifs with hmore
    · exact ⟨hmore, hf.2⟩
    · refine ⟨?_, hf.2⟩
      have hk := hf.1
      simp only [List.length_append, List.length_singleton] at hmore ⊢
      omega
  | casHead =>
    by_cases hcas : s.ring.head = f.head
    · simp only [Sys.stepRead, if_pos hcas]
      apply h.of_step ht rfl
      · trivial
      · change advance f.head f.len = (s.delivered ++ f.out).length % shmDataSize
        rw [← hcas, h.head, advance_mod hf.2, List.length_append, hf.1]
      · exact h.tail
      · exact h.oldtail
      · rw [hpc]
        rfl
    · simp only [Sys.stepRead, if_neg hcas]
      exact h.of_local ht rfl trivial rfl rfl rfl rfl (by rw [hpc]; rfl)

theorem step (h : Accounts T s) (hs : s.step a = some s') : ∃ T', Accounts T' s' := by
  have hmem : ∀ t, s.thread t ≠ .idle → t ∈ T := fun t ht => by
    by_contra hnot
    exact ht (h.within t hnot)
  cases step_cases hs with
  | @write t input ht =>
    exact ⟨_, (h.insert ht).of_local (Finset.mem_insert_self _ _) rfl le_rfl rfl rfl rfl rfl
      (by rw [ht]; rfl)⟩
  | @read t len ht =>
    exact ⟨_, (h.insert ht).of_local (Finset.mem_insert_self _ _) rfl trivial rfl rfl rfl rfl
      (by rw [ht]; rfl)⟩
  | @writing t pc f ht => exact ⟨T, h.stepWrite (hmem t (by simp [ht])) ht⟩
  | @reading t pc f ht => exact ⟨T, h.stepRead (hmem t (by simp [ht])) ht⟩

theorem start (content : ℕ → Byte) : Accounts ∅ (Sys.start content) where
  head := (Nat.zero_mod _).symm
  tail := (Nat.zero_mod _).symm
  oldtail := (Nat.zero_mod _).symm
  within := fun _ _ => rfl
  sized := fun _ => trivial
  sum := rfl

theorem settled (h : Accounts T s) (hnone : ∀ t, (s.thread t).reserved = 0) :
    s.ring.Settled where
  head := h.head_lt
  tail := by
    rw [h.tail]
    exact Nat.mod_lt _ shmDataSize_pos
  oldtail := by
    have hsum := h.sum
    simp only [hnone, Finset.sum_const_zero, Nat.add_zero] at hsum
    rw [h.oldtail, h.tail, hsum]

end Accounts

theorem Logs.length {rs : List Ret} (h : Logs s s' rs) :
    s'.published = s.published + (rs.map Ret.length).sum := by
  refine h.published.trans (congrArg (s.published + List.sum ·) (List.map_congr_left ?_))
  rintro (_ | _) _ <;> rfl

/-- The published bytes are the counts of the finished writes. -/
theorem published_count {C : Sys → Act → Prop} (h : machine.Reachable C s) :
    s.published = (s.log.map Ret.length).sum := by
  refine h.invariant (P := fun s => s.published = (s.log.map Ret.length).sum) ?_ ?_
  · rintro s ⟨content, rfl⟩
    rfl
  · intro s a s' hp _ hs
    have hlog : ∀ rs, Logs s s' rs → s'.published = (s'.log.map Ret.length).sum := by
      intro rs hl
      rw [hl.log, hl.length, List.map_append, List.sum_append, ← hp]
    rcases step_logs hs with hl | ⟨_, _, _, _, hl⟩
    · exact hlog _ hl
    · exact hlog _ hl

/-- In every interleaving `head` has moved by what the reads returned, `oldtail` by what the
writes returned, and `tail` by that and the reservations in progress; when there are none,
the ring is settled. -/
theorem header_words {s : Sys} (h : machine.Reachable Any s) :
    s.ring.head = s.returned.length % shmDataSize ∧
    s.ring.oldtail = (s.log.map Ret.length).sum % shmDataSize ∧
    (∃ T, Within T s ∧ s.ring.tail =
      ((s.log.map Ret.length).sum + ∑ t ∈ T, (s.thread t).reserved) % shmDataSize) ∧
    ((∀ t, (s.thread t).reserved = 0) → s.ring.Settled) := by
  obtain ⟨T, hT⟩ : ∃ T, Accounts T s := by
    refine h.invariant (P := fun s => ∃ T, Accounts T s) ?_ ?_
    · rintro s ⟨content, rfl⟩
      exact ⟨∅, .start content⟩
    · rintro s a s' ⟨T, hT⟩ - hs
      exact hT.step hs
  have hpub := published_count h
  refine ⟨?_, ?_, ⟨T, hT.within, ?_⟩, hT.settled⟩
  · rw [returned_eq h, hT.head]
  · rw [← hpub, hT.oldtail]
  · rw [← hpub, ← hT.sum, hT.tail]

/-- Nothing is published while two writes with three bytes are in progress. -/
theorem header_words_twoWriters : ∃ s : Sys, s.ring.tail = 3 ∧
    s.ring.oldtail = (s.log.map Ret.length).sum % shmDataSize ∧ ∃ T, Within T s ∧ s.ring.tail =
      ((s.log.map Ret.length).sum + ∑ t ∈ T, (s.thread t).reserved) % shmDataSize := by
  obtain ⟨s, hr, hs⟩ := reachable_of_run (M := machine) (l := twoReservations)
    (P := fun s => decide (s.ring.tail = 3)) (s := .start fun _ => 0) ⟨_, rfl⟩
    (by decide +kernel)
  obtain ⟨-, holdtail, htail, -⟩ := header_words hr
  exact ⟨s, of_decide_eq_true hs, holdtail, htail⟩

end ShmSocket.RingBuffer
