import ShmSocket.RingBuffer.Invariant

/-! Every step of `rb_write` and `rb_read` preserves the invariant, one lemma for
each swap and copy. -/
namespace ShmSocket.RingBuffer
open CircularWindow
variable {s : Sys} {t : Tid}

theorem advance_mod {p len : ℕ} (hlen : len < shmDataSize) :
    advance (p % shmDataSize) len = (p + len) % shmDataSize := by
  have hN := shmDataSize_eq
  have hp := Nat.mod_lt p shmDataSize_pos
  rw [advance_natCast (by omega), Nat.mod_add_mod]

theorem copyOffset_mod {p len k : ℕ} (hlen : len < shmDataSize) (hk : k < len) :
    copyOffset (p % shmDataSize) len k = (p + k) % shmDataSize := by
  rw [copyOffset_eq (Nat.mod_lt _ shmDataSize_pos) hlen hk, Nat.mod_add_mod]

/-- The swap on `tail`, when `tail` has not lapped the loaded head: the room
computed from the stale header words is there. -/
theorem room_of_cas (h : Core s) {f : WriteFrame} (hseen : HeadSeen s f.head f.headAt)
    (hcas : s.ring.tail = f.tail) (hlap : s.accepted.length < f.headAt + shmDataSize) :
    writeSize f.head f.tail = shmDataSize - 1 - (s.accepted.length - f.headAt) := by
  have hle : f.headAt ≤ s.accepted.length := hseen.le.trans (h.consumed.trans h.reserved)
  rw [hseen.image, ← hcas, h.tail, writeSize_mod hle hlap]

theorem Inv.reserve (h : Inv s) {f : WriteFrame} (ht : s.thread t = .writing .casTail f)
    (hcas : s.ring.tail = f.tail) (hlap : s.accepted.length < f.headAt + shmDataSize) :
    Inv (s.stepWrite t .casTail f) := by
  have hw : ThreadOk s (s.thread t) := h.threads t
  rw [ht] at hw
  obtain ⟨hin, hseen, hpos, hlen⟩ := hw
  rw [room_of_cas h.toCore hseen hcas hlap] at hlen
  have hd := hseen.le
  have hroom : s.accepted.length + f.len < f.headAt + shmDataSize := by omega
  have htake : (f.input.take f.len).length = f.len := by
    rw [List.length_take, Nat.min_eq_left hin]
  simp only [Sys.stepWrite, if_pos hcas]
  apply h.of_step t _ rfl
  · refine ⟨h.head, ?_, h.oldtail, h.consumed, ?_, ?_, h.stored.append _,
      h.stream.trans (List.prefix_append _ _)⟩
    · change advance f.tail f.len = (s.accepted ++ f.input.take f.len).length % shmDataSize
      rw [← hcas, h.tail, advance_mod (by omega), List.length_append, htake]
    · change s.published ≤ (s.accepted ++ f.input.take f.len).length
      have := h.reserved
      rw [List.length_append]
      omega
    · change (s.accepted ++ f.input.take f.len).length < s.delivered.length + shmDataSize
      rw [List.length_append, htake]
      omega
  · refine ⟨⟨?_, hpos, hin, h.reserved, ?_, ?_, ?_⟩, hpos⟩
    · exact hcas.symm.trans h.tail
    · change s.accepted.length + f.len ≤ (s.accepted ++ f.input.take f.len).length
      rw [List.length_append, htake]
    · intro j hj
      change j < f.len at hj
      change (s.accepted ++ f.input.take f.len)[s.accepted.length + j]? = some (f.input.getD j 0)
      have hlt : j < f.input.length := by omega
      rw [List.getElem?_append_right (by omega), Nat.add_sub_cancel_left, List.getElem?_take,
        if_pos hj, List.getD_eq_getElem?_getD, List.getElem?_eq_getElem hlt, Option.getD_some]
    · intro q hq hq'
      exact absurd hq' (by omega)
  · intro q hq
    exact Or.inr hq.1
  · intro u _
    exact ⟨le_rfl, List.prefix_append _ _, le_rfl, fun q hq => (span_bounds (h.threads u) hq).1,
      fun _ _ _ hh => hh⟩

theorem Inv.copy (h : Inv s) {f : WriteFrame} {k : ℕ} (ht : s.thread t = .writing (.copy k) f) :
    Inv (s.stepWrite t (.copy k) f) := by
  have hw : ThreadOk s (s.thread t) := h.threads t
  rw [ht] at hw
  obtain ⟨hr, hk⟩ := hw
  have hroom := h.room
  have hcons := h.consumed
  have hun := hr.unpublished
  have hacc := hr.accepted
  have hoff : copyOffset f.tail f.len k = (f.tailAt + k) % shmDataSize := by
    rw [hr.image, copyOffset_mod (by omega) hk]
  have hown : f.tailAt + k ∈ (s.thread t).span := by
    rw [ht]
    exact ⟨by omega, by omega⟩
  have hnext := hr.copied.store (by omega) (hr.bytes k hk)
  simp only [Sys.stepWrite, hoff]
  apply h.of_step t _ rfl
  · exact ⟨h.head, h.tail, h.oldtail, hcons, h.reserved, hroom,
      h.stored.update le_rfl (by have := h.reserved; omega) (by omega) (by omega)
        (Or.inr (by omega)) _, h.stream⟩
  · split_ifs with hlast
    · exact ⟨⟨hr.image, hr.pos, hr.fits, hun, hacc, hr.bytes, hnext⟩, hlast⟩
    · have he : f.len = k + 1 := by omega
      refine ⟨hr.image, hr.pos, hr.fits, hun, hacc, hr.bytes, ?_⟩
      rw [he]
      exact hnext
  · intro q hq
    rw [ht]
    split_ifs at hq <;> exact Or.inl hq
  · intro u hu
    refine ⟨le_rfl, List.prefix_rfl, le_rfl, fun q hq => (span_bounds (h.threads u) hq).1, ?_⟩
    intro lo hi hsub hh q hq hq'
    -- the byte goes to this call's own span, so not to a position of `lo..hi`
    have hmem := hsub ⟨le_rfl, lt_of_le_of_lt hq hq'⟩
    have hmem' := hsub ⟨(by omega : lo ≤ hi - 1), (by omega : hi - 1 < hi)⟩
    have hlo := (span_bounds (h.threads u) hmem).1
    have hhi := (span_bounds (h.threads u) hmem').2
    have hout : f.tailAt + k < lo ∨ hi ≤ f.tailAt + k := by
      by_contra hcon
      have hin := hsub ⟨(by omega : lo ≤ f.tailAt + k), (by omega : f.tailAt + k < hi)⟩
      exact hu (h.disjoint u t _ hin hown)
    exact hh.update (hcons.trans hlo) (by omega) (by omega) (by omega) hout _ q hq hq'

/-- A spinning writer finds its own start position in `oldtail` only when every
earlier reservation is published. -/
theorem published_eq (h : Inv s) {f : WriteFrame} (ht : s.thread t = .writing .casOldtail f)
    (hcas : s.ring.oldtail = f.tail) : s.published = f.tailAt := by
  have hr : ThreadOk s (s.thread t) := h.threads t
  rw [ht] at hr
  have hr : Reserves s f f.len := hr
  have hpos := hr.pos
  have hun := hr.unpublished
  have hacc := hr.accepted
  have hroom := h.room
  have hcons := h.consumed
  apply eq_of_mod_eq (n := shmDataSize) hcons (by omega) (by omega) (by omega)
  rw [← h.oldtail, hcas, hr.image]

theorem Inv.publish (h : Inv s) {f : WriteFrame} (ht : s.thread t = .writing .casOldtail f)
    (hcas : s.ring.oldtail = f.tail) : Inv (s.stepWrite t .casOldtail f) := by
  have hp := published_eq h ht hcas
  have hr : ThreadOk s (s.thread t) := h.threads t
  rw [ht] at hr
  have hr : Reserves s f f.len := hr
  have hacc := hr.accepted
  have hroom := h.room
  have hcons := h.consumed
  simp only [Sys.stepWrite, if_pos hcas]
  apply h.of_step t .idle rfl
  · refine ⟨h.head, h.tail, ?_, ?_, ?_, hroom, ?_, h.stream⟩
    · change advance f.tail f.len = (s.published + f.len) % shmDataSize
      rw [← hcas, h.oldtail, advance_mod (by omega)]
    · exact hcons.trans (Nat.le_add_right _ _)
    · change s.published + f.len ≤ s.accepted.length
      omega
    · intro q hq hq'
      change q < s.published + f.len at hq'
      by_cases hold : q < s.published
      · exact h.stored q hq hold
      · exact hr.copied q (by omega) (by omega)
  · trivial
  · intro q hq
    exact hq.elim
  · intro u hu
    refine ⟨le_rfl, List.prefix_rfl, Nat.le_add_right _ _, ?_, fun _ _ _ hh => hh⟩
    intro q hq
    change s.published + f.len ≤ q
    by_contra hlt
    have hge := (span_bounds (h.threads u) hq).1
    have hown : q ∈ (s.thread t).span := by
      rw [ht]
      exact ⟨by omega, by omega⟩
    exact hu (h.disjoint u t q hq hown)

/-- A reader whose swap succeeds before the head has gone round still holds the head. -/
theorem head_current (h : Core s) {f : ReadFrame} (hseen : HeadSeen s f.head f.headAt)
    (hcas : s.ring.head = f.head) (hturn : s.delivered.length < f.headAt + shmDataSize) :
    f.headAt = s.delivered.length := by
  have hle := hseen.le
  apply eq_of_mod_eq (n := shmDataSize) le_rfl (by omega) hle hturn
  rw [← hseen.image, ← hcas, h.head]

theorem Inv.consume (h : Inv s) {f : ReadFrame} (ht : s.thread t = .reading .casHead f)
    (hcas : s.ring.head = f.head) (hturn : s.delivered.length < f.headAt + shmDataSize) :
    Inv (s.stepRead t .casHead f) := by
  have hw : ThreadOk s (s.thread t) := h.threads t
  rw [ht] at hw
  obtain ⟨hseen, hout, hpos, hreads⟩ := hw
  have hcur := head_current h.toCore hseen hcas hturn
  have hr := hreads hcur
  have hpub := hr.published
  have hres := h.reserved
  have hroom := h.room
  have hlen : (s.delivered ++ f.out).length = s.delivered.length + f.len := by
    rw [List.length_append, hout]
  simp only [Sys.stepRead, if_pos hcas]
  apply h.of_step t .idle rfl
  · refine ⟨?_, h.tail, h.oldtail, ?_, hres, ?_, ?_, ?_⟩
    · change advance f.head f.len = (s.delivered ++ f.out).length % shmDataSize
      rw [← hcas, h.head, advance_mod (by omega), hlen]
    · change (s.delivered ++ f.out).length ≤ s.published
      omega
    · change s.accepted.length < (s.delivered ++ f.out).length + shmDataSize
      omega
    · exact h.stored.sub (by change s.delivered.length ≤ (s.delivered ++ f.out).length; omega)
        le_rfl
    · change s.delivered ++ f.out <+: s.accepted
      have hsplit : s.accepted = s.delivered ++ s.accepted.drop s.delivered.length := by
        obtain ⟨more, hm⟩ := h.stream
        rw [← hm, List.drop_left]
      rw [hsplit]
      exact (List.prefix_append_right_inj _).mpr (hcur ▸ hr.bytes)
  · trivial
  · intro q hq
    exact hq.elim
  · intro u _
    exact ⟨by change _ ≤ (s.delivered ++ f.out).length; omega, List.prefix_rfl, le_rfl,
      fun q hq => (span_bounds (h.threads u) hq).1, fun _ _ _ hh => hh⟩

theorem prefix_snoc {α : Type*} {xs ys : List α} {b : α} (h : xs <+: ys)
    (hb : ys[xs.length]? = some b) : xs ++ [b] <+: ys := by
  obtain ⟨rest, rfl⟩ := h
  rw [List.getElem?_append_right le_rfl, Nat.sub_self] at hb
  cases rest with
  | nil => simp at hb
  | cons c rest =>
    obtain rfl : c = b := by simpa using hb
    exact ⟨rest, by simp⟩

/-- A reader's copies, as long as it holds the current head. -/
theorem Reads.copy (h : Core s) {f : ReadFrame} (hr : Reads s f)
    (hhead : f.head = f.headAt % shmDataSize) (hcur : f.headAt = s.delivered.length)
    (hk : f.out.length < f.len) :
    f.out ++ [s.ring.content (copyOffset f.head f.len f.out.length)] <+:
      s.accepted.drop f.headAt := by
  have hpub := hr.published
  have hres := h.reserved
  have hroom := h.room
  apply prefix_snoc hr.bytes
  rw [hhead, copyOffset_mod (by omega) hk, List.getElem?_drop]
  exact h.stored _ (by omega) (by omega)

theorem Inv.readCopy (h : Inv s) {f : ReadFrame} (ht : s.thread t = .reading .copy f) :
    Inv (s.stepRead t .copy f) := by
  have hw : ThreadOk s (s.thread t) := h.threads t
  rw [ht] at hw
  obtain ⟨hseen, hk, hreads⟩ := hw
  have hnext : f.headAt = s.delivered.length → Reads s
      { f with out := f.out ++ [s.ring.content (copyOffset f.head f.len f.out.length)] } :=
    fun hcur => ⟨(hreads hcur).published, (hreads hcur).copy h.toCore hseen.image hcur hk⟩
  simp only [Sys.stepRead]
  split_ifs with hmore
  · exact h.setThread t _ ⟨hseen, hmore, hnext⟩ rfl
  · rw [List.length_append, List.length_singleton] at hmore
    refine h.setThread t _ ⟨hseen, ?_, by change 0 < f.len; omega, hnext⟩ rfl
    change (f.out ++ [_]).length = f.len
    rw [List.length_append, List.length_singleton]
    omega

theorem Inv.readLoadOldtail (h : Inv s) {f : ReadFrame}
    (ht : s.thread t = .reading .loadOldtail f) : Inv (s.stepRead t .loadOldtail f) := by
  have hseen : ThreadOk s (s.thread t) := h.threads t
  rw [ht] at hseen
  have hseen : HeadSeen s f.head f.headAt := hseen
  simp only [Sys.stepRead]
  split_ifs with hzero
  · exact h.ret t _
  · refine h.setThread t _ ⟨hseen, Nat.pos_of_ne_zero hzero, ?_⟩ rfl
    intro hcur
    change f.headAt = s.delivered.length at hcur
    refine ⟨?_, List.nil_prefix⟩
    change f.headAt + min (readSize f.head s.ring.oldtail) f.len ≤ s.published
    have hcons := h.consumed
    have hres := h.reserved
    have hroom := h.room
    rw [hseen.image, h.oldtail, readSize_mod (by omega) (by omega)]
    omega

theorem Inv.stepWrite (h : Inv s) {pc : WritePc} {f : WriteFrame}
    (ht : s.thread t = .writing pc f) (hl : NotLapped s (.exec t)) :
    Inv (s.stepWrite t pc f) := by
  have hw : ThreadOk s (s.thread t) := h.threads t
  rw [ht] at hw
  cases pc with
  | loadHead => exact h.setThread t _ ⟨hw, h.head, le_rfl⟩ rfl
  | loadTail => exact h.setThread t _ ⟨hw.1, hw.2⟩ rfl
  | loadOldtail =>
    simp only [Sys.stepWrite]
    split_ifs with hzero
    · exact h.ret t _
    · exact h.setThread t _ ⟨(Nat.min_le_right _ _).trans hw.1, hw.2, Nat.pos_of_ne_zero hzero,
        Nat.min_le_left _ _⟩ rfl
  | casTail =>
    by_cases hcas : s.ring.tail = f.tail
    · exact h.reserve ht hcas (hl f ht hcas)
    · simp only [Sys.stepWrite, if_neg hcas]
      exact h.setThread t _ hw.1 rfl
  | copy k => exact h.copy ht
  | casOldtail =>
    by_cases hcas : s.ring.oldtail = f.tail
    · exact h.publish ht hcas
    · simp only [Sys.stepWrite, if_neg hcas]
      exact h

theorem Inv.stepRead (h : Inv s) {pc : ReadPc} {f : ReadFrame}
    (ht : s.thread t = .reading pc f) (hl : NotTurned s (.exec t)) :
    Inv (s.stepRead t pc f) := by
  cases pc with
  | loadHead => exact h.setThread t _ ⟨h.head, le_rfl⟩ rfl
  | loadOldtail => exact h.readLoadOldtail ht
  | copy => exact h.readCopy ht
  | casHead =>
    by_cases hcas : s.ring.head = f.head
    · exact h.consume ht hcas (hl f ht hcas)
    · simp only [Sys.stepRead, if_neg hcas]
      exact h.setThread t _ trivial rfl

/-- The invariant survives every step that meets both conditions. -/
theorem Inv.step {a : Act} {s' : Sys} (h : Inv s) (hl : NotLapped s a) (ht : NotTurned s a)
    (hs : s.step a = some s') : Inv s' := by
  cases step_cases hs with
  | @write t input => exact h.setThread t _ le_rfl rfl
  | @read t len => exact h.setThread t _ trivial rfl
  | writing hth => exact h.stepWrite hth hl
  | reading hth => exact h.stepRead hth ht

theorem Inv.start (content : ℕ → Byte) : Inv (Sys.start content) where
  head := (Nat.zero_mod _).symm
  tail := (Nat.zero_mod _).symm
  oldtail := (Nat.zero_mod _).symm
  consumed := le_rfl
  reserved := le_rfl
  room := lt_of_lt_of_eq shmDataSize_pos (Nat.zero_add _).symm
  stored := fun q _ hq => absurd hq (Nat.not_lt_zero q)
  stream := List.prefix_rfl
  threads := fun _ => trivial
  disjoint := fun _ _ _ hq => hq.elim

end ShmSocket.RingBuffer
