import ShmSocket.Connection.Rings

/-! The invariant of the rings while the pool stays at one channel: an index names its
own segment, attached rings are settled, and a ring without owner has no bytes. Every
operation is given by what it does to the unread bytes of each index. -/
namespace ShmSocket
open Indices

/-- The indices of a pool of one channel. -/
def IsIndex (k : ℕ) : Prop := 1 ≤ k ∧ k ≤ channelSize

/-- The segment of an index. -/
def ringSegment (k : ℕ) : Segment := .shared (k * 2 ^ 16 : ℕ)

theorem IsIndex.ne_zero {k : ℕ} (h : IsIndex k) : k ≠ 0 := Nat.pos_iff_ne_zero.mp h.1

theorem ringKey_eq {k : ℕ} (h : IsIndex k) : ringKey k = (k * 2 ^ 16 : ℕ) := by
  obtain ⟨-, hle⟩ := h
  rw [channelSize_eq] at hle
  rw [ringKey, Nat.mod_eq_of_lt (by omega), i32_of_lt (by omega)]

/-- All processes attach the same segment for an index of the pool. -/
theorem segmentOf_eq {k : ℕ} (p : Pid) (h : IsIndex k) : segmentOf p k = ringSegment k := by
  have hne : ringKey k ≠ 0 := by
    have hpos := h.1
    rw [ringKey_eq h]
    omega
  rw [segmentOf, if_neg hne, ringKey_eq h, ringSegment]

theorem ringSegment_inj {j k : ℕ} (h : ringSegment j = ringSegment k) : j = k := by
  have hkey : ((j * 2 ^ 16 : ℕ) : ℤ) = ((k * 2 ^ 16 : ℕ) : ℤ) := Segment.shared.inj h
  omega

namespace Rings

/-- The bytes that `rb_read` will deliver from the ring of an index. -/
def unread (s : Rings) (k : ℕ) : List Byte :=
  if s.nattch (ringSegment k) = 0 then [] else (s.ring (ringSegment k)).queue

/-- The bytes in the ring of a table entry. -/
def pending (s : Rings) (c : Cell) : List Byte :=
  if s.tables.table c = 0 then [] else s.unread (s.tables.table c)

end Rings

structure RingsInv (s : Rings) (ls : List (List ℕ)) : Prop where
  indices : Partitioned s.tables ls
  single : s.tables.pool.length = 1
  settled : ∀ k, s.nattch (ringSegment k) ≠ 0 → (s.ring (ringSegment k)).Settled
  memo : ∀ p k, s.memo (p, k) = true → IsIndex k ∧ s.nattch (ringSegment k) ≠ 0
  idle : ∀ k ∈ freeFrom 0 ls, s.unread k = []

namespace RingsInv
variable {s s' : Rings} {ls : List (List ℕ)} {p : Pid} {pair : Pair} {c : Cell} {k : ℕ}

/-- Empty tables, a pool of one channel, and segments that nobody has attached. -/
theorem start {a : Address} (htables : s.tables = ⟨[a.init], fun _ => 0⟩)
    (hnattch : ∀ seg, s.nattch seg = 0) (hmemo : ∀ h, s.memo h = false) :
    RingsInv s [List.range' 1 channelSize] where
  indices := by
    rw [htables]
    exact .start a
  single := by
    rw [htables]
    rfl
  settled := fun k hk => absurd (hnattch _) hk
  memo := by
    intro p k hm
    rw [hmemo] at hm
    cases hm
  idle := fun k _ => if_pos (hnattch _)

theorem isIndex (h : RingsInv s ls) (hc : s.tables.table c ≠ 0) : IsIndex (s.tables.table c) := by
  have hrange := h.indices.range c
  rw [h.single, Nat.mul_one] at hrange
  exact ⟨Nat.pos_of_ne_zero hc, hrange⟩

theorem not_free (h : RingsInv s ls) : s.tables.table c ∉ freeFrom 0 ls :=
  fun hk => ((h.indices.free _).mp hk).2.2 c rfl

/-- What `get_idx` returns is the entry of the pair from then on; a new index comes from
the free ones. -/
theorem getIdx (h : RingsInv s ls) (hs : s.getIdx p pair = some (k, s')) :
    ∃ ls', RingsInv s' ls' ∧ IsIndex k ∧
      s'.tables.table = Function.update s.tables.table (cell p pair) k ∧
      (s.tables.table (cell p pair) = k ∨
        s.tables.table (cell p pair) = 0 ∧ k ∈ freeFrom 0 ls) ∧
      s'.ring = s.ring ∧ s'.nattch = s.nattch ∧ s'.memo = s.memo := by
  unfold Rings.getIdx Indices.getIdx at hs
  by_cases hp : s.tables.table (cell p pair) = 0
  · obtain ⟨ls', htaken⟩ := poolGetFrom_taken 0 0 h.indices.lists h.indices.nonempty
    have hpart := h.indices.alloc hp htaken
    obtain ⟨-, hmem⟩ := h.indices.taken htaken
    change Partitioned ⟨(poolGet 0 s.tables.pool).2, Function.update s.tables.table (cell p pair)
      (poolGet 0 s.tables.pool).1⟩ ls' at hpart
    change ∀ x, (x = (poolGet 0 s.tables.pool).1 ∨ x ∈ freeFrom 0 ls') ↔ 1 ≤ x ∧
      x ≤ channelSize * (poolGet 0 s.tables.pool).2.length ∧ ∀ c, s.tables.table c ≠ x at hmem
    simp only [if_pos hp] at hs
    generalize poolGet 0 s.tables.pool = r at hs hpart hmem
    split at hs
    · next hlen =>
      obtain ⟨rfl, rfl⟩ := Prod.mk.inj (Option.some.inj hs)
      change r.2.length = s.tables.pool.length at hlen
      have hfree : ∀ x, x = r.1 ∨ x ∈ freeFrom 0 ls' → x ∈ freeFrom 0 ls := by
        intro x hx
        have hx := (hmem x).mp hx
        rw [hlen] at hx
        exact (h.indices.free x).mpr hx
      obtain ⟨hpos, hle, -⟩ := (hmem r.1).mp (.inl rfl)
      rw [hlen, h.single, Nat.mul_one] at hle
      refine ⟨ls', ?_, ⟨hpos, hle⟩, rfl, .inr ⟨hp, hfree _ (.inl rfl)⟩, rfl, rfl, rfl⟩
      exact ⟨hpart, hlen.trans h.single, h.settled, h.memo,
        fun x hx => h.idle x (hfree x (.inr hx))⟩
    · cases hs
  · simp only [if_neg hp, if_true] at hs
    obtain ⟨rfl, rfl⟩ := Prod.mk.inj (Option.some.inj hs)
    exact ⟨ls, h, h.isIndex hp, (Function.update_eq_self _ _).symm, .inl rfl, rfl, rfl, rfl⟩

/-- The pool has to grow only when all its indices are in use. -/
theorem getIdx_none (h : RingsInv s ls) (hs : s.getIdx p pair = none) (hk : IsIndex k) :
    ∃ c, s.tables.table c = k := by
  obtain ⟨a, hpool⟩ := List.length_eq_one_iff.mp h.single
  have hlists := h.indices.lists
  rw [hpool] at hlists
  obtain ⟨l, ls, hlist, hnil, rfl⟩ := List.forall₂_cons_left_iff.mp hlists
  obtain rfl := List.forall₂_nil_left_iff.mp hnil
  have hl : l = [] := by
    by_contra hne
    obtain ⟨i, l, rfl⟩ := List.exists_cons_of_ne_nil hne
    have hpos : 0 < (channelGet a).1 := hlist.get_cons.1 ▸ hlist.pos List.mem_cons_self
    have hlen : (poolGet 0 s.tables.pool).2.length = s.tables.pool.length := by
      rw [hpool, poolGet, poolGetFrom_hit hpos]
      rfl
    unfold Rings.getIdx Indices.getIdx at hs
    by_cases hp : s.tables.table (cell p pair) = 0
    · simp only [if_pos hp, hlen, if_true] at hs
      cases hs
    · simp only [if_neg hp, if_true] at hs
      cases hs
  by_contra hnone
  have hfree := (h.indices.free k).mpr
    ⟨hk.1, by rw [h.single, Nat.mul_one]; exact hk.2, not_exists.mp hnone⟩
  rw [hl] at hfree
  cases hfree

/-- An entry that is not 0 needs no pool. -/
theorem getIdx_found (h : s.tables.table (cell p pair) ≠ 0) :
    s.getIdx p pair = some (s.tables.table (cell p pair), s) := by
  simp only [Rings.getIdx, Indices.getIdx, if_neg h, if_true]

/-- Unread bytes depend on the rings and on who has attached them. -/
theorem unread_congr (hring : s'.ring = s.ring) (hnattch : s'.nattch = s.nattch) (j : ℕ) :
    s'.unread j = s.unread j := by
  rw [Rings.unread, Rings.unread, hring, hnattch]

/-- An empty header over any data. -/
theorem reset_settled (r : Ring) :
    ({ r with head := 0, tail := 0, oldtail := 0 } : Ring).Settled :=
  ⟨shmDataSize_pos, shmDataSize_pos, rfl⟩

/-- What `rb_init` does to the ring of its index: it is reset if nobody has attached it. -/
structure InitRing (s s' : Rings) (k : ℕ) : Prop where
  tables : s'.tables = s.tables
  memo : s'.memo = s.memo
  self : s'.nattch (ringSegment k) ≠ 0
  ring : s'.ring (ringSegment k) = if s.nattch (ringSegment k) = 0 then
    { s.ring (ringSegment k) with head := 0, tail := 0, oldtail := 0 }
    else s.ring (ringSegment k)
  other : ∀ j, j ≠ k → s'.nattch (ringSegment j) = s.nattch (ringSegment j) ∧
    s'.ring (ringSegment j) = s.ring (ringSegment j)

theorem rbInit_ring (s : Rings) (p : Pid) (hk : IsIndex k) : InitRing s (s.rbInit p k) k := by
  have hseg := segmentOf_eq p hk
  constructor
  · rfl
  · rfl
  · simp only [Rings.rbInit, hseg, Function.update_self]
    exact Nat.succ_ne_zero _
  · simp only [Rings.rbInit, hseg]
    split_ifs
    · exact Function.update_self _ _ _
    · rfl
  · intro j hj
    have hne : ringSegment j ≠ ringSegment k := fun he => hj (ringSegment_inj he)
    simp only [Rings.rbInit, hseg]
    refine ⟨Function.update_of_ne hne _ _, ?_⟩
    split_ifs
    · exact Function.update_of_ne hne _ _
    · rfl

theorem InitRing.attached (h : InitRing s s' k) {j : ℕ} (hj : s.nattch (ringSegment j) ≠ 0) :
    s'.nattch (ringSegment j) ≠ 0 := by
  by_cases he : j = k
  · exact he ▸ h.self
  · exact (h.other j he).1.trans_ne hj

theorem InitRing.unread (h : InitRing s s' k) (j : ℕ) : s'.unread j = s.unread j := by
  unfold Rings.unread
  by_cases he : j = k
  · rw [he, if_neg h.self, h.ring]
    by_cases hz : s.nattch (ringSegment k) = 0
    · rw [if_pos hz, if_pos hz]
      rfl
    · rw [if_neg hz, if_neg hz]
  · rw [(h.other j he).1, (h.other j he).2]

/-- `rb_init` attaches an index and leaves all unread bytes: only a ring that nobody has
attached is reset. -/
theorem rbInit (h : RingsInv s ls) (hk : IsIndex k) :
    RingsInv (s.rbInit p k) ls ∧ (s.rbInit p k).nattch (ringSegment k) ≠ 0 ∧
      (∀ j, s.nattch (ringSegment j) ≠ 0 → (s.rbInit p k).nattch (ringSegment j) ≠ 0) ∧
      ∀ j, (s.rbInit p k).unread j = s.unread j := by
  have hinit := rbInit_ring s p hk
  refine ⟨⟨h.indices, h.single, ?_, ?_, ?_⟩, hinit.self, fun _ => hinit.attached, hinit.unread⟩
  · intro j hj
    by_cases he : j = k
    · rw [he, hinit.ring]
      by_cases hz : s.nattch (ringSegment k) = 0
      · rw [if_pos hz]
        exact reset_settled _
      · rw [if_neg hz]
        exact h.settled k hz
    · rw [(hinit.other j he).1] at hj
      rw [(hinit.other j he).2]
      exact h.settled j hj
  · intro q j hj
    obtain ⟨hj, hne⟩ := h.memo q j hj
    exact ⟨hj, hinit.attached hne⟩
  · intro j hj
    rw [hinit.unread]
    exact h.idle j hj

/-- `rb_get` leaves all unread bytes. -/
theorem rbGet (h : RingsInv s ls) (hk : IsIndex k) :
    RingsInv (s.rbGet p k) ls ∧ (s.rbGet p k).memo (p, k) = true ∧
      (s.rbGet p k).tables = s.tables ∧ ∀ j, (s.rbGet p k).unread j = s.unread j := by
  unfold Rings.rbGet
  split_ifs with hmemo
  · exact ⟨h, hmemo, rfl, fun _ => rfl⟩
  · obtain ⟨hinit, hself, hkeep, hunread⟩ := h.rbInit (p := p) hk
    have hmemo' : (s.rbInit p k).memo = s.memo := rfl
    have htables : (s.rbInit p k).tables = s.tables := rfl
    generalize s.rbInit p k = s₁ at hinit hself hkeep hunread hmemo' htables
    refine ⟨⟨hinit.indices, hinit.single, hinit.settled, ?_, hinit.idle⟩, ?_, htables, hunread⟩
    · intro q j hj
      change Function.update s.memo (p, k) true (q, j) = true at hj
      by_cases he : (q, j) = (p, k)
      · obtain ⟨-, rfl⟩ := Prod.mk.inj he
        exact ⟨hk, hself⟩
      · rw [Function.update_of_ne he] at hj
        obtain ⟨hj, hne⟩ := h.memo q j hj
        exact ⟨hj, hkeep j hne⟩
    · exact Function.update_self _ _ _

/-- A store to the ring of an attached index that leaves it settled. -/
theorem setRing {r : Ring} (h : RingsInv s ls) (hk : IsIndex k) (hr : r.Settled)
    (hne : s.nattch (ringSegment k) ≠ 0) (hidle : k ∈ freeFrom 0 ls → r.queue = [])
    (hs : s' = { s with ring := Function.update s.ring (segmentOf p k) r }) :
    RingsInv s' ls ∧ s'.unread k = r.queue ∧ ∀ j ≠ k, s'.unread j = s.unread j := by
  have hring : s'.ring = Function.update s.ring (ringSegment k) r := by rw [hs, segmentOf_eq p hk]
  have hnattch : s'.nattch = s.nattch := by rw [hs]
  have htables : s'.tables = s.tables := by rw [hs]
  have hmemo : s'.memo = s.memo := by rw [hs]
  have hself : s'.unread k = r.queue := by
    rw [Rings.unread, hnattch, if_neg hne, hring, Function.update_self]
  have hother : ∀ j ≠ k, s'.ring (ringSegment j) = s.ring (ringSegment j) := by
    intro j hj
    rw [hring, Function.update_of_ne fun he => hj (ringSegment_inj he)]
  have hunread : ∀ j ≠ k, s'.unread j = s.unread j := by
    intro j hj
    rw [Rings.unread, Rings.unread, hother j hj, hnattch]
  refine ⟨⟨?_, ?_, ?_, ?_, ?_⟩, hself, hunread⟩
  · rw [htables]
    exact h.indices
  · rw [htables]
    exact h.single
  · intro j hj
    rw [hnattch] at hj
    by_cases he : j = k
    · rw [he, hring, Function.update_self]
      exact hr
    · rw [hother j he]
      exact h.settled j hj
  · rw [hmemo, hnattch]
    exact h.memo
  · intro j hj
    by_cases he : j = k
    · rw [he] at hj ⊢
      rw [hself]
      exact hidle hj
    · rw [hunread j he]
      exact h.idle j hj

theorem map_getD_range (buf : List Byte) (n : ℕ) :
    (List.range (min buf.length n)).map (fun i => buf.getD i 0) = buf.take n := by
  apply List.ext_getElem
  · simp [Nat.min_comm]
  · intro i hi hi'
    have hlt : i < buf.length := by
      rw [List.length_map, List.length_range] at hi
      omega
    simp [hlt]

theorem unread_eq (hne : s.nattch (ringSegment k) ≠ 0) :
    s.unread k = (s.ring (ringSegment k)).queue := if_neg hne

/-- `rb_write` through a handle accepts what fits and appends it to the unread bytes. -/
theorem write (h : RingsInv s ls) (hm : s.memo (p, k) = true) (hk : k ∉ freeFrom 0 ls)
    (buf : List Byte) :
    ∃ s', s.write p k buf =
        some (((min buf.length (shmDataSize - 1 - (s.unread k).length) : ℕ) : ℤ), s') ∧
      RingsInv s' ls ∧ s'.tables = s.tables ∧ s'.memo = s.memo ∧
      s'.unread k = s.unread k ++ buf.take (shmDataSize - 1 - (s.unread k).length) ∧
      ∀ j ≠ k, s'.unread j = s.unread j := by
  obtain ⟨hidx, hne⟩ := h.memo p k hm
  have hr := h.settled k hne
  have hlt := hr.queue_lt
  have hq := unread_eq hne
  rw [hq]
  generalize hn : min buf.length (shmDataSize - 1 - (s.ring (ringSegment k)).queue.length) = n
  have hfit : (s.ring (ringSegment k)).queue.length + n < shmDataSize := by omega
  have hbytes : (List.range n).map (fun i => buf.getD i 0) =
      buf.take (shmDataSize - 1 - (s.ring (ringSegment k)).queue.length) := by
    rw [← hn]
    exact map_getD_range buf _
  have hpushed := hr.pushed_queue hfit fun i => buf.getD i 0
  rw [hbytes] at hpushed
  obtain ⟨hinv, hself, hother⟩ := h.setRing (p := p) hidx
    (hr.pushed_settled hfit fun i => buf.getD i 0) hne (fun hfree => absurd hfree hk) rfl
  refine ⟨_, ?_, hinv, rfl, rfl, hself.trans hpushed, hother⟩
  rw [Rings.write, segmentOf_eq p hidx, rbWrite_eq hr, hn]
  rfl

/-- `rb_read` through a handle returns the first unread bytes and removes them. -/
theorem read (h : RingsInv s ls) (hm : s.memo (p, k) = true) (len : ℕ) :
    ∃ s', s.read p k len = ((s.unread k).take len, s') ∧ RingsInv s' ls ∧
      s'.tables = s.tables ∧ s'.memo = s.memo ∧ s'.unread k = (s.unread k).drop len ∧
      ∀ j ≠ k, s'.unread j = s.unread j := by
  obtain ⟨hidx, hne⟩ := h.memo p k hm
  have hr := h.settled k hne
  have hq := unread_eq hne
  have hmin := Nat.min_le_right len (s.ring (ringSegment k)).queue.length
  obtain ⟨out, hread, hout⟩ := rbRead_eq hr len fun _ => 0
  obtain ⟨hinv, hself, hother⟩ := h.setRing (p := p) hidx (hr.popped_settled hmin) hne
    (fun hfree => by
      have hnil := h.idle k hfree
      rw [hq] at hnil
      rw [hr.popped_queue hmin, hnil, List.drop_nil]) rfl
  refine ⟨_, ?_, hinv, rfl, rfl, ?_, hother⟩
  · rw [Rings.read, segmentOf_eq p hidx, hread]
    simp only [Int.toNat_natCast, hout, hq, ← List.take_eq_take_min]
  · rw [hself, hr.popped_queue hmin, hq, ← List.drop_eq_drop_min]

/-- `rb_get(get_idx(..))` gives the pair an index if it has none, and leaves the bytes of
all pairs. -/
theorem openRing (h : RingsInv s ls) (hs : s.openRing p pair = some (k, s')) :
    ∃ ls', RingsInv s' ls' ∧ IsIndex k ∧ s'.memo (p, k) = true ∧
      s'.tables.table = Function.update s.tables.table (cell p pair) k ∧
      (∀ c, s'.pending c = s.pending c) := by
  obtain ⟨⟨k', s₁⟩, hget, he⟩ := Option.map_eq_some_iff.mp hs
  obtain ⟨rfl, rfl⟩ := Prod.mk.inj he
  obtain ⟨ls', hinv, hk, htable, hcase, hring, hnattch, -⟩ := h.getIdx hget
  obtain ⟨hinv', hmemo, htables, hunread⟩ := hinv.rbGet (p := p) hk
  refine ⟨ls', hinv', hk, hmemo, by rw [htables, htable], fun c => ?_⟩
  have hsame := unread_congr hring hnattch
  unfold Rings.pending
  simp only [htables, htable, hunread, hsame]
  by_cases hc : c = cell p pair
  · rw [hc, Function.update_self, if_neg hk.ne_zero]
    rcases hcase with hold | ⟨hz, hfree⟩
    · rw [hold, if_neg hk.ne_zero]
    · rw [if_pos hz, h.idle k' hfree]
  · rw [Function.update_of_ne hc]

/-- The ring of a pair has the bytes of the pair. -/
theorem openRing_entry (h : RingsInv s ls) (hs : s.openRing p pair = some (k, s')) :
    k ≠ 0 ∧ s'.tables.table (cell p pair) = k ∧ s'.unread k = s.pending (cell p pair) := by
  obtain ⟨-, -, hk, -, htable, hpending⟩ := h.openRing hs
  have hk0 := hk.ne_zero
  have hentry : s'.tables.table (cell p pair) = k := by rw [htable, Function.update_self]
  exact ⟨hk0, hentry, by rw [← hpending, Rings.pending, hentry, if_neg hk0]⟩

/-- A pair that has an index always gets its ring. -/
theorem openRing_found (h : s.tables.table (cell p pair) ≠ 0) :
    s.openRing p pair =
      some (s.tables.table (cell p pair), s.rbGet p (s.tables.table (cell p pair))) := by
  rw [Rings.openRing, getIdx_found h]
  rfl

/-- A pair without unread bytes gives its index back. -/
theorem closeRing (h : RingsInv s ls) (hs : s.closeRing p pair = some s')
    (hread : s.pending (cell p pair) = []) :
    ∃ ls', RingsInv s' ls' ∧
      s'.tables.table = Function.update s.tables.table (cell p pair) 0 ∧
      ∀ c, s'.pending c = s.pending c := by
  obtain ⟨⟨k, s₁⟩, hopen, hclose⟩ := Option.bind_eq_some_iff.mp hs
  obtain ⟨ls', hinv, -, -, htable, hpending⟩ := h.openRing hopen
  obtain ⟨hk0, hentry, hbytes⟩ := h.openRing_entry hopen
  obtain ⟨pool, ls'', hrel, hlen, hpart⟩ := hinv.indices.release (hentry.trans_ne hk0)
  rw [hentry] at hrel
  have hs' : s' = { s₁ with
      tables := ⟨pool, Function.update s₁.tables.table (cell p pair) 0⟩ } := by
    change (poolRelease k s₁.tables.pool).map _ = _ at hclose
    rw [hrel] at hclose
    exact (Option.some.inj hclose).symm
  have htable' : s'.tables.table = Function.update s.tables.table (cell p pair) 0 := by
    rw [hs', htable]
    exact Function.update_idem _ _ _
  have hunread : ∀ j, s'.unread j = s₁.unread j := unread_congr (by rw [hs']) (by rw [hs'])
  have hempty : s₁.unread k = [] := hbytes.trans hread
  refine ⟨ls'', ⟨?_, ?_, ?_, ?_, ?_⟩, htable', fun c => ?_⟩
  · rw [hs']
    exact hpart
  · rw [hs']
    exact hlen.trans hinv.single
  · rw [hs']
    exact hinv.settled
  · rw [hs']
    exact hinv.memo
  · intro x hx
    rw [hunread]
    by_cases he : x = k
    · rw [he]
      exact hempty
    · obtain ⟨h1, h2, h3⟩ := (hpart.free x).mp hx
      refine hinv.idle x ((hinv.indices.free x).mpr ⟨h1, h2.trans_eq (by rw [hlen]), fun c => ?_⟩)
      by_cases hc : c = cell p pair
      · rw [hc, hentry]
        exact Ne.symm he
      · have hother := h3 c
        change Function.update s₁.tables.table (cell p pair) 0 c ≠ x at hother
        rwa [Function.update_of_ne hc] at hother
  · rw [← hpending c]
    unfold Rings.pending
    rw [htable', htable, hunread]
    by_cases hc : c = cell p pair
    · rw [hc, Function.update_self, Function.update_self, if_pos rfl, if_neg hk0, hempty]
    · rw [Function.update_of_ne hc, Function.update_of_ne hc]

/-- Other entries hold other indices. -/
theorem table_ne (h : RingsInv s ls) {c c' : Cell} (hc : c' ≠ c) (hk : s.tables.table c = k)
    (hk0 : k ≠ 0) : s.tables.table c' ≠ k := by
  intro he
  have hne : s.tables.table c' ≠ 0 := by rwa [he]
  exact hc (h.indices.distinct c' c hne (he.trans hk.symm))

/-- A step on the ring of one entry leaves the bytes of the others. -/
theorem pending_update (h : RingsInv s ls) (hk : s.tables.table c = k) (hk0 : k ≠ 0)
    (htables : s'.tables = s.tables) (hother : ∀ j ≠ k, s'.unread j = s.unread j) :
    s'.pending = Function.update s.pending c (s'.unread k) := by
  funext c'
  by_cases hc : c' = c
  · rw [hc, Function.update_self, Rings.pending, htables, hk, if_neg hk0]
  · rw [Function.update_of_ne hc, Rings.pending, Rings.pending, htables,
      hother _ (h.table_ne hc hk hk0)]

/-- `rb_write(rb_get(get_idx(..)), ..)` appends what fits to the bytes of the pair. -/
theorem openWrite (h : RingsInv s ls) {s₁ : Rings} (hs : s.openRing p pair = some (k, s₁))
    (buf : List Byte) :
    ∃ s' ls', s₁.write p k buf = some (((min buf.length
        (shmDataSize - 1 - (s.pending (cell p pair)).length) : ℕ) : ℤ), s') ∧ RingsInv s' ls' ∧
      s'.pending = Function.update s.pending (cell p pair) (s.pending (cell p pair) ++
        buf.take (shmDataSize - 1 - (s.pending (cell p pair)).length)) := by
  obtain ⟨ls', hinv, -, hmemo, -, hpending⟩ := h.openRing hs
  obtain ⟨hk0, hentry, hunread⟩ := h.openRing_entry hs
  obtain ⟨s', hwrite, hinv', htables, -, hself, hother⟩ :=
    hinv.write hmemo (hentry ▸ hinv.not_free) buf
  have hupdate := hinv.pending_update hentry hk0 htables hother
  rw [hself, funext hpending] at hupdate
  rw [hunread] at hwrite hupdate
  exact ⟨s', ls', hwrite, hinv', hupdate⟩

/-- `rb_read(rb_get(get_idx(..)), ..)` takes the first bytes of the pair. -/
theorem openRead (h : RingsInv s ls) {s₁ : Rings} (hs : s.openRing p pair = some (k, s₁))
    (len : ℕ) :
    ∃ s' ls', s₁.read p k len = ((s.pending (cell p pair)).take len, s') ∧ RingsInv s' ls' ∧
      s'.pending =
        Function.update s.pending (cell p pair) ((s.pending (cell p pair)).drop len) := by
  obtain ⟨ls', hinv, -, hmemo, -, hpending⟩ := h.openRing hs
  obtain ⟨hk0, hentry, hunread⟩ := h.openRing_entry hs
  obtain ⟨s', hread, hinv', htables, -, hself, hother⟩ := hinv.read hmemo len
  have hupdate := hinv.pending_update hentry hk0 htables hother
  rw [hself, funext hpending] at hupdate
  rw [hunread] at hread hupdate
  exact ⟨s', ls', hread, hinv', hupdate⟩

/-- A ring holds fewer than `shmDataSize` bytes. -/
theorem pending_lt (h : RingsInv s ls) (c : Cell) : (s.pending c).length < shmDataSize := by
  unfold Rings.pending Rings.unread
  split_ifs with hc hn
  · exact shmDataSize_pos
  · exact shmDataSize_pos
  · exact (h.settled _ hn).queue_lt

end RingsInv

end ShmSocket
