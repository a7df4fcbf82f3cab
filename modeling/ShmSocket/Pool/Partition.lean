import ShmSocket.IndexTable.Table
import ShmSocket.Pool.Pool
import ShmSocket.Lib.StepMachine

/-! `get_idx` and the release of `close`, one call at a time, over the index tables of
all ports and a pool that grows: every index is in one table entry or once on a free
list. -/
namespace ShmSocket.Indices
open StepMachine

/-- The pool and the entries of all tables; `ι` names the entries. -/
structure Tables (ι : Type*) where
  pool : Pool
  table : ι → ℕ

section calls
variable {ι : Type*} [DecidableEq ι]

/-- `key` is the key of the channel that `pool_get` may have to make. -/
def getIdx (key : ℕ) (s : Tables ι) (pair : ι) : ℕ × Tables ι :=
  if s.table pair = 0 then
    let (ret, pool) := poolGet key s.pool
    (ret, ⟨pool, Function.update s.table pair ret⟩)
  else (s.table pair, s)

def clearIdx (s : Tables ι) (pair : ι) : Tables ι :=
  { s with table := Function.update s.table pair 0 }

/-- The end of `close`: `get_idx`, `clear_idx` and `rb_destroy` on one pair. -/
def closeRing (key : ℕ) (s : Tables ι) (pair : ι) : Option (Tables ι) :=
  let (index, s) := getIdx key s pair
  let s := clearIdx s pair
  (poolRelease index s.pool).map fun pool => { s with pool }

end calls

inductive Act where
  | getIdx (key : ℕ) (pair : Pair)
  | close (key : ℕ) (pair : Pair)

def Tables.step (s : Tables Pair) : Act → Option (Tables Pair)
  | .getIdx key pair => some (Indices.getIdx key s pair).2
  | .close key pair => closeRing key s pair

/-- Empty tables and a pool of one channel. -/
def machine : StepMachine (Tables Pair) Act where
  init s := ∃ a : Address, s = ⟨[a.init], fun _ => 0⟩
  step := Tables.step

/-- The free lists and the table entries partition the indices of the pool. -/
structure Partitioned {ι : Type*} (s : Tables ι) (ls : List (List ℕ)) : Prop where
  lists : List.Forall₂ FreeList s.pool ls
  nonempty : s.pool ≠ []
  nodup : (freeFrom 0 ls).Nodup
  free : ∀ k, k ∈ freeFrom 0 ls ↔
    1 ≤ k ∧ k ≤ channelSize * s.pool.length ∧ ∀ pair, s.table pair ≠ k
  distinct : ∀ pair pair', s.table pair ≠ 0 → s.table pair = s.table pair' → pair = pair'
  range : ∀ pair, s.table pair ≤ channelSize * s.pool.length

namespace Partitioned
variable {ι : Type*} {s : Tables ι} {ls : List (List ℕ)} {pair : ι}

theorem start (a : Address) :
    Partitioned (⟨[a.init], fun _ => 0⟩ : Tables ι) [List.range' 1 channelSize] := by
  have hfree : freeFrom 0 [List.range' 1 channelSize] = List.range' 1 channelSize := by
    rw [freeFrom, freeFrom, List.append_nil, List.map_add_range', Nat.zero_add]
  constructor
  · exact .cons (init_freeList a) .nil
  · exact List.cons_ne_nil _ _
  · rw [hfree]
    exact List.nodup_range'
  · intro k
    have hmem : k ∈ List.range' 1 channelSize ↔ 1 ≤ k ∧ k < 1 + channelSize := List.mem_range'_1
    rw [hfree, hmem, List.length_singleton, Nat.mul_one]
    constructor
    · rintro ⟨h1, h2⟩
      exact ⟨h1, by omega, fun _ => (Nat.pos_iff_ne_zero.mp h1).symm⟩
    · rintro ⟨h1, h2, -⟩
      omega
  · exact fun _ _ h _ => absurd rfl h
  · exact fun _ => Nat.zero_le _

/-- What `pool_get` may return and leaves free are the indices in no table entry. -/
theorem taken (h : Partitioned s ls) {k : ℕ} {pool : Pool} {ls' : List (List ℕ)}
    (ht : Taken 0 s.pool ls k pool ls') :
    (k :: freeFrom 0 ls').Nodup ∧ ∀ x, (x = k ∨ x ∈ freeFrom 0 ls') ↔
      1 ≤ x ∧ x ≤ channelSize * pool.length ∧ ∀ pair, s.table pair ≠ x := by
  have hgrow : channelSize * s.pool.length + channelSize * (pool.length - s.pool.length) =
      channelSize * pool.length := by
    rw [← Nat.mul_add, Nat.add_sub_cancel' ht.grows]
  have hperm := ht.free
  rw [Nat.zero_add] at hperm
  have hmem : ∀ x, x ∈ List.range' (channelSize * s.pool.length + 1)
      (channelSize * (pool.length - s.pool.length)) ↔
      channelSize * s.pool.length + 1 ≤ x ∧ x < channelSize * s.pool.length + 1 +
        channelSize * (pool.length - s.pool.length) := fun _ => List.mem_range'_1
  have hnew : (List.range' (channelSize * s.pool.length + 1)
      (channelSize * (pool.length - s.pool.length))).Nodup := List.nodup_range'
  generalize List.range' (channelSize * s.pool.length + 1)
    (channelSize * (pool.length - s.pool.length)) = new at hperm hmem hnew
  refine ⟨?_, fun x => ?_⟩
  · refine hperm.nodup_iff.mpr (List.nodup_append.mpr ⟨h.nodup, hnew, ?_⟩)
    intro x hx y hy
    have hx := (h.free x).mp hx
    have hy := (hmem y).mp hy
    omega
  · rw [← List.mem_cons, hperm.mem_iff, List.mem_append, h.free, hmem]
    constructor
    · rintro (⟨h1, h2, h3⟩ | ⟨h1, h2⟩)
      · exact ⟨h1, by omega, h3⟩
      · refine ⟨by omega, by omega, fun pair => ?_⟩
        have := h.range pair
        omega
    · rintro ⟨h1, h2, h3⟩
      by_cases hx : x ≤ channelSize * s.pool.length
      · exact .inl ⟨h1, hx, h3⟩
      · exact .inr ⟨by omega, by omega⟩

/-- A new channel behind the others is all free. -/
theorem create (h : Partitioned s ls) (a : Address) :
    Partitioned (⟨s.pool ++ [a.init], s.table⟩ : Tables ι) (ls ++ [List.range' 1 channelSize]) := by
  have hlen : ls.length = s.pool.length := h.lists.length_eq.symm
  have hmem : ∀ k, k ∈ List.range' (channelSize * s.pool.length + 1) channelSize ↔
      channelSize * s.pool.length + 1 ≤ k ∧ k < channelSize * s.pool.length + 1 + channelSize :=
    fun _ => List.mem_range'_1
  have hfree : freeFrom 0 (ls ++ [List.range' 1 channelSize]) =
      freeFrom 0 ls ++ List.range' (channelSize * s.pool.length + 1) channelSize := by
    rw [freeFrom_created, hlen, Nat.zero_add]
  have hsize : channelSize * (s.pool ++ [a.init]).length =
      channelSize * s.pool.length + channelSize := by
    rw [List.length_append, List.length_singleton, Nat.mul_succ]
  constructor
  · exact List.rel_append h.lists (.cons (init_freeList a) .nil)
  · exact List.append_ne_nil_of_right_ne_nil _ (List.cons_ne_nil _ _)
  · rw [hfree]
    refine List.nodup_append.mpr ⟨h.nodup, List.nodup_range', fun x hx y hy => ?_⟩
    have hx := (h.free x).mp hx
    have hy := (hmem y).mp hy
    omega
  · intro k
    rw [hfree, List.mem_append, h.free, hmem]
    change _ ↔ 1 ≤ k ∧ k ≤ channelSize * (s.pool ++ [a.init]).length ∧ ∀ pair, s.table pair ≠ k
    rw [hsize]
    constructor
    · rintro (⟨h1, h2, h3⟩ | ⟨h1, h2⟩)
      · exact ⟨h1, by omega, h3⟩
      · refine ⟨by omega, by omega, fun pair => ?_⟩
        have := h.range pair
        omega
    · rintro ⟨h1, h2, h3⟩
      by_cases hk : k ≤ channelSize * s.pool.length
      · exact .inl ⟨h1, hk, h3⟩
      · exact .inr ⟨by omega, by omega⟩
  · exact h.distinct
  · intro pair
    change s.table pair ≤ channelSize * (s.pool ++ [a.init]).length
    rw [hsize]
    exact (h.range pair).trans (Nat.le_add_right _ _)

/-- Without channels that no entry points into. -/
theorem shrink {n : ℕ} (h : Partitioned s ls) (hpos : 0 < n) (hn : n ≤ s.pool.length)
    (hrange : ∀ pair, s.table pair ≤ channelSize * n) :
    Partitioned (⟨s.pool.take n, s.table⟩ : Tables ι) (ls.take n) := by
  have hlists := List.forall₂_take n h.lists
  have hlen : (s.pool.take n).length = n := by rw [List.length_take, Nat.min_eq_left hn]
  have htake : (ls.take n).length = n := by rw [← hlists.length_eq, hlen]
  have hsplit : freeFrom 0 ls = freeFrom 0 (ls.take n) ++
      freeFrom (0 + channelSize * n) (ls.drop n) := by
    have happend := freeFrom_append 0 (ls.take n) (ls.drop n)
    rwa [List.take_append_drop, htake] at happend
  constructor
  · exact hlists
  · exact fun hnil => absurd (hlen.symm.trans (congrArg List.length hnil)) hpos.ne'
  · have hnodup := h.nodup
    rw [hsplit] at hnodup
    exact hnodup.of_append_left
  · intro k
    have hmem := h.free k
    rw [hsplit, List.mem_append] at hmem
    rw [hlen]
    constructor
    · intro hk
      have hle := (freeFrom_range hlists hk).2
      obtain ⟨h1, -, h3⟩ := hmem.mp (.inl hk)
      rw [hlen] at hle
      exact ⟨h1, by omega, h3⟩
    · rintro ⟨h1, h2, h3⟩
      rcases hmem.mpr ⟨h1, h2.trans (Nat.mul_le_mul_left _ hn), h3⟩ with hk | hk
      · exact hk
      · have hgt := (freeFrom_range (List.forall₂_drop n h.lists) hk).1
        omega
  · exact h.distinct
  · intro pair
    change s.table pair ≤ channelSize * (s.pool.take n).length
    rw [hlen]
    exact hrange pair

variable [DecidableEq ι]

/-- Storing 0 or a number that no other entry holds keeps the entries apart. -/
theorem distinct_update {table : ι → ℕ} {k : ℕ}
    (h : ∀ q q', table q ≠ 0 → table q = table q' → q = q')
    (hk : k ≠ 0 → ∀ q, q ≠ pair → table q ≠ k) (q q' : ι)
    (hne : Function.update table pair k q ≠ 0)
    (he : Function.update table pair k q = Function.update table pair k q') : q = q' := by
  by_cases hq : q = pair <;> by_cases hq' : q' = pair
  · rw [hq, hq']
  · rw [hq, Function.update_self] at hne
    rw [hq, Function.update_self, Function.update_of_ne hq'] at he
    exact absurd he.symm (hk hne q' hq')
  · rw [hq', Function.update_self] at he
    rw [he] at hne
    rw [Function.update_of_ne hq] at he
    exact absurd he (hk hne q hq)
  · rw [Function.update_of_ne hq] at hne he
    rw [Function.update_of_ne hq'] at he
    exact h q q' hne he

/-- A first `get_idx` for a pair. -/
theorem alloc (h : Partitioned s ls) (hp : s.table pair = 0) {k : ℕ} {pool : Pool}
    {ls' : List (List ℕ)} (ht : Taken 0 s.pool ls k pool ls') :
    Partitioned ⟨pool, Function.update s.table pair k⟩ ls' := by
  obtain ⟨hnodup, hmem⟩ := h.taken ht
  obtain ⟨hk, hnodup⟩ := List.nodup_cons.mp hnodup
  obtain ⟨-, hkn, hknew⟩ := (hmem k).mp (.inl rfl)
  constructor
  · exact ht.lists
  · intro hnil
    have hlen := ht.grows
    rw [show pool = [] from hnil, List.length_nil, Nat.le_zero] at hlen
    exact h.nonempty (List.length_eq_zero_iff.mp hlen)
  · exact hnodup
  · intro x
    rw [Function.forall_update_iff s.table fun _ v => v ≠ x]
    constructor
    · intro hx
      obtain ⟨h1, h2, h3⟩ := (hmem x).mp (.inr hx)
      exact ⟨h1, h2, fun he => hk (he ▸ hx), fun q _ => h3 q⟩
    · rintro ⟨h1, h2, hne, h3⟩
      refine ((hmem x).mpr ⟨h1, h2, fun q => ?_⟩).resolve_left (Ne.symm hne)
      by_cases hq : q = pair
      · rw [hq, hp]
        omega
      · exact h3 q hq
  · exact distinct_update h.distinct fun _ q _ => hknew q
  · refine (Function.forall_update_iff s.table fun _ v => v ≤ channelSize * pool.length).mpr ?_
    exact ⟨hkn, fun q _ => (h.range q).trans (Nat.mul_le_mul_left _ ht.grows)⟩

/-- Releasing the index of a pair whose entry has been cleared. -/
theorem release (h : Partitioned s ls) (hp : s.table pair ≠ 0) :
    ∃ pool ls', poolRelease (s.table pair) s.pool = some pool ∧ pool.length = s.pool.length ∧
      Partitioned ⟨pool, Function.update s.table pair 0⟩ ls' := by
  have hpos := Nat.pos_of_ne_zero hp
  have hnot : 0 + s.table pair ∉ freeFrom 0 ls := by
    rw [Nat.zero_add]
    exact fun hk => ((h.free _).mp hk).2.2 pair rfl
  obtain ⟨pool, ls', hrel, hlists, hlen, hperm⟩ :=
    poolRelease_put 0 h.lists hpos (h.range pair) hnot
  rw [Nat.zero_add] at hnot hperm
  refine ⟨pool, ls', hrel, hlen, ?_⟩
  constructor
  · exact hlists
  · intro hnil
    rw [show pool = [] from hnil] at hlen
    exact h.nonempty (List.length_eq_zero_iff.mp hlen.symm)
  · exact hperm.nodup_iff.mpr (List.nodup_cons.mpr ⟨hnot, h.nodup⟩)
  · intro x
    rw [hperm.mem_iff, List.mem_cons, h.free, Function.forall_update_iff s.table fun _ v => v ≠ x]
    change _ ↔ 1 ≤ x ∧ x ≤ channelSize * pool.length ∧ _
    rw [hlen]
    constructor
    · rintro (rfl | ⟨h1, h2, h3⟩)
      · exact ⟨hpos, h.range pair, hpos.ne, fun q hq he => hq (h.distinct q pair (he ▸ hp) he)⟩
      · exact ⟨h1, h2, Nat.ne_of_lt h1, fun q _ => h3 q⟩
    · rintro ⟨h1, h2, -, h3⟩
      by_cases hx : x = s.table pair
      · exact .inl hx
      · refine .inr ⟨h1, h2, fun q => ?_⟩
        by_cases hq : q = pair
        · rw [hq]
          exact Ne.symm hx
        · exact h3 q hq
  · exact distinct_update h.distinct fun h0 => absurd rfl h0
  · change ∀ q, Function.update s.table pair 0 q ≤ channelSize * pool.length
    rw [hlen, Function.forall_update_iff s.table fun _ v => v ≤ channelSize * s.pool.length]
    exact ⟨Nat.zero_le _, fun q _ => h.range q⟩

/-- After `get_idx` the entry of the pair holds the index it returned. -/
theorem getIdx (h : Partitioned s ls) (key : ℕ) (pair : ι) :
    ∃ ls', Partitioned (Indices.getIdx key s pair).2 ls' ∧
      (Indices.getIdx key s pair).2.table pair = (Indices.getIdx key s pair).1 ∧
      (Indices.getIdx key s pair).1 ≠ 0 := by
  by_cases hp : s.table pair = 0
  · obtain ⟨ls', htaken⟩ := poolGetFrom_taken key 0 h.lists h.nonempty
    have hpart := h.alloc hp htaken
    have hpos := ((h.taken htaken).2 _).mp (.inl rfl) |>.1
    rw [Indices.getIdx, if_pos hp]
    exact ⟨ls', hpart, Function.update_self _ _ _, Nat.pos_iff_ne_zero.mp hpos⟩
  · rw [Indices.getIdx, if_neg hp]
    exact ⟨ls, h, rfl, hp⟩

end Partitioned

/-- No operation fails, and each keeps the partition. -/
theorem Partitioned.step {s : Tables Pair} {ls : List (List ℕ)} (h : Partitioned s ls) (a : Act) :
    ∃ s' ls', s.step a = some s' ∧ Partitioned s' ls' := by
  cases a with
  | getIdx key pair =>
    obtain ⟨ls', h', -⟩ := h.getIdx key pair
    exact ⟨_, ls', rfl, h'⟩
  | close key pair =>
    obtain ⟨ls', h', hentry, hne⟩ := h.getIdx key pair
    rw [← hentry] at hne
    obtain ⟨pool, ls'', hrel, -, hpart⟩ := h'.release hne
    rw [hentry] at hrel
    refine ⟨_, ls'', ?_, hpart⟩
    change (poolRelease (Indices.getIdx key s pair).1 (Indices.getIdx key s pair).2.pool).map _ = _
    rw [hrel]
    rfl

/-- An index is in one table entry and on no free list, or in no entry and once on the
free list of one channel. -/
def OnePlace (s : Tables Pair) (ls : List (List ℕ)) (k : ℕ) : Prop :=
  ((∃! pair, s.table pair = k) ∧ (freeFrom 0 ls).count k = 0) ∨
    ((∀ pair, s.table pair ≠ k) ∧ (freeFrom 0 ls).count k = 1)

structure IndicesPartitioned (s : Tables Pair) : Prop where
  lists : ∃ ls, List.Forall₂ (fun a l => FreeList a l ∧ l.Nodup) s.pool ls ∧
    ∀ k, 1 ≤ k → k ≤ channelSize * s.pool.length → OnePlace s ls k
  distinct : ∀ pair pair', s.table pair ≠ 0 → s.table pair = s.table pair' → pair = pair'
  range : ∀ pair, s.table pair ≤ channelSize * s.pool.length
  total : ∀ a, ∃ s', s.step a = some s'
  /-- `Pool::get` takes the index from its slot of its channel, -/
  taken : ∀ key, ∃ a, (s.pool ++ [freshChannel])[channelOf (poolGet key s.pool).1]? = some a ∧
    (poolGet key s.pool).2[channelOf (poolGet key s.pool).1]? = some (channelGet a).2 ∧
    (channelGet a).1 = slotOf (poolGet key s.pool).1
  /-- and `Pool::release` puts it back there. -/
  putBack : ∀ pair, s.table pair ≠ 0 → ∃ a, s.pool[channelOf (s.table pair)]? = some a ∧
    poolRelease (s.table pair) s.pool =
      some (s.pool.set (channelOf (s.table pair)) (channelRelease a (slotOf (s.table pair))))

theorem Partitioned.onePlace {s : Tables Pair} {ls : List (List ℕ)} (h : Partitioned s ls) {k : ℕ}
    (hpos : 1 ≤ k) (hle : k ≤ channelSize * s.pool.length) : OnePlace s ls k := by
  by_cases hk : k ∈ freeFrom 0 ls
  · refine .inr ⟨((h.free k).mp hk).2.2, ?_⟩
    exact List.count_eq_one_of_mem h.nodup hk
  · refine .inl ⟨?_, List.count_eq_zero.mpr hk⟩
    obtain ⟨pair, hpair⟩ : ∃ pair, s.table pair = k := by
      by_contra hno
      exact hk ((h.free k).mpr ⟨hpos, hle, fun pair he => hno ⟨pair, he⟩⟩)
    refine ⟨pair, hpair, fun pair' hpair' => ?_⟩
    have hne : s.table pair' ≠ 0 := by
      rw [hpair']
      omega
    exact h.distinct pair' pair hne (hpair'.trans hpair.symm)

/-- The tables and the pool partition the indices after any operations. -/
theorem indices_partitioned {s : Tables Pair} (h : machine.Reachable Any s) :
    IndicesPartitioned s := by
  obtain ⟨ls, hpart⟩ : ∃ ls, Partitioned s ls := by
    refine h.invariant (P := fun s => ∃ ls, Partitioned s ls) ?_ ?_
    · rintro s ⟨a, rfl⟩
      exact ⟨_, .start a⟩
    · rintro s a s' ⟨ls, hls⟩ - hs
      obtain ⟨s'', ls', hstep, hpart⟩ := hls.step a
      obtain rfl : s' = s'' := Option.some.inj (hs.symm.trans hstep)
      exact ⟨ls', hpart⟩
  constructor
  · exact ⟨ls, hpart.lists.imp fun _ _ hl => ⟨hl, hl.nodup⟩, fun k => hpart.onePlace⟩
  · exact hpart.distinct
  · exact hpart.range
  · intro a
    obtain ⟨s', -, hs, -⟩ := hpart.step a
    exact ⟨s', hs⟩
  · exact fun key => poolGet_slot key hpart.lists hpart.nonempty
  · exact fun pair hp => poolRelease_slot (Nat.pos_of_ne_zero hp) (hpart.range pair)

/-- A pair gives its index back and the next pair gets it. -/
def reuse : List Act :=
  [.getIdx 0 (1, 2), .getIdx 0 (2, 1), .close 0 (1, 2), .getIdx 0 (3, 4)]

theorem indices_partitioned_reuse :
    ∃ s, machine.run ⟨[freshChannel], fun _ => 0⟩ reuse = some s ∧ s.table (3, 4) = 1 ∧
      IndicesPartitioned s := by
  have hrun : machine.run ⟨[freshChannel], fun _ => 0⟩ reuse = some _ := rfl
  exact ⟨_, hrun, rfl, indices_partitioned ⟨_, ⟨_, rfl⟩, steps_of_run hrun fun _ _ _ => trivial⟩⟩

end ShmSocket.Indices
