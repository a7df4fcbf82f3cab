import ShmSocket.Connection.Rings
import ShmSocket.Pool.Processes

/-! The keys of the shared segments: rings, index tables, the listening port table and the
channels of the pool are told apart by one `int` each. -/
namespace ShmSocket.Keys
open StepMachine Indices

def listenPidTableKey : ℕ := 0x4f4f4f4f

/-- `POOL_SHM_KEY + c` in an `int`, the key of channel `c` of the pool. -/
def channelKey (c : ℕ) : ℤ := i32 (Processes.poolShmKey + c)

/-- An index that `Pool::get` returns, and how many channels there are then. -/
structure Handed where
  index : ℕ
  channels : ℕ
  returned : ∃ (s : Tables Pair) (key : ℕ), Indices.machine.Reachable Any s ∧
    (poolGet key s.pool).1 = index ∧ (poolGet key s.pool).2.length = channels

/-- The key of the ring of an index names no other kind of segment. -/
structure OwnKind (x : Handed) : Prop where
  shared : ringKey x.index ≠ 0
  tables : ∀ port : ℕ, 1 ≤ port → port < 65536 → ringKey x.index ≠ port
  listening : ringKey x.index ≠ listenPidTableKey
  channels : ∀ c < x.channels, ringKey x.index ≠ channelKey c

structure SegmentsDiffer (x y : Handed) : Prop where
  rings : ringKey x.index ≠ ringKey y.index
  left : OwnKind x
  right : OwnKind y

/-- The channels of the pool before the one whose key is the key of the ring. -/
def channelsBefore (index : ℕ) : ℕ :=
  (index % 2 ^ 16 * 2 ^ 16 + (2 ^ 32 - Processes.poolShmKey)) % 2 ^ 32

/-- The shift keeps 16 bits of the index, and not all of them are 0; the channels have not
reached its key. -/
def KeyFits (x : Handed) : Prop := x.index % 2 ^ 16 ≠ 0 ∧ x.channels ≤ channelsBefore x.index

section keys
variable {i j n : ℕ}

/-- `idx << 16` keeps the low 16 bits of the index. -/
theorem shifted (i : ℕ) : i * 2 ^ 16 % 2 ^ 32 % 2 ^ 32 = i % 2 ^ 16 * 2 ^ 16 := by omega

theorem ringKey_eq_iff : ringKey i = ringKey j ↔ i % 2 ^ 16 = j % 2 ^ 16 := by
  rw [ringKey, ringKey, i32_eq_iff, shifted, shifted]
  omega

theorem ringKey_eq_zero : ringKey i = 0 ↔ i % 2 ^ 16 = 0 := ringKey_eq_iff (j := 0)

/-- The key of a ring has 16 low bits 0. -/
theorem ringKey_ne {k : ℕ} (hlt : k < 2 ^ 31) (hk : k % 2 ^ 16 ≠ 0) : ringKey i ≠ k := by
  rw [← i32_of_lt hlt, ringKey, Ne, i32_eq_iff, shifted]
  omega

theorem ringKey_eq_channelKey {c : ℕ} (hc : c < 2 ^ 32) :
    ringKey i = channelKey c ↔ c = channelsBefore i := by
  rw [ringKey, channelKey, i32_eq_iff, shifted, channelsBefore, Processes.poolShmKey]
  omega

theorem ownKind_iff (x : Handed) : OwnKind x ↔ KeyFits x := by
  have hbefore : channelsBefore x.index < 2 ^ 32 := Nat.mod_lt _ (by omega)
  constructor
  · intro h
    refine ⟨fun hz => h.shared (ringKey_eq_zero.mpr hz), not_lt.mp fun hlt => ?_⟩
    exact h.channels _ hlt ((ringKey_eq_channelKey hbefore).mpr rfl)
  · rintro ⟨hne, hle⟩
    refine ⟨fun hz => hne (ringKey_eq_zero.mp hz), fun port hpos hlt => ?_, ?_, fun c hc he => ?_⟩
    · exact ringKey_ne (by omega) (by omega)
    · exact ringKey_ne (by decide) (by decide)
    · have := (ringKey_eq_channelKey (by omega)).mp he
      omega

end keys

/-- The segments of two indices are their own if and only if the low 16 bits of the indices
differ, are not all 0, and the pool has not grown into their keys. -/
theorem segments_differ_iff (x y : Handed) : SegmentsDiffer x y ↔
    x.index % 2 ^ 16 ≠ y.index % 2 ^ 16 ∧ KeyFits x ∧ KeyFits y := by
  rw [← ownKind_iff, ← ownKind_iff, Ne, ← ringKey_eq_iff]
  exact ⟨fun h => ⟨h.rings, h.left, h.right⟩, fun h => ⟨h.1, h.2.1, h.2.2⟩⟩

section every
variable {k : ℕ} {cs : Pool}

/-- The first `k` indices are in use and the others free. -/
def Ascending (k : ℕ) (cs : Pool) : Prop :=
  cs ≠ [] ∧ k ≤ channelSize * cs.length ∧ ∃ ls, List.Forall₂ FreeList cs ls ∧
    freeFrom 0 ls = List.range' (k + 1) (channelSize * cs.length - k)

theorem Ascending.get (h : Ascending k cs) (key : ℕ) :
    (poolGet key cs).1 = k + 1 ∧ Ascending (k + 1) (poolGet key cs).2 := by
  obtain ⟨hne, hle, ls, hls, hfree⟩ := h
  have hpos := channelSize_pos
  rcases Nat.lt_or_eq_of_le hle with hlt | rfl
  · have hsplit : channelSize * cs.length - k = channelSize * cs.length - (k + 1) + 1 := by omega
    rw [hsplit, List.range'_succ] at hfree
    obtain ⟨hget, ls', hls', hfree', hlen⟩ := poolGetFrom_first key hls hfree
    refine ⟨hget, ?_, ?_, ls', hls', ?_⟩
    · exact List.length_pos_iff.mp (hlen ▸ List.length_pos_iff.mpr hne)
    · exact hlen ▸ hlt
    · rw [hfree', poolGet, hlen]
  · rw [Nat.sub_self] at hfree
    obtain ⟨hget, ls', hls', hfree', hlen⟩ := poolGetFrom_created key hls hne hfree
    rw [Nat.zero_add] at hget hfree'
    refine ⟨hget, ?_, ?_, ls', hls', ?_⟩
    · exact List.length_pos_iff.mp (hlen ▸ Nat.succ_pos _)
    · rw [poolGet, hlen, Nat.mul_succ]
      omega
    · rw [hfree', poolGet, hlen, Nat.mul_succ]
      congr 1
      omega

/-- `get_idx` for one pair after the other takes the indices in their order. -/
theorem ascending_reachable (k : ℕ) : ∃ s, Indices.machine.Reachable Any s ∧
    Ascending k s.pool ∧ ∀ n, k ≤ n → s.table (1, n) = 0 := by
  induction k with
  | zero =>
    refine ⟨⟨[freshChannel], fun _ => 0⟩, .init ⟨_, rfl⟩, ?_, fun _ _ => rfl⟩
    refine ⟨List.cons_ne_nil _ _, Nat.zero_le _, [List.range' 1 channelSize],
      .cons (init_freeList _) .nil, ?_⟩
    rw [freeFrom, freeFrom, List.append_nil, List.map_add_range']
    rfl
  | succ k ih =>
    obtain ⟨s, hs, hasc, htable⟩ := ih
    have hget : Indices.getIdx 0 s (1, k) = ((poolGet 0 s.pool).1,
        ⟨(poolGet 0 s.pool).2, Function.update s.table (1, k) (poolGet 0 s.pool).1⟩) :=
      if_pos (htable k le_rfl)
    refine ⟨(Indices.getIdx 0 s (1, k)).2, hs.step (a := .getIdx 0 (1, k)) trivial rfl, ?_, ?_⟩
    · rw [hget]
      exact (hasc.get 0).2
    · intro n hn
      have hne : ((1, n) : Pair) ≠ (1, k) := fun he => by
        have := (Prod.mk.inj he).2
        omega
      rw [hget]
      exact (Function.update_of_ne hne _ _).trans (htable n (by omega))

/-- `Pool::get` can return every positive index. -/
theorem exists_handed {i : ℕ} (hi : 0 < i) : ∃ x : Handed, x.index = i := by
  obtain ⟨k, rfl⟩ := Nat.exists_eq_add_of_le' hi
  obtain ⟨s, hs, hasc, -⟩ := ascending_reachable k
  exact ⟨⟨_, _, s, 0, hs, rfl, rfl⟩, (hasc.get 0).1⟩

end every

/-- The rings of the indices 1 and 65537 share a segment. -/
theorem segments_shared : ¬ ∀ x y : Handed, x.index ≠ y.index → SegmentsDiffer x y := by
  intro hall
  obtain ⟨x, hx⟩ := exists_handed (i := 1) (by decide)
  obtain ⟨y, hy⟩ := exists_handed (i := 65537) (by decide)
  refine (hall x y (by omega)).rings (ringKey_eq_iff.mpr ?_)
  omega

end ShmSocket.Keys
