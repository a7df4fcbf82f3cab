import ShmSocket.Pool.Partition
import Mathlib.Data.Finset.Card
import Mathlib.Order.Interval.Finset.Nat

/-! How far the pool grows: as far as the pairs that had an index at one time need, however
often indices are given back and taken again. -/
namespace ShmSocket.Indices
open StepMachine

/-- The tables, the pairs that have an index, and the most pairs that ever had one at a
time. -/
structure Demand where
  tables : Tables Pair
  used : Finset Pair
  peak : ℕ

def Act.pair : Act → Pair
  | .getIdx _ pair | .close _ pair => pair

/-- Both calls see to it that the pair has an index; `close` then takes it away. -/
def demand : StepMachine Demand Act where
  init d := machine.init d.tables ∧ d.used = ∅ ∧ d.peak = 0
  step d a := (d.tables.step a).map fun tables =>
    let used := insert a.pair d.used
    { tables
      used := match a with
        | .getIdx _ _ => used
        | .close _ pair => used.erase pair
      peak := max d.peak used.card }

variable {s : Tables Pair} {ls : List (List ℕ)} {used : Finset Pair} {d d' : Demand} {a : Act}

/-- The indices of the pairs and the free ones are all there are. -/
theorem Partitioned.card_used (h : Partitioned s ls)
    (hused : ∀ pair, pair ∈ used ↔ s.table pair ≠ 0) :
    used.card + (freeFrom 0 ls).length = channelSize * s.pool.length := by
  have hall : Finset.Icc 1 (channelSize * s.pool.length) =
      used.image s.table ∪ (freeFrom 0 ls).toFinset := by
    ext k
    rw [Finset.mem_Icc, Finset.mem_union, Finset.mem_image, List.mem_toFinset, h.free]
    constructor
    · rintro ⟨hpos, hle⟩
      by_cases hk : ∃ pair, s.table pair = k
      · obtain ⟨pair, rfl⟩ := hk
        exact .inl ⟨pair, (hused pair).mpr (Nat.pos_iff_ne_zero.mp hpos), rfl⟩
      · exact .inr ⟨hpos, hle, not_exists.mp hk⟩
    · rintro (⟨pair, hpair, rfl⟩ | ⟨hpos, hle, -⟩)
      · exact ⟨Nat.pos_of_ne_zero ((hused pair).mp hpair), h.range pair⟩
      · exact ⟨hpos, hle⟩
  have hdisjoint : Disjoint (used.image s.table) (freeFrom 0 ls).toFinset := by
    rw [Finset.disjoint_left]
    intro k himage hfree
    obtain ⟨pair, -, rfl⟩ := Finset.mem_image.mp himage
    exact ((h.free _).mp (List.mem_toFinset.mp hfree)).2.2 pair rfl
  have hinj : Set.InjOn s.table used := fun pair hpair pair' _ he =>
    h.distinct pair pair' ((hused pair).mp hpair) he
  have hcard := congrArg Finset.card hall
  rw [Finset.card_union_of_disjoint hdisjoint, Finset.card_image_of_injOn hinj,
    List.toFinset_card_of_nodup h.nodup, Nat.card_Icc, Nat.add_sub_cancel] at hcard
  exact hcard.symm

/-- The pool grows by one channel when a new pair finds no free index, and only then. -/
theorem Partitioned.getIdx_length (h : Partitioned s ls) (key : ℕ) (pair : Pair) :
    (Indices.getIdx key s pair).2.pool.length = s.pool.length ∨
      (Indices.getIdx key s pair).2.pool.length = s.pool.length + 1 ∧ s.table pair = 0 ∧
        freeFrom 0 ls = [] := by
  by_cases hp : s.table pair = 0
  · rw [Indices.getIdx, if_pos hp]
    cases hfree : freeFrom 0 ls with
    | nil =>
      obtain ⟨-, -, -, -, hlen⟩ := poolGetFrom_created key h.lists h.nonempty hfree
      exact .inr ⟨hlen, hp, rfl⟩
    | cons k rest =>
      obtain ⟨-, -, -, -, hlen⟩ := poolGetFrom_first key h.lists hfree
      exact .inl hlen
  · rw [Indices.getIdx, if_neg hp]
    exact .inl rfl

/-- The number of channels is what the peak needs. -/
structure Demand.Fits (d : Demand) : Prop where
  indices : ∃ ls, Partitioned d.tables ls
  used : ∀ pair, pair ∈ d.used ↔ d.tables.table pair ≠ 0
  peak_le : d.peak ≤ channelSize * d.tables.pool.length
  needed : d.tables.pool.length = 1 ∨ channelSize * (d.tables.pool.length - 1) < d.peak

namespace Demand.Fits

theorem start (h : demand.init d) : d.Fits := by
  obtain ⟨⟨a, htables⟩, hused, hpeak⟩ := h
  refine ⟨⟨[List.range' 1 channelSize], ?_⟩, fun pair => ?_, ?_, .inl ?_⟩
  · rw [htables]
    exact .start a
  · rw [hused, htables]
    exact iff_of_false (Finset.notMem_empty pair) (not_not.mpr rfl)
  · rw [hpeak]
    exact Nat.zero_le _
  · rw [htables]
    rfl

/-- `get_idx` for a pair that may have an index already. -/
theorem getIdx (h : d.Fits) (key : ℕ) (pair : Pair) :
    Fits ⟨(Indices.getIdx key d.tables pair).2, insert pair d.used,
      max d.peak (insert pair d.used).card⟩ := by
  obtain ⟨ls, hpart⟩ := h.indices
  obtain ⟨ls', hpart', hentry, hne⟩ := hpart.getIdx key pair
  have hgrows := hpart.getIdx_length key pair
  have hother : ∀ q, q ≠ pair →
      (Indices.getIdx key d.tables pair).2.table q = d.tables.table q := fun q hq => by
    unfold Indices.getIdx
    split
    · exact Function.update_of_ne hq _ _
    · rfl
  have hcard := hpart.card_used h.used
  generalize (Indices.getIdx key d.tables pair).1 = k at hentry hne
  generalize (Indices.getIdx key d.tables pair).2 = tables at *
  have hused : ∀ q, q ∈ insert pair d.used ↔ tables.table q ≠ 0 := fun q => by
    by_cases hq : q = pair
    · rw [hq, hentry]
      exact iff_of_true (Finset.mem_insert_self _ _) hne
    · rw [Finset.mem_insert, or_iff_right hq, h.used, hother q hq]
  have hcard' := hpart'.card_used hused
  refine ⟨⟨ls', hpart'⟩, hused, ?_, ?_⟩
  · have hpeak := h.peak_le
    change max d.peak _ ≤ channelSize * tables.pool.length
    rcases hgrows with hlen | ⟨hlen, -, -⟩
    · rw [← hlen] at hpeak
      omega
    · rw [hlen, Nat.mul_succ]
      rw [hlen, Nat.mul_succ] at hcard'
      omega
  · change tables.pool.length = 1 ∨ channelSize * (tables.pool.length - 1) < max d.peak _
    rcases hgrows with hlen | ⟨hlen, hz, hempty⟩
    · rw [hlen]
      exact h.needed.imp_right fun hlt => hlt.trans_le (le_max_left _ _)
    · -- all indices are in use, and the pair had none
      right
      have hnew : pair ∉ d.used := fun hp => (h.used pair).mp hp hz
      rw [hempty, List.length_nil, Nat.add_zero] at hcard
      rw [hlen, Nat.add_sub_cancel, ← hcard, Finset.card_insert_of_notMem hnew]
      omega

theorem step (h : d.Fits) (hs : demand.step d a = some d') : d'.Fits := by
  obtain ⟨tables, hstep, rfl⟩ := Option.map_eq_some_iff.mp hs
  cases a with
  | getIdx key pair =>
    obtain rfl := Option.some.inj hstep
    exact h.getIdx key pair
  | close key pair =>
    have hget := h.getIdx key pair
    obtain ⟨ls, hpart⟩ := h.indices
    obtain ⟨ls', hpart', hentry, hne⟩ := hpart.getIdx key pair
    obtain ⟨pool, ls'', hrel, hlen, hpart''⟩ := hpart'.release (hentry.trans_ne hne)
    rw [hentry] at hrel
    have htables : tables =
        ⟨pool, Function.update (Indices.getIdx key d.tables pair).2.table pair 0⟩ := by
      change (poolRelease (Indices.getIdx key d.tables pair).1
        (Indices.getIdx key d.tables pair).2.pool).map _ = some tables at hstep
      rw [hrel] at hstep
      exact (Option.some.inj hstep).symm
    subst htables
    refine ⟨⟨ls'', hpart''⟩, fun q => ?_, ?_, ?_⟩
    · have hused := hget.used q
      generalize (Indices.getIdx key d.tables pair).2 = t at hused
      change q ∈ (insert pair d.used).erase pair ↔ Function.update t.table pair 0 q ≠ 0
      rw [Finset.mem_erase]
      by_cases hq : q = pair
      · rw [hq, Function.update_self]
        exact iff_of_false (fun hp => hp.1 rfl) (not_not.mpr rfl)
      · rw [Function.update_of_ne hq, and_iff_right hq]
        exact hused
    · change _ ≤ channelSize * pool.length
      rw [hlen]
      exact hget.peak_le
    · change pool.length = 1 ∨ channelSize * (pool.length - 1) < _
      rw [hlen]
      exact hget.needed

end Demand.Fits

/-- After any calls the pool has exactly the channels that the most pairs with an index at one
time need: indices that are given back are used again before the pool grows. -/
theorem channels_of_peak (h : demand.Reachable Any d) :
    d.tables.pool.length = max 1 ((d.peak + channelSize - 1) / channelSize) := by
  obtain ⟨⟨ls, hpart⟩, -, hpeak, hneeded⟩ : d.Fits :=
    h.invariant (fun _ => Demand.Fits.start) fun _ _ _ hi _ hs => hi.step hs
  have hpos := List.length_pos_iff.mpr hpart.nonempty
  rw [channelSize_eq] at hpeak hneeded ⊢
  omega

theorem channels_of_peak_reuse : ∃ d : Demand, d.peak = 2 ∧
    d.tables.pool.length = max 1 ((d.peak + channelSize - 1) / channelSize) := by
  obtain ⟨d, hr, hd⟩ := reachable_of_run (M := demand) (l := reuse)
    (P := fun d => decide (d.peak = 2)) (s := ⟨⟨[freshChannel], fun _ => 0⟩, ∅, 0⟩)
    ⟨⟨_, rfl⟩, rfl, rfl⟩ (by decide +kernel)
  exact ⟨d, of_decide_eq_true hd, channels_of_peak hr⟩

end ShmSocket.Indices
