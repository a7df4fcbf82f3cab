import ShmSocket.Lib.LinkedCells
import Mathlib.Tactic

/-! One channel of the pool: a free list of indices threaded through its segment.
`get` and `release` are given here run alone. -/
namespace ShmSocket
open LinkedCells

def metaFiledSize : ℕ := 2
def channelSize : ℕ := 4096 - metaFiledSize
def nextChannelIndex : ℕ := channelSize + 1

theorem channelSize_eq : channelSize = 4094 := rfl

/-- The words of a channel's segment: word 0 is the dummy head, word `i` links
index `i`. -/
abbrev Address := ℕ → ℕ

/-- The stores of the constructor on a segment nobody else has attached. -/
def Address.init (a : Address) : Address :=
  Function.update
    (Function.update (fun i => if i ≤ channelSize then i + 1 else a i) channelSize 0)
    nextChannelIndex 0

/-- A new segment is zero-filled. -/
def freshChannel : Address := Address.init fun _ => 0

/-- `Channel::get` with no other process active. -/
def channelGet (a : Address) : ℕ × Address := (a 0, Function.update a 0 (a (a 0)))

/-- `Channel::release` with no other process active. -/
def channelRelease (a : Address) (index : ℕ) : Address :=
  Function.update (Function.update a index (a 0)) 0 index

/-- The free list of a channel. -/
structure FreeList (a : Address) (l : List ℕ) : Prop where
  linked : Linked a 0 (a 0) l
  le : ∀ i ∈ l, i ≤ channelSize

namespace FreeList
variable {a : Address} {l : List ℕ} {i : ℕ}

theorem pos (h : FreeList a l) (hi : i ∈ l) : 0 < i := Nat.pos_of_ne_zero (h.linked.ne_stop hi)

theorem nodup (h : FreeList a l) : l.Nodup := h.linked.nodup

theorem unique {l' : List ℕ} (h : FreeList a l) (h' : FreeList a l') : l = l' :=
  h.linked.unique h'.linked

/-- Moving the dummy head to another list through the same links. -/
theorem move {j : ℕ} (hl : Linked a 0 j l) (hle : ∀ i ∈ l, i ≤ channelSize) :
    FreeList (Function.update a 0 j) l := by
  refine ⟨?_, hle⟩
  rw [Function.update_self]
  exact hl.update (fun h0 => hl.ne_stop h0 rfl) j

/-- On an empty list `get` returns 0 and changes nothing. -/
theorem get_nil (h : FreeList a []) : channelGet a = (0, a) := by
  have h0 : a 0 = 0 := h.linked
  have hlink : a (a 0) = a 0 := congrArg a h0
  rw [channelGet, hlink, Function.update_eq_self, h0]

/-- `get` takes the first index of the list. -/
theorem get_cons (h : FreeList a (i :: l)) :
    (channelGet a).1 = i ∧ FreeList (channelGet a).2 l := by
  obtain ⟨hi, hne, hl⟩ := h.linked
  refine ⟨hi, ?_⟩
  rw [channelGet, hi]
  exact move hl fun j hj => h.le j (List.mem_cons_of_mem _ hj)

/-- `release` puts an index in front of the list. -/
theorem release (h : FreeList a l) (hi : i ∉ l) (hpos : 0 < i) (hle : i ≤ channelSize) :
    FreeList (channelRelease a i) (i :: l) := by
  apply move (h.linked.push hi hpos.ne')
  intro j hj
  rcases List.mem_cons.mp hj with rfl | hj
  · exact hle
  · exact h.le j hj

end FreeList

theorem channelGet_word (a : Address) : (channelGet a).2 nextChannelIndex = a nextChannelIndex :=
  Function.update_of_ne (show nextChannelIndex ≠ 0 by decide) (a (a 0)) a

/-- The links the constructor stores. -/
theorem init_link (a : Address) {i : ℕ} (hi : i < channelSize) : a.init i = i + 1 := by
  unfold Address.init
  rw [Function.update_of_ne (by unfold nextChannelIndex; omega), Function.update_of_ne (by omega),
    if_pos (by omega)]

theorem init_last (a : Address) : a.init channelSize = 0 := by
  unfold Address.init
  rw [Function.update_of_ne (by unfold nextChannelIndex; omega), Function.update_self]

theorem init_linked (a : Address) (d : ℕ) (hd : d < channelSize) :
    Linked a.init 0 (channelSize - d) (List.range' (channelSize - d) (d + 1)) := by
  induction d with
  | zero =>
    refine ⟨rfl, ?_, init_last a⟩
    rw [channelSize_eq]
    omega
  | succ d ih =>
    have hnext : channelSize - (d + 1) + 1 = channelSize - d := by omega
    refine ⟨rfl, by omega, ?_⟩
    rw [init_link a (by omega), hnext]
    exact ih (by omega)

/-- A new channel offers the indices 1 to `channelSize` in this order. -/
theorem init_freeList (a : Address) : FreeList a.init (List.range' 1 channelSize) := by
  have hpos : 0 < channelSize := by
    rw [channelSize_eq]
    omega
  have hl := init_linked a (channelSize - 1) (by omega)
  have hone : channelSize - (channelSize - 1) = 1 := by omega
  have hlen : channelSize - 1 + 1 = channelSize := by omega
  rw [hone, hlen] at hl
  refine ⟨?_, ?_⟩
  · rw [init_link a hpos]
    exact hl
  · intro i hi
    have := List.mem_range'_1.mp hi
    omega

end ShmSocket
