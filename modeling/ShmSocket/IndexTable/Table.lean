import ShmSocket.CInt

/-! The index tables: for each source port a block of words, one for each destination
port. -/
namespace ShmSocket

/-- A source and a destination port. -/
abbrev Pair := ℕ × ℕ

/-- The segments behind `src_memo`. Key 0 is `IPC_PRIVATE`: every process makes its own
segment for source port 0. -/
inductive Block where
  | shared (srcPort : ℕ)
  | own (p : Pid)
  deriving DecidableEq

/-- The block that process `p` attaches for a source port. -/
def getDstBlock (p : Pid) (srcPort : ℕ) : Block := if srcPort = 0 then .own p else .shared srcPort

/-- A word of a block. -/
abbrev Cell := Block × ℕ

/-- The entry of a pair in the tables that process `p` sees. -/
def cell (p : Pid) (pair : Pair) : Cell := (getDstBlock p pair.1, pair.2)

variable {p q : Pid} {pair pair' : Pair}

theorem getDstBlock_inj {src src' : ℕ} (h : getDstBlock p src = getDstBlock q src') :
    src = src' := by
  unfold getDstBlock at h
  split_ifs at h with h1 h2 h2
  · exact h1.trans h2.symm
  · exact Block.shared.inj h

/-- Different pairs have different entries, whichever processes look. -/
theorem cell_pair (h : cell p pair = cell q pair') : pair = pair' := by
  obtain ⟨hsrc, hdst⟩ := Prod.mk.inj h
  exact Prod.ext (getDstBlock_inj hsrc) hdst

/-- The entry of source port 0 is the process's own. -/
theorem cell_own (h : cell p pair = cell q pair') (hz : pair.1 = 0) : p = q := by
  have hz' : pair'.1 = 0 := by rw [← cell_pair h, hz]
  have hblock := (Prod.mk.inj h).1
  rw [getDstBlock, getDstBlock, if_pos hz, if_pos hz'] at hblock
  exact Block.own.inj hblock

/-- All processes share the entry of a pair whose source port is not 0. -/
theorem cell_shared (p q : Pid) (h : pair.1 ≠ 0) : cell p pair = cell q pair := by
  rw [cell, cell, getDstBlock, getDstBlock, if_neg h, if_neg h]

end ShmSocket
