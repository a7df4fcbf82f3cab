import ShmSocket.Pool.Partition

/-! `Connection` objects. The constructor takes the rings of both directions of a pair of
ports, the destructor gives both indices back to the pool and leaves the table entries. -/
namespace ShmSocket.Objects
open StepMachine Indices

/-- A `Connection(src, dst)` in process `p`, with the indices of its two rings. -/
structure Connection where
  p : Pid
  src : ℕ
  dst : ℕ
  readRB : ℕ
  writeRB : ℕ
  deriving DecidableEq

structure Sys where
  tables : Tables Cell
  live : ℕ → Option Connection

/-- `key` and `key'` are the keys of the channels that the two `pool_get` may have to make. -/
inductive Act where
  | construct (o : ℕ) (p : Pid) (src dst key key' : ℕ)
  | destroy (o : ℕ)

namespace Connection

def Uses (c : Connection) (k : ℕ) : Prop := c.readRB = k ∨ c.writeRB = k

/-- The entries of the two directions. -/
def readCell (c : Connection) : Cell := cell c.p (c.src, c.dst)
def writeCell (c : Connection) : Cell := cell c.p (c.dst, c.src)

def SamePorts (c c' : Connection) : Prop :=
  c.src = c'.src ∧ c.dst = c'.dst ∨ c.src = c'.dst ∧ c.dst = c'.src

end Connection

namespace Sys

/-- `Connection::Connection`, with the calls of `rb_init` left out. -/
def construct (s : Sys) (o : ℕ) (p : Pid) (src dst key key' : ℕ) : Sys :=
  let (readRB, tables) := getIdx key s.tables (cell p (src, dst))
  let (writeRB, tables) := getIdx key' tables (cell p (dst, src))
  ⟨tables, Function.update s.live o (some ⟨p, src, dst, readRB, writeRB⟩)⟩

/-- `Connection::~Connection`: `rb_destroy` of both rings. -/
def destroy (s : Sys) (o : ℕ) (c : Connection) : Option Sys :=
  ((poolRelease c.readRB s.tables.pool).bind (poolRelease c.writeRB ·)).map fun pool =>
    ⟨{ s.tables with pool }, Function.update s.live o none⟩

def step (s : Sys) : Act → Option Sys
  | .construct o p src dst key key' =>
      if src ≠ dst ∧ src < 65536 ∧ dst < 65536 ∧ s.live o = none then
        some (s.construct o p src dst key key')
      else none
  | .destroy o => (s.live o).bind (s.destroy o)

end Sys

/-- Empty tables, a pool of one channel, no objects. -/
def machine : StepMachine Sys Act where
  init s := (∃ a : Address, s.tables = ⟨[a.init], fun _ => 0⟩) ∧ ∀ o, s.live o = none
  step := Sys.step

def Act.Destroys : Act → Prop
  | .destroy _ => True
  | .construct .. => False

/-- No destructor runs. -/
def NoDestroy (_ : Sys) (a : Act) : Prop := ¬ a.Destroys

structure ReleasedOnce (s : Sys) : Prop where
  /-- Every channel has a free list; no index is twice on them, nor on one and in use or in
  an entry. -/
  free : ∃ ls, List.Forall₂ FreeList s.tables.pool ls ∧ (freeFrom 0 ls).Nodup ∧
    ∀ k ∈ freeFrom 0 ls, (∀ o c, s.live o = some c → ¬ c.Uses k) ∧ ∀ i, s.tables.table i ≠ k
  shared : ∀ o o' c c' k, o ≠ o' → s.live o = some c → s.live o' = some c' →
    c.Uses k → c'.Uses k → c.SamePorts c'

/-- The entries of an object hold its indices. -/
structure Named (t : Tables Cell) (c : Connection) : Prop where
  read : t.table c.readCell = c.readRB
  write : t.table c.writeCell = c.writeRB
  readNe : c.readRB ≠ 0
  writeNe : c.writeRB ≠ 0
  ports : c.src ≠ c.dst

/-- While nobody has given anything back, the entries of each object hold its indices. -/
structure Held (s : Sys) (ls : List (List ℕ)) : Prop where
  indices : Partitioned s.tables ls
  named : ∀ o c, s.live o = some c → Named s.tables c

/-- `get_idx` never changes an entry that has an index. -/
theorem getIdx_keeps {t : Tables Cell} {i j : Cell} (key : ℕ) (h : t.table i ≠ 0) :
    (getIdx key t j).2.table i = t.table i := by
  unfold getIdx
  split
  · next hz =>
    have hne : i ≠ j := fun he => h (he ▸ hz)
    exact Function.update_of_ne hne _ _
  · rfl

namespace Held
variable {s s' : Sys} {ls : List (List ℕ)} {o o' : ℕ} {c c' : Connection} {k : ℕ}

theorem start (h : machine.init s) : ∃ ls, Held s ls := by
  obtain ⟨⟨a, htables⟩, hnone⟩ := h
  refine ⟨[List.range' 1 channelSize], ?_, fun o c hc => ?_⟩
  · rw [htables]
    exact .start a
  · rw [hnone o] at hc
    cases hc

theorem construct (h : Held s ls) {p : Pid} {src dst : ℕ} (key key' : ℕ) (hports : src ≠ dst) :
    ∃ ls', Held (s.construct o p src dst key key') ls' := by
  obtain ⟨ls₁, hpart₁, hread, hreadne⟩ := h.indices.getIdx key (cell p (src, dst))
  obtain ⟨ls₂, hpart₂, hwrite, hwritene⟩ := hpart₁.getIdx key' (cell p (dst, src))
  have hkept : ∀ i, s.tables.table i ≠ 0 →
      (s.construct o p src dst key key').tables.table i = s.tables.table i := fun i hi => by
    have hone := getIdx_keeps (j := cell p (src, dst)) key hi
    exact (getIdx_keeps key' (hone.trans_ne hi)).trans hone
  have hnew : (s.construct o p src dst key key').tables.table (cell p (src, dst)) =
      (getIdx key s.tables (cell p (src, dst))).1 :=
    (getIdx_keeps key' (hread.trans_ne hreadne)).trans hread
  refine ⟨ls₂, hpart₂, fun o' c hc => ?_⟩
  change Function.update s.live o (some ⟨p, src, dst,
    (getIdx key s.tables (cell p (src, dst))).1, (getIdx key' (getIdx key s.tables
      (cell p (src, dst))).2 (cell p (dst, src))).1⟩) o' = some c at hc
  by_cases ho : o' = o
  · rw [ho, Function.update_self] at hc
    obtain rfl := Option.some.inj hc
    exact ⟨hnew, hwrite, hreadne, hwritene, hports⟩
  · rw [Function.update_of_ne ho] at hc
    have hold := h.named o' c hc
    exact ⟨(hkept _ (hold.read.trans_ne hold.readNe)).trans hold.read,
      (hkept _ (hold.write.trans_ne hold.writeNe)).trans hold.write,
      hold.readNe, hold.writeNe, hold.ports⟩

theorem step {a : Act} (h : Held s ls) (hc : NoDestroy s a) (hs : s.step a = some s') :
    ∃ ls', Held s' ls' := by
  cases a with
  | construct o p src dst key key' =>
    simp only [Sys.step] at hs
    split at hs
    · next hguard =>
      cases hs
      exact h.construct key key' hguard.1
    · cases hs
  | destroy o => exact absurd trivial hc

/-- An index in use is in the entry of one of the two directions. -/
theorem entry (h : Held s ls) (hc : s.live o = some c) (hk : c.Uses k) :
    k ≠ 0 ∧ ∃ i, s.tables.table i = k ∧ (i = c.readCell ∨ i = c.writeCell) := by
  have hnamed := h.named o c hc
  rcases hk with rfl | rfl
  · exact ⟨hnamed.readNe, _, hnamed.read, .inl rfl⟩
  · exact ⟨hnamed.writeNe, _, hnamed.write, .inr rfl⟩

theorem same_of_cell {i : Cell} (hi : i = c.readCell ∨ i = c.writeCell)
    (hi' : i = c'.readCell ∨ i = c'.writeCell) : c.SamePorts c' := by
  rcases hi with hi | hi <;> rcases hi' with hi' | hi' <;>
    obtain ⟨hsrc, hdst⟩ := Prod.mk.inj (cell_pair (hi.symm.trans hi'))
  · exact .inl ⟨hsrc, hdst⟩
  · exact .inr ⟨hsrc, hdst⟩
  · exact .inr ⟨hdst, hsrc⟩
  · exact .inl ⟨hdst, hsrc⟩

theorem releasedOnce (h : Held s ls) : ReleasedOnce s := by
  refine ⟨⟨ls, h.indices.lists, h.indices.nodup, fun k hk => ?_⟩, ?_⟩
  · obtain ⟨-, -, hnone⟩ := (h.indices.free k).mp hk
    refine ⟨fun o c hc huses => ?_, hnone⟩
    obtain ⟨-, i, hi, -⟩ := h.entry hc huses
    exact hnone i hi
  · intro o o' c c' k _ hc hc' huses huses'
    obtain ⟨hk, i, hi, hcell⟩ := h.entry hc huses
    obtain ⟨-, i', hi', hcell'⟩ := h.entry hc' huses'
    obtain rfl : i = i' := h.indices.distinct i i' (hi.trans_ne hk) (hi.trans hi'.symm)
    exact same_of_cell hcell hcell'

/-- A destructor puts an index on the free list that an entry still names. -/
theorem destroy (h : Held s ls) (hc : s.live o = some c) (hs : s.destroy o c = some s') :
    ¬ ReleasedOnce s' := by
  have hnamed := h.named o c hc
  have hne : c.readRB ≠ c.writeRB := fun he => by
    have hcell := h.indices.distinct c.readCell c.writeCell (hnamed.read.trans_ne hnamed.readNe)
      (hnamed.read.trans (he.trans hnamed.write.symm))
    exact hnamed.ports (Prod.mk.inj (cell_pair hcell)).1
  have hread := h.indices.range c.readCell
  have hwrite := h.indices.range c.writeCell
  rw [hnamed.read] at hread
  rw [hnamed.write] at hwrite
  have hnot : ∀ k, (∃ i, s.tables.table i = k) → k ∉ freeFrom 0 ls := fun k ⟨i, hi⟩ hk =>
    ((h.indices.free k).mp hk).2.2 i hi
  obtain ⟨pool₁, ls₁, hrel₁, hlists₁, hlen₁, hperm₁⟩ := poolRelease_put 0 h.indices.lists
    (Nat.pos_of_ne_zero hnamed.readNe) hread (by rw [Nat.zero_add]; exact hnot _ ⟨_, hnamed.read⟩)
  rw [Nat.zero_add] at hperm₁
  have hwrite₁ : c.writeRB ∉ freeFrom 0 ls₁ := by
    rw [hperm₁.mem_iff, List.mem_cons]
    exact not_or.mpr ⟨hne.symm, hnot _ ⟨_, hnamed.write⟩⟩
  obtain ⟨pool₂, ls₂, hrel₂, hlists₂, -, hperm₂⟩ := poolRelease_put 0 hlists₁
    (Nat.pos_of_ne_zero hnamed.writeNe) (by rw [hlen₁]; exact hwrite)
    (by rw [Nat.zero_add]; exact hwrite₁)
  have hs' : s' = ⟨⟨pool₂, s.tables.table⟩, Function.update s.live o none⟩ := by
    unfold Sys.destroy at hs
    rw [hrel₁, Option.bind_some, hrel₂] at hs
    exact (Option.some.inj hs).symm
  rintro ⟨⟨ls', hlists', -, hfree⟩, -⟩
  rw [hs'] at hlists' hfree
  obtain rfl : ls' = ls₂ :=
    List.right_unique_forall₂' (fun _ _ _ hl hl' => hl.unique hl') hlists' hlists₂
  have hmem : c.readRB ∈ freeFrom 0 ls' := by
    rw [hperm₂.mem_iff, List.mem_cons, hperm₁.mem_iff, List.mem_cons]
    exact .inr (.inl rfl)
  exact (hfree _ hmem).2 _ hnamed.read

end Held

theorem reachable_held {s : Sys} (h : machine.Reachable NoDestroy s) : ∃ ls, Held s ls :=
  h.invariant (fun _ => Held.start) fun _ _ _ ⟨_, hi⟩ hc ha => hi.step hc ha

/-- Both ends of the pair (1, 2) in process 7. -/
theorem bothEnds : ∃ s, machine.Reachable NoDestroy s ∧
    s.live 0 = some ⟨7, 1, 2, 1, 2⟩ ∧ s.live 1 = some ⟨7, 2, 1, 2, 1⟩ ∧
    (machine.step s (.destroy 0)).isSome = true := by
  have h0 : machine.Reachable NoDestroy ⟨⟨[freshChannel], fun _ => 0⟩, fun _ => none⟩ :=
    .init ⟨⟨_, rfl⟩, fun _ => rfl⟩
  have h1 := h0.step (a := Act.construct 0 7 1 2 0 0) id rfl
  have h2 := h1.step (a := Act.construct 1 7 2 1 0 0) id rfl
  exact ⟨_, h2, by decide +kernel, by decide +kernel, by decide +kernel⟩

end ShmSocket.Objects
