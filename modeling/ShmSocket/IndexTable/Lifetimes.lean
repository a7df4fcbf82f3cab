import ShmSocket.Pool.Growth

/-! Index tables and pool over the lives of processes. The channels of the pool go when the
last process leaves them, the tables stay. The calls run one at a time. -/
namespace ShmSocket.Lifetimes
open StepMachine Indices Processes

/-- A process has a pool while it runs. The names of processes are not used again. -/
structure Sys where
  mem : Mem
  chain : Pid → List ChannelSeg
  started : Pid → Bool
  table : Cell → ℕ

inductive Act where
  | start (p : Pid) (fuel : ℕ)
  | getIdx (p : Pid) (key : ℕ → ℤ) (fuel : ℕ) (pair : Pair)
  | close (p : Pid) (key : ℕ → ℤ) (fuel : ℕ) (pair : Pair)
  | exit (p : Pid)

namespace Sys

def getIdx (s : Sys) (p : Pid) (key : ℕ → ℤ) (fuel : ℕ) (pair : Pair) : Option (ℕ × Sys) :=
  if s.table (cell p pair) = 0 then
    (getFrom p key fuel 0 0 (s.chain p) s.mem).map fun x =>
      (x.1, { s with
        mem := x.2.2
        chain := Function.update s.chain p x.2.1
        table := Function.update s.table (cell p pair) x.1 })
  else some (s.table (cell p pair), s)

def clearIdx (s : Sys) (p : Pid) (pair : Pair) : Sys :=
  { s with table := Function.update s.table (cell p pair) 0 }

/-- `pool_release` of process `p`. -/
def release (s : Sys) (p : Pid) (index : ℕ) : Option Sys :=
  (Processes.release index (s.chain p) s.mem).map fun mem => { s with mem }

def step (s : Sys) : Act → Option Sys
  | .start p fuel =>
      if s.started p then none
      else
        (construct p fuel 0 poolShmKey s.mem).map fun x =>
          { s with
            mem := x.2
            chain := Function.update s.chain p x.1
            started := Function.update s.started p true }
  | .getIdx p key fuel pair =>
      if s.chain p = [] then none else (s.getIdx p key fuel pair).map Prod.snd
  | .close p key fuel pair =>
      if s.chain p = [] then none
      else (s.getIdx p key fuel pair).bind fun x => (x.2.clearIdx p pair).release p x.1
  | .exit p =>
      if s.chain p = [] then none
      else some { s with
        mem := destroy p (s.chain p) s.mem
        chain := Function.update s.chain p [] }

end Sys

/-- No process has started, and every table is new. -/
def machine : StepMachine Sys Act where
  init s := ∃ content, s = ⟨⟨content, fun _ => []⟩, fun _ => [], fun _ => false, fun _ => 0⟩
  step := Sys.step

/-- The exit of process `p` removes channel `j`: nobody else is attached to it. -/
def Removes (s : Sys) (p : Pid) (j : ℕ) : Prop :=
  ∃ g, (s.chain p)[j]? = some g ∧ ∀ q, g ∈ s.chain q → q = p

/-- No exit removes a channel that a table entry points into, and the pool grows along its
own keys. -/
def Orderly (s : Sys) : Act → Prop
  | .start _ _ => True
  | .getIdx p key _ pair | .close p key _ pair =>
      s.table (cell p pair) = 0 → KeySet s.mem s.chain p key
  | .exit p => ∀ c, s.table c ≠ 0 → ¬Removes s p (channelOf (s.table c))

/-- Some process has the channel of the index, and the free list does not offer it. -/
def Allocated (s : Sys) (k : ℕ) : Prop :=
  ∃ p g l, (s.chain p)[channelOf k]? = some g ∧ FreeList (s.mem.content g) l ∧ slotOf k ∉ l

structure Consistent (s : Sys) : Prop where
  allocated : ∀ c, s.table c ≠ 0 → Allocated s (s.table c)
  distinct : ∀ c c', s.table c ≠ 0 → s.table c = s.table c' → c = c'

structure Inv (s : Sys) (N : ℕ) : Prop where
  agree : Agree s.mem s.chain N
  stocked : Stocked s.mem N s.table
  unborn : ∀ p, s.started p = false → s.chain p = []

variable {s s' : Sys} {a : Act} {N : ℕ} {p : Pid} {pair : Pair} {key : ℕ → ℤ} {fuel k : ℕ}

theorem Inv.init (h : machine.init s) : Inv s 0 := by
  obtain ⟨content, rfl⟩ := h
  exact ⟨(Processes.Inv.start content).agree, .inl ⟨rfl, fun _ => rfl⟩, fun _ _ => rfl⟩

theorem Inv.start (h : Inv s N) (hs : s.step (.start p fuel) = some s') : ∃ N', Inv s' N' := by
  simp only [Sys.step] at hs
  split_ifs at hs with hstarted
  obtain ⟨x, hx, rfl⟩ := Option.map_eq_some_iff.mp hs
  obtain ⟨fuel', len, m', N', hrun, hagree, -, hstocked⟩ :=
    h.agree.construct (h.unborn p (Bool.eq_false_of_not_eq_true hstarted)) s.table
  obtain rfl := construct_unique hx hrun
  refine ⟨N', hagree, hstocked h.stocked, fun q hq => ?_⟩
  by_cases hqp : q = p
  · rw [hqp] at hq
    exact absurd ((Function.update_self _ _ _).symm.trans hq) (by decide)
  · change Function.update s.started p true q = false at hq
    change Function.update s.chain p (segs 0 len) q = []
    rw [Function.update_of_ne hqp] at hq ⊢
    exact h.unborn q hq

/-- After `get_idx` the entry of the pair holds the index it returned. -/
theorem Inv.getIdx (h : Inv s N) (hp : s.chain p ≠ [])
    (hkey : s.table (cell p pair) = 0 → KeySet s.mem s.chain p key)
    (hs : s.getIdx p key fuel pair = some (k, s')) :
    (∃ N', Inv s' N') ∧ s'.table (cell p pair) = k ∧ k ≠ 0 := by
  unfold Sys.getIdx at hs
  split_ifs at hs with hzero
  · obtain ⟨x, hx, he⟩ := Option.map_eq_some_iff.mp hs
    obtain ⟨fuel', r, len, m', N', hrun, hagree, -, hpos, -, hstocked⟩ :=
      h.agree.get hp h.stocked (hkey hzero)
    obtain rfl := getFrom_unique hx hrun
    cases he
    refine ⟨⟨N', hagree, hstocked _ hzero, fun q hq => ?_⟩, Function.update_self _ _ _, hpos.ne'⟩
    have hqp : q ≠ p := fun hqp => hp (hqp ▸ h.unborn q hq)
    exact (Function.update_of_ne hqp _ _).trans (h.unborn q hq)
  · cases hs
    exact ⟨⟨N, h⟩, rfl, hzero⟩

/-- `clear_idx` and `pool_release` of the index of a pair. -/
theorem Inv.release (h : Inv s N) (hk : s.table (cell p pair) = k) (hne : k ≠ 0)
    (hs : (s.clearIdx p pair).release p k = some s') : Inv s' N := by
  obtain ⟨m', hm', rfl⟩ := Option.map_eq_some_iff.mp hs
  obtain ⟨len, hlen, hchain⟩ := h.agree.chains p
  change Processes.release k (s.chain p) s.mem = some m' at hm'
  rw [hchain] at hm'
  obtain ⟨hrelease, hattached, hpools, -⟩ := release_spec hm' hlen
  have hentry : s.table (cell p pair) ≠ 0 := hk.trans_ne hne
  obtain ⟨ls, hls⟩ := h.stocked.partitioned hentry
  obtain ⟨pool, ls', hpool, -, hpart⟩ := hls.release hentry
  change poolRelease (s.table (cell p pair)) (view s.mem 0 N) = some pool at hpool
  rw [hk] at hpool
  obtain rfl := Option.some.inj (hpool.symm.trans hrelease)
  refine ⟨⟨hpools N h.agree.pools, h.agree.chains, fun g q => ?_⟩, .inr ⟨ls', hpart⟩, h.unborn⟩
  change (m'.attached g).count q = _
  rw [hattached]
  exact h.agree.count g q

/-- What is left when a process exits: the channels that others have attached. -/
structure Left (m m' : Mem) (chain : Pid → List ChannelSeg) (p : Pid) (N N' : ℕ) : Prop where
  agree : Agree m' (Function.update chain p []) N'
  le : N' ≤ N
  content : ∀ j < N', m'.content (seg j) = m.content (seg j)
  removed : ∀ j, N' ≤ j → j < N →
    (chain p)[j]? = some (seg j) ∧ ∀ q, seg j ∈ chain q → q = p

theorem exit_left {m : Mem} {chain : Pid → List ChannelSeg} (h : Agree m chain N) (p : Pid) :
    ∃ N', Left m (destroy p (chain p) m) chain p N N' := by
  have hcount : ∀ g q, ((destroy p (chain p) m).attached g).count q =
      (Function.update chain p [] q).count g := by
    intro g q
    rw [destroy_count, h.count]
    by_cases hq : q = p
    · rw [hq, if_pos rfl, Nat.sub_self, Function.update_self, List.count_nil]
    · rw [if_neg hq, Nat.sub_zero, Function.update_of_ne hq]
  have hnil : ∀ j, (destroy p (chain p) m).attached (seg j) = [] ↔
      ∀ q, seg j ∈ chain q → q = p := by
    intro j
    rw [List.eq_nil_iff_forall_not_mem]
    refine forall_congr' fun q => ?_
    rw [← List.count_eq_zero, hcount]
    by_cases hq : q = p
    · simp [hq]
    · rw [Function.update_of_ne hq, List.count_eq_zero]
      exact ⟨fun hnot hmem => absurd hmem hnot, fun himp hmem => hq (himp hmem)⟩
  have hmem : ∀ {j q}, seg j ∈ chain q → j < N ∧ ∀ i ≤ j, seg i ∈ chain q := by
    intro j q hj
    obtain ⟨len, hlen, hchain⟩ := h.chains q
    rw [hchain, mem_segs] at hj
    refine ⟨by omega, fun i hi => ?_⟩
    rw [hchain, mem_segs]
    omega
  have hend : ∃ j, (destroy p (chain p) m).attached (seg j) = [] :=
    ⟨N, (hnil N).mpr fun q hq => absurd (hmem hq).1 (lt_irrefl N)⟩
  have hle : Nat.find hend ≤ N :=
    Nat.find_min' hend ((hnil N).mpr fun q hq => absurd (hmem hq).1 (lt_irrefl N))
  have hiff : ∀ j, (destroy p (chain p) m).attached (seg j) = [] ↔ Nat.find hend ≤ j := by
    intro j
    refine ⟨fun hj => Nat.find_min' hend hj, fun hj => (hnil j).mpr fun q hq => ?_⟩
    exact (hnil _).mp (Nat.find_spec hend) q ((hmem hq).2 _ hj)
  have hcontent : ∀ j < Nat.find hend,
      (destroy p (chain p) m).content (seg j) = m.content (seg j) := fun j hj =>
    destroy_content fun h0 => hj.not_ge ((hiff j).mp h0)
  refine ⟨Nat.find hend, ⟨⟨⟨hiff, fun j hj => ?_, ?_⟩, fun q => ?_, hcount⟩, hle, hcontent,
    fun j hj hjN => ?_⟩⟩
  · rw [hcontent j hj]
    exact h.pools.words j (by omega)
  · exact lt_of_le_of_lt (Nat.mul_le_mul_right _ hle) h.pools.bound
  · by_cases hq : q = p
    · exact ⟨0, Nat.zero_le _, by rw [hq, Function.update_self]; rfl⟩
    · obtain ⟨len, -, hchain⟩ := h.chains q
      refine ⟨len, ?_, by rw [Function.update_of_ne hq, hchain]⟩
      by_contra hlong
      have hlast : seg (Nat.find hend) ∈ chain q := by
        rw [hchain, mem_segs]
        omega
      exact hq ((hnil _).mp (Nat.find_spec hend) q hlast)
  · have halone := (hnil j).mp ((hiff j).mpr hj)
    obtain ⟨q, hq⟩ := h.attached_by hjN
    obtain rfl := halone q hq
    obtain ⟨len, -, hchain⟩ := h.chains q
    rw [hchain, mem_segs] at hq
    refine ⟨?_, halone⟩
    rw [hchain, segs_getElem? (by omega), Nat.zero_add]

theorem Inv.exit (h : Inv s N) (ha : Orderly s (.exit p)) :
    ∃ N', Inv { s with
      mem := destroy p (s.chain p) s.mem
      chain := Function.update s.chain p [] } N' := by
  obtain ⟨N', hleft⟩ := exit_left h.agree p
  refine ⟨N', hleft.agree, h.stocked.shrink hleft.le hleft.content fun c hc => ?_, fun q hq => ?_⟩
  · by_contra hge
    have hlt : channelOf (s.table c) < N := by
      obtain ⟨ls, hls⟩ := h.stocked.partitioned hc
      exact channelOf_lt (Nat.pos_of_ne_zero hc) ((hls.range c).trans_eq (by rw [view_length]))
    obtain ⟨hseg, halone⟩ := hleft.removed _ (Nat.le_of_not_lt hge) hlt
    exact ha c hc ⟨_, hseg, halone⟩
  · by_cases hqp : q = p
    · exact hqp ▸ Function.update_self _ _ _
    · exact (Function.update_of_ne hqp _ _).trans (h.unborn q hq)

theorem Inv.step (h : Inv s N) (ha : Orderly s a) (hs : s.step a = some s') :
    ∃ N', Inv s' N' := by
  cases a with
  | start p fuel => exact h.start hs
  | getIdx p key fuel pair =>
    simp only [Sys.step] at hs
    split_ifs at hs with hp
    obtain ⟨x, hx, rfl⟩ := Option.map_eq_some_iff.mp hs
    exact (h.getIdx hp ha hx).1
  | close p key fuel pair =>
    simp only [Sys.step] at hs
    split_ifs at hs with hp
    obtain ⟨x, hx, hs⟩ := Option.bind_eq_some_iff.mp hs
    obtain ⟨⟨N', hinv⟩, hentry, hne⟩ := h.getIdx hp ha hx
    exact ⟨N', hinv.release hentry hne hs⟩
  | exit p =>
    simp only [Sys.step] at hs
    split_ifs at hs with hp
    cases hs
    exact h.exit ha

theorem Inv.consistent (h : Inv s N) : Consistent s where
  distinct := fun _ _ hne he => h.stocked.distinct hne he
  allocated := by
    intro c hc
    obtain ⟨ls, hls⟩ := h.stocked.partitioned hc
    have hpos := Nat.pos_of_ne_zero hc
    have hle : s.table c ≤ channelSize * N := (hls.range c).trans_eq (by rw [view_length])
    have hlt := channelOf_lt hpos hle
    obtain ⟨q, hq⟩ := h.agree.attached_by hlt
    obtain ⟨len, -, hchain⟩ := h.agree.chains q
    rw [hchain, mem_segs] at hq
    have hview : (view s.mem 0 N)[channelOf (s.table c)]? =
        some (s.mem.content (seg (channelOf (s.table c)))) := by
      unfold view
      rw [List.getElem?_map, List.getElem?_range' hlt, Nat.zero_add, Nat.one_mul]
      rfl
    obtain ⟨l, hl, hfree⟩ := freeList_at hls.lists hview
    refine ⟨q, seg (channelOf (s.table c)), l, ?_, hfree, fun hslot => ?_⟩
    · rw [hchain, segs_getElem? (by omega), Nat.zero_add]
    · have hindex : 0 + channelSize * channelOf (s.table c) + slotOf (s.table c) = s.table c := by
        have := Nat.div_add_mod (s.table c - 1) channelSize
        unfold channelOf slotOf
        omega
      have hmem : s.table c ∈ freeFrom 0 ls := hindex ▸ mem_freeFrom hl hslot
      exact ((hls.free _).mp hmem).2.2 c rfl

/-- As long as no exit removes a channel that an entry points into, entries denote
allocated indices, each its own. -/
theorem lifetimes_consistent {s : Sys} (h : machine.Reachable Orderly s) : Consistent s := by
  obtain ⟨N, hinv⟩ : ∃ N, Inv s N :=
    h.invariant (P := fun s => ∃ N, Inv s N) (fun _ h0 => ⟨0, .init h0⟩)
      fun _ _ _ ⟨_, hinv⟩ ha hs => hinv.step ha hs
  exact hinv.consistent

/-- Process 7 leaves an entry behind while process 8 still runs. -/
theorem lifetimes_consistent_leaving : ∃ s, s.chain 7 = [] ∧ s.table (cell 8 (1, 2)) = 1 ∧
    Consistent s := by
  have h0 : machine.Reachable Orderly
      ⟨⟨fun _ _ => 0, fun _ => []⟩, fun _ => [], fun _ => false, fun _ => 0⟩ := .init ⟨_, rfl⟩
  have h1 := h0.step (a := Act.start 7 1) trivial rfl
  have h2 := h1.step (a := Act.start 8 1) trivial rfl
  have h3 := h2.step (a := Act.getIdx 7 (fun _ => 0) 1 (1, 2))
    (fun _ he => absurd (he (seg 0) (by decide)) (by decide)) rfl
  have h4 := h3.step (a := Act.exit 7) (fun c _ hremoves => by
    obtain ⟨g, hg, halone⟩ := hremoves
    have hmem : g ∈ [seg 0] := List.mem_of_getElem? hg
    exact absurd (halone 8 hmem) (by decide)) rfl
  exact ⟨_, rfl, rfl, lifetimes_consistent h4⟩

/-- Process 7 exits with its entry in place, and process 8 finds a new pool. -/
def abandoned : List Act :=
  [.start 7 1, .getIdx 7 (fun _ => 0) 1 (1, 2), .exit 7, .start 8 1,
    .getIdx 8 (fun _ => 0) 1 (3, 4)]

theorem entries_collide : ∃ s, machine.Reachable Any s ∧
    s.table (cell 8 (1, 2)) = 1 ∧ s.table (cell 8 (3, 4)) = 1 ∧ ¬Consistent s := by
  obtain ⟨s, hr, hs⟩ := reachable_of_run (M := machine) (l := abandoned)
    (P := fun s : Sys => decide (s.table (cell 8 (1, 2)) = 1 ∧ s.table (cell 8 (3, 4)) = 1))
    (s := ⟨⟨fun _ _ => 0, fun _ => []⟩, fun _ => [], fun _ => false, fun _ => 0⟩) ⟨_, rfl⟩
    (by decide +kernel)
  obtain ⟨h12, h34⟩ := of_decide_eq_true hs
  refine ⟨s, hr, h12, h34, fun hconsistent => ?_⟩
  have hsame := hconsistent.distinct _ _ (by rw [h12]; decide) (h12.trans h34.symm)
  exact absurd (cell_pair hsame) (by decide)

end ShmSocket.Lifetimes
