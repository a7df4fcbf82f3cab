import ShmSocket.Pool.Growth

/-! `Pool::release` of an index by a process that need not have got it. The loop walks the
chain of the caller, which is as long as the pool was when the caller made or last grew its
own. -/
namespace ShmSocket.Processes.Releases
open StepMachine Indices

/-- `origin` has the segment and the slot that an index in use was taken from. -/
structure InUse where
  mem : Mem
  chain : Pid → List ChannelSeg
  origin : ℕ → Option (ChannelSeg × ℕ)

/-- The calls of `Pool`, one at a time; an index in use may be released by any process. -/
inductive Call where
  | construct (p : Pid) (fuel : ℕ)
  | get (p : Pid) (key : ℕ → ℤ) (fuel : ℕ)
  | release (p : Pid) (index : ℕ)

def InUse.step (s : InUse) : Call → Option InUse
  | .construct p fuel =>
      if s.chain p = [] then
        (construct p fuel 0 poolShmKey s.mem).map fun x =>
          { s with mem := x.2, chain := Function.update s.chain p x.1 }
      else none
  | .get p key fuel =>
      (getFrom p key fuel 0 0 (s.chain p) s.mem).map fun x =>
        { mem := x.2.2
          chain := Function.update s.chain p x.2.1
          origin := Function.update s.origin x.1 (locate x.2.1 x.1) }
  | .release p index =>
      if (s.origin index).isSome then
        (release index (s.chain p) s.mem).map fun m =>
          { s with mem := m, origin := Function.update s.origin index none }
      else none

def InUse.start (content : ChannelSeg → Address) : InUse :=
  ⟨⟨content, fun _ => []⟩, fun _ => [], fun _ => none⟩

def machine : StepMachine InUse Call where
  init s := ∃ content, s = .start content
  step := InUse.step

def KeysRight (s : InUse) : Call → Prop
  | .get p key _ => KeySet s.mem s.chain p key
  | _ => True

section walk
variable {m : Mem} {gs : List ChannelSeg}

/-- `Pool::release` pushes the slot of an index onto the free list of its channel, if the
chain of the caller has that channel. -/
theorem release_locate {k : ℕ} (hpos : 0 < k) : release k gs m =
    (locate gs k).map fun x => m.store x.1 (channelRelease (m.content x.1) x.2) := by
  induction gs generalizing k with
  | nil => rfl
  | cons g gs ih =>
    rw [release]
    by_cases hnext : channelSize < k
    · obtain ⟨hchannel, hslot⟩ := channelOf_next hnext
      rw [if_pos hnext, ih (by omega), locate, locate, hchannel, hslot, List.getElem?_cons_succ]
    · obtain ⟨hchannel, hslot⟩ := channelOf_first hpos (Nat.le_of_not_lt hnext)
      rw [if_neg hnext, locate, hchannel, hslot, List.getElem?_cons_zero]
      rfl

theorem locate_isSome {k : ℕ} (hpos : 0 < k) :
    (locate gs k).isSome ↔ k ≤ channelSize * gs.length := by
  rw [locate, Option.isSome_map, isSome_getElem?]
  constructor
  · intro h
    have hdiv := (Nat.div_lt_iff_lt_mul channelSize_pos).mp h
    rw [Nat.mul_comm] at hdiv
    omega
  · exact channelOf_lt hpos

end walk

section pop
variable {p : Pid} {key : ℕ → ℤ} {fuel n pre r : ℕ} {k : ℤ} {m m' : Mem} {g : ChannelSeg}
  {gs gs' : List ChannelSeg}

/-- Every attached segment has its free list. -/
def Listed (m : Mem) : Prop := ∀ g, m.attached g ≠ [] → ∃ l, FreeList (m.content g) l

/-- The segments of a chain are attached. -/
def Along (m : Mem) (gs : List ChannelSeg) : Prop := ∀ g ∈ gs, m.attached g ≠ []

/-- What a constructor leaves: the segments attached before still are. -/
structure Kept (m m' : Mem) : Prop where
  listed : Listed m'
  attached : ∀ g, m.attached g ≠ [] → m'.attached g ≠ []

theorem Kept.along (h : Kept m m') (hgs : Along m gs) : Along m' gs := fun g hg =>
  h.attached g (hgs g hg)

theorem Kept.trans {m'' : Mem} (h : Kept m m') (h' : Kept m' m'') : Kept m m'' :=
  ⟨h'.listed, fun g hg => h'.attached g (h.attached g hg)⟩

theorem Listed.store {a : Address} {l : List ℕ} (h : Listed m) (ha : FreeList a l) :
    Kept m (m.store g a) := by
  refine ⟨fun g' hg' => ?_, fun _ hg' => hg'⟩
  by_cases he : g' = g
  · rw [he, Mem.store_here]
    exact ⟨l, ha⟩
  · rw [Mem.store_of_ne _ _ he]
    exact h g' hg'

theorem shmat_attached (m : Mem) (g : ChannelSeg) (p : Pid) : (m.shmat g p).attached g ≠ [] := by
  change Function.update m.attached g (p :: m.attached g) g ≠ []
  rw [Function.update_self]
  exact List.cons_ne_nil _ _

theorem shmat_of_ne {g' : ChannelSeg} (h : g' ≠ g) :
    (m.shmat g p).attached g' = m.attached g' := Function.update_of_ne h _ _

/-- Attaching a segment that has its free list. -/
theorem Listed.shmat (h : Listed m) (hg : m.attached g ≠ []) : Kept m (m.shmat g p) := by
  constructor
  · intro g' hg'
    by_cases he : g' = g
    · exact he ▸ h g hg
    · exact h g' (shmat_of_ne he ▸ hg')
  · intro g' hg'
    by_cases he : g' = g
    · rw [he]
      exact shmat_attached m g p
    · rwa [shmat_of_ne he]

/-- Attaching a segment that nobody has, and filling it. -/
theorem Listed.create (h : Listed m) (a : Address) :
    Kept m ((m.shmat g p).store g a.init) := by
  refine ⟨fun g' hg' => ?_, fun g' hg' => ?_⟩
  · by_cases he : g' = g
    · rw [he, Mem.store_here]
      exact ⟨_, init_freeList a⟩
    · rw [Mem.store_of_ne _ _ he]
      rw [Mem.store_attached, shmat_of_ne he] at hg'
      exact h g' hg'
  · by_cases he : g' = g
    · rw [he]
      exact shmat_attached m g p
    · rwa [Mem.store_attached, shmat_of_ne he]

theorem construct_kept (h : construct p fuel n k m = some (gs, m')) (hm : Listed m) :
    Kept m m' ∧ Along m' gs := by
  induction fuel generalizing n k m gs with
  | zero => cases h
  | succ fuel ih =>
    simp only [construct] at h
    set g := channelSeg p n k
    have hhere := shmat_attached m g p
    split_ifs at h with hnone hword
    · cases h
      exact ⟨hm.create _, List.forall_mem_singleton.mpr hhere⟩
    · cases h
      exact ⟨hm.shmat (fun h0 => hnone (by rw [h0]; rfl)), List.forall_mem_singleton.mpr hhere⟩
    · obtain ⟨⟨gs, m'⟩, hx, hy⟩ := Option.map_eq_some_iff.mp h
      cases hy
      have hattach := hm.shmat (p := p) (g := g) fun h0 => hnone (by rw [h0]; rfl)
      obtain ⟨hkept, halong⟩ := ih hx hattach.listed
      exact ⟨hattach.trans hkept, List.forall_mem_cons.mpr ⟨hkept.attached g hhere, halong⟩⟩

theorem grow_kept (h : grow p fuel n k g m = some (gs, m')) (hm : Listed m)
    (hg : m.attached g ≠ []) : Kept m m' ∧ Along m' gs := by
  obtain ⟨⟨gs, m₁⟩, hx, hy⟩ := Option.map_eq_some_iff.mp h
  cases hy
  obtain ⟨hkept, halong⟩ := construct_kept hx hm
  obtain ⟨l, hl⟩ := hkept.listed g (hkept.attached g hg)
  have hstore := hkept.listed.store (g := g) (hl.allocNextChannel (u32 (k + 1)))
  exact ⟨hkept.trans hstore, hstore.along halong⟩

/-- The last that happened to the memory is that `Channel::get` took slot `x.2` of segment
`x.1` off the free list there. -/
def Popped (m : Mem) (x : ChannelSeg × ℕ) : Prop :=
  ∃ (before : Mem) (rest : List ℕ), FreeList (before.content x.1) (x.2 :: rest) ∧
    m = before.store x.1 (channelGet (before.content x.1)).2

theorem getFrom_pops (h : getFrom p key fuel n pre gs m = some (r, gs', m')) (hm : Listed m)
    (hgs : Along m gs) :
    ∃ j x, gs'[j]? = some x.1 ∧ r = pre + channelSize * j + x.2 ∧ Popped m' x := by
  induction fuel generalizing n pre gs gs' m with
  | zero => cases h
  | succ fuel ih =>
    cases gs with
    | nil => cases h
    | cons g gs =>
      obtain ⟨hg, hgs⟩ := List.forall_mem_cons.mp hgs
      obtain ⟨l, hl⟩ := hm g hg
      cases l with
      | cons i l =>
        rw [getFrom_hit hl] at h
        cases h
        exact ⟨0, (g, i), rfl, rfl, m, l, hl, rfl⟩
      | nil =>
        simp only [getFrom, hl.get_nil, lt_irrefl, if_false, Mem.store_self] at h
        obtain ⟨⟨gs₁, m₁⟩, hx, h⟩ := Option.bind_eq_some_iff.mp h
        obtain ⟨⟨r, gs₂, m₂⟩, hloop, hy⟩ := Option.map_eq_some_iff.mp h
        cases hy
        have hnext : Kept m m₁ ∧ Along m₁ gs₁ := by
          split_ifs at hx with hlast
          · exact grow_kept hx hm hg
          · cases hx
            exact ⟨⟨hm, fun _ => id⟩, hgs⟩
        obtain ⟨j, x, hj, hr, hpop⟩ := ih hloop hnext.1.listed hnext.2
        refine ⟨j + 1, x, hj, ?_, hpop⟩
        rw [hr, Nat.mul_succ]
        omega

/-- `Pool::get` takes the index from where `locate` has it. -/
theorem get_pops (h : getFrom p key fuel 0 0 gs m = some (r, gs', m')) (hm : Listed m)
    (hgs : Along m gs) : ∃ g, locate gs' r = some (g, slotOf r) ∧ Popped m' (g, slotOf r) := by
  obtain ⟨j, ⟨g, i⟩, hj, hr, before, rest, hlist, hm'⟩ := getFrom_pops h hm hgs
  have hpos : 0 < i := hlist.pos List.mem_cons_self
  have hle : i ≤ channelSize := hlist.le i List.mem_cons_self
  rw [Nat.zero_add] at hr
  have hchannel : channelOf r = j := hr ▸ channelOf_add hpos hle
  have hslot : slotOf r = i := hr ▸ slotOf_add hpos hle
  refine ⟨g, ?_, ?_⟩
  · rw [locate, hchannel, hj]
    rfl
  · rw [hslot]
    exact ⟨before, rest, hlist, hm'⟩

end pop

/-- The indices in use as a table that gives each its own entry. -/
def entries (origin : ℕ → Option (ChannelSeg × ℕ)) (k : ℕ) : ℕ := if (origin k).isSome then k else 0

theorem entries_some {origin : ℕ → Option (ChannelSeg × ℕ)} {k : ℕ} (h : (origin k).isSome) :
    entries origin k = k := if_pos h

theorem entries_update (origin : ℕ → Option (ChannelSeg × ℕ)) (k : ℕ)
    (x : Option (ChannelSeg × ℕ)) : entries (Function.update origin k x) =
      Function.update (entries origin) k (if x.isSome then k else 0) := by
  funext j
  unfold entries
  by_cases hj : j = k
  · subst hj
    rw [Function.update_self, Function.update_self]
  · rw [Function.update_of_ne hj, Function.update_of_ne hj]

structure Inv (s : InUse) (N : ℕ) : Prop where
  agree : Agree s.mem s.chain N
  stocked : Stocked s.mem N (entries s.origin)
  origins : ∀ k x, s.origin k = some x → 0 < k ∧ x = (seg (channelOf k), slotOf k)

variable {s s' : InUse} {a : Call} {N k : ℕ} {p : Pid}

theorem Inv.start (content : ChannelSeg → Address) : Inv (.start content) 0 where
  agree := ⟨⟨fun _ => by simp [InUse.start], fun _ h => absurd h (Nat.not_lt_zero _), by decide⟩,
    fun _ => ⟨0, le_rfl, rfl⟩, fun _ _ => rfl⟩
  stocked := .inl ⟨rfl, fun _ => rfl⟩
  origins := fun _ _ h => nomatch h

theorem Inv.isSome_pos (h : Inv s N) (hk : (s.origin k).isSome) : 0 < k := by
  obtain ⟨x, hx⟩ := Option.isSome_iff_exists.mp hk
  exact (h.origins k x hx).1

theorem Inv.partitioned (h : Inv s N) (hk : (s.origin k).isSome) :
    ∃ ls, Partitioned ⟨view s.mem 0 N, entries s.origin⟩ ls := by
  refine h.stocked.partitioned (c := k) ?_
  rw [entries_some hk]
  exact (h.isSome_pos hk).ne'

theorem chain_along {m : Mem} {chain : Pid → List ChannelSeg} (h : Agree m chain N) (p : Pid) :
    Along m (chain p) := by
  intro g hg h0
  have hcount := List.count_pos_iff.mpr hg
  rw [← h.count, h0] at hcount
  exact absurd hcount (Nat.lt_irrefl 0)

/-- The segments in use are the `N` channels, and each has its free list. -/
theorem Inv.listed (h : Inv s N) : Listed s.mem := by
  intro g hg
  obtain ⟨q, hq⟩ := List.exists_mem_of_ne_nil _ hg
  rw [← List.count_pos_iff, h.agree.count, List.count_pos_iff] at hq
  obtain ⟨len, hlen, hchain⟩ := h.agree.chains q
  rw [hchain] at hq
  obtain ⟨j, hj, rfl⟩ := List.mem_map.mp hq
  have hjN : j < N := by
    have := (List.mem_range'_1.mp hj).2
    omega
  rcases h.stocked with ⟨h0, -⟩ | ⟨ls, hls⟩
  · omega
  · have hview : (view s.mem 0 N)[j]? = some (s.mem.content (seg j)) := by
      rw [view, List.getElem?_map, List.getElem?_range' hjN, Nat.zero_add, Nat.one_mul]
      rfl
    obtain ⟨l, -, hl⟩ := freeList_at hls.lists hview
    exact ⟨l, hl⟩

theorem Inv.construct (h : Inv s N) (ha : s.step (.construct p k) = some s') :
    ∃ N', Inv s' N' := by
  by_cases hp : s.chain p = []
  · obtain ⟨fuel, len, m', N', hrun, hagree, -, hstocked⟩ :=
      h.agree.construct hp (entries s.origin)
    simp only [InUse.step, if_pos hp] at ha
    obtain ⟨x, hx, rfl⟩ := Option.map_eq_some_iff.mp ha
    obtain rfl := construct_unique hx hrun
    exact ⟨N', hagree, hstocked h.stocked, h.origins⟩
  · simp only [InUse.step, if_neg hp] at ha
    cases ha

/-- `Pool::get` returns an index that is not in use. -/
theorem Inv.get {key : ℕ → ℤ} {fuel : ℕ} (h : Inv s N) (hkey : KeySet s.mem s.chain p key)
    (ha : s.step (.get p key fuel) = some s') : ∃ N', Inv s' N' := by
  have hp : s.chain p ≠ [] := by
    intro hp
    cases fuel <;> simp [InUse.step, hp, getFrom] at ha
  obtain ⟨fuel', r, len, m', N', hrun, hagree, -, hpos, hle, hstocked⟩ :=
    h.agree.get hp h.stocked hkey
  obtain ⟨x, hx, rfl⟩ := Option.map_eq_some_iff.mp ha
  obtain rfl := getFrom_unique hx hrun
  have hlocate : locate (segs 0 len) r = some (seg (channelOf r), slotOf r) := by
    rw [locate, segs_getElem? (channelOf_lt hpos hle), Nat.zero_add]
    rfl
  have hfresh : entries s.origin r = 0 := by
    have hzero : entries s.origin 0 = 0 := ite_self 0
    have hnow := hstocked 0 hzero
    by_contra hne
    have hself : entries s.origin r = r := entries_some (by_contra fun h0 => hne (if_neg h0))
    have hr : Function.update (entries s.origin) 0 r r = r := by
      rw [Function.update_of_ne hpos.ne', hself]
    have hnew : Function.update (entries s.origin) 0 r 0 = r := Function.update_self _ _ _
    exact hpos.ne (hnow.distinct (by rw [hnew]; exact hpos.ne') (hnew.trans hr.symm))
  refine ⟨N', hagree, ?_, fun k x hk => ?_⟩
  · change Stocked m' N' (entries (Function.update s.origin r (locate (segs 0 len) r)))
    rw [entries_update, hlocate]
    exact hstocked r hfresh
  · change Function.update s.origin r (locate (segs 0 len) r) k = some x at hk
    by_cases hkr : k = r
    · rw [hkr, Function.update_self, hlocate] at hk
      rw [hkr]
      exact ⟨hpos, (Option.some.inj hk).symm⟩
    · rw [Function.update_of_ne hkr] at hk
      exact h.origins k x hk

theorem Inv.release (h : Inv s N) (ha : s.step (.release p k) = some s') : Inv s' N := by
  by_cases hk : (s.origin k).isSome
  · simp only [InUse.step, if_pos hk] at ha
    obtain ⟨m', hrun, rfl⟩ := Option.map_eq_some_iff.mp ha
    obtain ⟨len, hlen, hchain⟩ := h.agree.chains p
    rw [hchain] at hrun
    obtain ⟨hview, hattached, hpools, -⟩ := release_spec hrun hlen
    obtain ⟨ls, hls⟩ := h.partitioned hk
    have hself := entries_some hk
    have hne : entries s.origin k ≠ 0 := by
      rw [hself]
      exact (h.isSome_pos hk).ne'
    obtain ⟨pool, ls', hrel, -, hpart⟩ := hls.release hne
    change poolRelease (entries s.origin k) (view s.mem 0 N) = some pool at hrel
    rw [hself, hview] at hrel
    obtain rfl := Option.some.inj hrel
    refine ⟨⟨hpools N h.agree.pools, h.agree.chains, ?_⟩, ?_, fun j x hj => ?_⟩
    · intro g q
      change (m'.attached g).count q = _
      rw [hattached]
      exact h.agree.count g q
    · change Stocked m' N (entries (Function.update s.origin k none))
      rw [entries_update]
      exact .inr ⟨ls', hpart⟩
    · change Function.update s.origin k none j = some x at hj
      by_cases hjk : j = k
      · rw [hjk, Function.update_self] at hj
        cases hj
      · rw [Function.update_of_ne hjk] at hj
        exact h.origins j x hj
  · simp only [InUse.step, if_neg hk] at ha
    cases ha

theorem Inv.step (h : Inv s N) (hc : KeysRight s a) (ha : s.step a = some s') :
    ∃ N', Inv s' N' := by
  cases a with
  | construct p fuel => exact h.construct ha
  | get p key fuel => exact h.get hc ha
  | release p k => exact ⟨N, h.release ha⟩

theorem exists_inv (h : machine.Reachable KeysRight s) : ∃ N, Inv s N := by
  refine h.invariant (P := fun s => ∃ N, Inv s N) ?_ ?_
  · rintro s ⟨content, rfl⟩
    exact ⟨0, .start content⟩
  · rintro s a s' ⟨N, hinv⟩ hc hs
    exact hinv.step hc hs

/-- `Pool::release` of index `k` by process `q` pushes it where `x` says. -/
def Pushes (s : InUse) (q : Pid) (k : ℕ) (x : ChannelSeg × ℕ) : Prop :=
  release k (s.chain q) s.mem =
      some (s.mem.store x.1 (channelRelease (s.mem.content x.1) x.2)) ∧
    ∃ l, FreeList (s.mem.content x.1) l ∧
      FreeList (channelRelease (s.mem.content x.1) x.2) (x.2 :: l)

structure Releasable (s : InUse) : Prop where
  taken : ∀ p key fuel r gs m, getFrom p key fuel 0 0 (s.chain p) s.mem = some (r, gs, m) →
    ∃ x, locate gs r = some x ∧ Popped m x
  pushes : ∀ k x, s.origin k = some x → ∀ q,
    Pushes s q k x ↔ k ≤ channelSize * (s.chain q).length

/-- The slot that an index in use came from is on no free list. -/
theorem Inv.pushable {x : ChannelSeg × ℕ} (h : Inv s N) (hx : s.origin k = some x) :
    ∃ l, FreeList (s.mem.content x.1) l ∧
      FreeList (channelRelease (s.mem.content x.1) x.2) (x.2 :: l) := by
  obtain ⟨hpos, rfl⟩ := h.origins k x hx
  have hk : (s.origin k).isSome := Option.isSome_of_eq_some hx
  obtain ⟨ls, hls⟩ := h.partitioned hk
  have hrange : entries s.origin k ≤ channelSize * (view s.mem 0 N).length := hls.range k
  rw [entries_some hk, view_length] at hrange
  have hlt := channelOf_lt hpos hrange
  have hview : (view s.mem 0 N)[channelOf k]? = some (s.mem.content (seg (channelOf k))) := by
    rw [view, List.getElem?_map, List.getElem?_range' hlt, Nat.zero_add, Nat.one_mul]
    rfl
  obtain ⟨l, hl, hlist⟩ := freeList_at hls.lists hview
  obtain ⟨hslot, hle⟩ := slotOf_range k
  refine ⟨l, hlist, hlist.release (fun hmem => ?_) hslot hle⟩
  have hfree : 0 + channelSize * channelOf k + slotOf k ∈ freeFrom 0 ls := mem_freeFrom hl hmem
  rw [Nat.zero_add, channelOf_slotOf hpos] at hfree
  exact ((hls.free k).mp hfree).2.2 k (entries_some hk)

/-- `Pool::release` by any process puts an index back where `Pool::get` took it, exactly as
long as the chain of that process reaches its channel. -/
theorem releases_iff {s : InUse} (h : machine.Reachable KeysRight s) : Releasable s := by
  obtain ⟨N, hinv⟩ := exists_inv h
  constructor
  · intro p key fuel r gs m hrun
    obtain ⟨g, hg, hpop⟩ := get_pops hrun hinv.listed (chain_along hinv.agree p)
    exact ⟨_, hg, hpop⟩
  · intro k x hx q
    obtain ⟨hpos, rfl⟩ := hinv.origins k x hx
    rw [← locate_isSome hpos, Pushes, release_locate hpos]
    constructor
    · rintro ⟨hrun, -⟩
      obtain ⟨y, hy, -⟩ := Option.map_eq_some_iff.mp hrun
      exact Option.isSome_of_eq_some hy
    · intro hreached
      obtain ⟨y, hy⟩ := Option.isSome_iff_exists.mp hreached
      obtain ⟨len, -, hchain⟩ := hinv.agree.chains q
      obtain rfl := locate_segs (hchain ▸ hy)
      refine ⟨?_, hinv.pushable hx⟩
      rw [hy]
      rfl

/-- A run of constructions and calls of `Pool::get` is one of these runs. -/
theorem reachable_of_pools {x : Sys} (h : Processes.machine.Reachable KeysSet x) :
    ∃ s, machine.Reachable KeysRight s ∧ s.mem = x.mem ∧ s.chain = x.chain := by
  refine h.invariant (P := fun x : Sys =>
    ∃ s, machine.Reachable KeysRight s ∧ s.mem = x.mem ∧ s.chain = x.chain) ?_ ?_
  · rintro x ⟨content, rfl⟩
    exact ⟨.start content, .init ⟨content, rfl⟩, rfl, rfl⟩
  · rintro ⟨_, _, held⟩ a x' ⟨⟨mem, chain, origin⟩, hs, rfl, rfl⟩ hc hx
    cases a with
    | construct p fuel =>
      simp only [Processes.machine, Sys.step] at hx
      split_ifs at hx with hp
      obtain ⟨y, hy, rfl⟩ := Option.map_eq_some_iff.mp hx
      refine ⟨⟨y.2, Function.update chain p y.1, origin⟩,
        hs.step (a := Call.construct p fuel) trivial ?_, rfl, rfl⟩
      simp only [machine, InUse.step, if_pos hp, hy]
      rfl
    | get p key fuel =>
      obtain ⟨y, hy, rfl⟩ := Option.map_eq_some_iff.mp hx
      exact ⟨_, hs.step (a := Call.get p key fuel) hc (congrArg (Option.map _) hy), rfl, rfl⟩

/-- Process 7 takes the only channel empty and makes a second one. -/
theorem grown_apart : ∃ s, machine.Reachable KeysRight s ∧ s.chain 7 = [seg 0, seg 1] ∧
    s.chain 8 = [seg 0] ∧ s.origin 4095 = some (seg 1, 1) := by
  obtain ⟨x, h0, hnil⟩ := two_empty
  obtain ⟨m, hgrow, -⟩ := grow_apart (k := (poolShmKey + 1 : ℕ)) givenKeys h0.first hnil
    (by decide) (by decide) (by decide) (h0.none _ (by decide))
  obtain ⟨⟨r, gs, m'⟩, hrun, he⟩ := Option.map_eq_some_iff.mp hgrow
  obtain ⟨-, hchains, hheld⟩ := Sys.mk.inj he
  have hgs : gs = [seg 0, seg 1] := by
    have hseven := congrFun hchains 7
    rwa [Function.update_self, Function.update_self] at hseven
  have hr : r = 4095 :=
    congrArg Prod.snd (List.singleton_inj.mp (List.append_cancel_left hheld))
  subst hgs hr
  obtain ⟨⟨_, _, origin⟩, hs, rfl, rfl⟩ := reachable_of_pools h0.reachable
  have hkey := keysSet_given 7 3 fun q => (h0.lengths q).trans one_le_two
  have hlast := hs.step (a := Call.get 7 givenKeys 3) hkey (congrArg (Option.map _) hrun)
  have hne : (8 : Pid) ≠ 7 := by decide
  refine ⟨_, hlast, ?_, ?_, ?_⟩
  · exact Function.update_self (7 : Pid) [seg 0, seg 1] x.chain
  · exact (Function.update_of_ne hne [seg 0, seg 1] x.chain).trans h0.second
  · have hlocate : locate [seg 0, seg 1] 4095 = some (seg 1, 1) := by decide
    simp only [Function.update_self, hlocate]

/-- The first index of the second channel goes back when process 7 releases it, and does not
when process 8 does. -/
theorem releases_iff_later : ∃ s, machine.Reachable KeysRight s ∧
    s.origin 4095 = some (seg 1, 1) ∧ Pushes s 7 4095 (seg 1, 1) ∧
    ¬Pushes s 8 4095 (seg 1, 1) := by
  obtain ⟨s, hs, h7, h8, h4095⟩ := grown_apart
  have hpushes := (releases_iff hs).pushes 4095 _ h4095
  refine ⟨s, hs, h4095, (hpushes 7).mpr ?_, fun hpush => ?_⟩
  · rw [h7]
    decide
  · have hreach := (hpushes 8).mp hpush
    rw [h8] at hreach
    exact absurd hreach (by decide)

/-- Process 8 follows the null pointer behind its only channel. -/
theorem release_lost : ∃ s, machine.Reachable KeysRight s ∧ s.chain 8 = [seg 0] ∧
    s.origin 4095 = some (seg 1, 1) ∧ release 4095 (s.chain 8) s.mem = none ∧
    ¬(∀ k x, s.origin k = some x → ∀ q, s.chain q ≠ [] → Pushes s q k x) := by
  obtain ⟨s, hs, -, h8, h4095⟩ := grown_apart
  have hnone : release 4095 (s.chain 8) s.mem = none := by
    rw [h8]
    rfl
  refine ⟨s, hs, h8, h4095, hnone, fun hall => ?_⟩
  have hpush := (hall 4095 _ h4095 8 (by rw [h8]; exact List.cons_ne_nil _ _)).1
  rw [hnone] at hpush
  cases hpush

end ShmSocket.Processes.Releases
