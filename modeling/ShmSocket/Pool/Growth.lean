import ShmSocket.Pool.Chains
import ShmSocket.Pool.Partition

/-! Any number of processes that make a `Pool` at any time and call `Pool::get`, one call at
a time. They agree on the channels as long as every member `key` that is read holds the key
of its channel. -/
namespace ShmSocket.Processes
open StepMachine Indices

/-- The chains of all processes run along the same channels, `N` of which exist. -/
structure Agree (m : Mem) (chain : Pid → List ChannelSeg) (N : ℕ) : Prop where
  pools : Pools m N
  chains : ∀ p, ∃ len ≤ N, chain p = segs 0 len
  count : ∀ g q, (m.attached g).count q = (chain q).count g

/-- The free lists of the `N` channels and the entries of a table partition the indices. -/
def Stocked {ι : Type*} (m : Mem) (N : ℕ) (table : ι → ℕ) : Prop :=
  (N = 0 ∧ ∀ c, table c = 0) ∨ ∃ ls, Partitioned ⟨view m 0 N, table⟩ ls

/-- No channel of the process offers an index. -/
def Exhausted (m : Mem) (gs : List ChannelSeg) : Prop := ∀ g ∈ gs, m.content g 0 = 0

/-- A `Pool::get` that finds all its channels empty reads the members `key` of its objects,
and they hold the keys their constructors were given. -/
def KeySet (m : Mem) (chain : Pid → List ChannelSeg) (p : Pid) (key : ℕ → ℤ) : Prop :=
  Exhausted m (chain p) → (∀ n, key n = (poolShmKey + n : ℕ)) ∧
    ∀ q, ((chain q).length + 1) * channelSize < 2 ^ 31

section calls
variable {ι : Type*} {m m' : Mem} {chain : Pid → List ChannelSeg} {N N' : ℕ} {p : Pid}
  {table : ι → ℕ}

theorem Agree.attach {len more : ℕ} (h : Agree m chain N) (hp : chain p = segs 0 len)
    (ha : Attaches m m' p len more) (g : ChannelSeg) (q : Pid) :
    (m'.attached g).count q = (Function.update chain p (segs 0 (len + more)) q).count g := by
  rw [ha g q, h.count]
  by_cases hq : q = p
  · rw [hq, Function.update_self, if_pos rfl, hp, segs_add, List.count_append, Nat.zero_add]
  · rw [Function.update_of_ne hq, if_neg hq, Nat.add_zero]

theorem Agree.lengthen {len : ℕ} (h : Agree m chain N) (hN : N ≤ N') (hlen : len ≤ N') (q : Pid) :
    ∃ l ≤ N', Function.update chain p (segs 0 len) q = segs 0 l := by
  by_cases hq : q = p
  · exact ⟨len, hlen, by rw [hq, Function.update_self]⟩
  · obtain ⟨l, hl, he⟩ := h.chains q
    exact ⟨l, hl.trans hN, by rw [Function.update_of_ne hq, he]⟩

/-- `Pool::Pool` returns, and any new channel it makes is free. -/
theorem Agree.construct (h : Agree m chain N) (hp : chain p = []) (table : ι → ℕ) :
    ∃ fuel len m' N', construct p fuel 0 poolShmKey m = some (segs 0 len, m') ∧
      Agree m' (Function.update chain p (segs 0 len)) N' ∧ 0 < len ∧
      (Stocked m N table → Stocked m' N' table) := by
  have hroom : (0 + 1) * channelSize < 2 ^ 31 := by decide
  obtain ⟨fuel, len, m', N', hrun, hc⟩ :=
    construct_spec p h.pools (Nat.zero_add N).symm hroom
  have hfits : len ≤ N' := by simpa using hc.fits
  have hgrow : N ≤ N' := by
    rcases hc.grows with rfl | ⟨rfl, -⟩ <;> omega
  have hattach : Attaches m m' p 0 (0 + len) := by
    rw [Nat.zero_add]
    exact hc.attaches
  refine ⟨fuel, len, m', N', hrun, ⟨hc.pools, h.lengthen hgrow hfits, ?_⟩, hc.pos, ?_⟩
  · have hempty : chain p = segs 0 0 := hp
    have hcount := h.attach hempty hc.attaches
    rwa [Nat.zero_add] at hcount
  · have hold : view m' 0 N = view m 0 N := view_congr fun j _ hj => hc.old j (by omega)
    intro hs
    rcases hc.grows with rfl | ⟨rfl, -, a, ha⟩
    · rcases hs with hs | ⟨ls, hls⟩
      · exact .inl hs
      · exact .inr ⟨ls, hold ▸ hls⟩
    · have hview : view m' 0 (N + 1) = view m 0 N ++ [a.init] := by
        rw [view_concat, hold, Nat.zero_add, ha]
      refine .inr ?_
      rcases hs with ⟨rfl, hzero⟩ | ⟨ls, hls⟩
      · refine ⟨[List.range' 1 channelSize], ?_⟩
        have hempty : table = fun _ => 0 := funext hzero
        rw [hview, hempty]
        exact .start a
      · refine ⟨ls ++ [List.range' 1 channelSize], ?_⟩
        rw [hview]
        exact hls.create a

theorem exhausted_of_nil {n len d : ℕ} {ls : List (List ℕ)}
    (hls : List.Forall₂ FreeList (view m n d) ls) (hlen : len ≤ d)
    (hnil : ∀ l ∈ ls.take len, l = []) : Exhausted m (segs n len) := by
  induction len generalizing n d ls with
  | zero => exact fun g hg => nomatch hg
  | succ len ih =>
    obtain ⟨d, rfl⟩ : ∃ e, d = e + 1 := Nat.exists_eq_add_of_le' (len.succ_pos.trans_le hlen)
    rw [view_succ] at hls
    cases hls with
    | @cons _ l _ ls ha hrest =>
      obtain ⟨rfl, hrestnil⟩ := List.forall_mem_cons.mp hnil
      intro g hg
      rcases List.mem_cons.mp hg with rfl | hg
      · exact ha.linked
      · exact ih hrest (Nat.le_of_succ_le_succ hlen) hrestnil g hg

/-- A channel that is attached is in some chain. -/
theorem Agree.attached_by (h : Agree m chain N) {j : ℕ} (hj : j < N) : ∃ q, seg j ∈ chain q := by
  have hne : m.attached (seg j) ≠ [] := fun h0 => hj.not_ge ((h.pools.attached j).mp h0)
  obtain ⟨q, hq⟩ := List.exists_mem_of_ne_nil _ hne
  refine ⟨q, ?_⟩
  rw [← List.count_pos_iff, ← h.count]
  exact List.count_pos_iff.mpr hq

theorem Agree.reached (h : Agree m chain N) (hN : 0 < N) : ∃ q, N ≤ (chain q).length := by
  obtain ⟨q, hq⟩ := h.attached_by (Nat.sub_lt hN Nat.one_pos)
  obtain ⟨len, -, hchain⟩ := h.chains q
  rw [hchain, mem_segs] at hq
  refine ⟨q, ?_⟩
  rw [hchain, segs_length]
  omega

theorem Agree.pos (h : Agree m chain N) (hp : chain p ≠ []) : 0 < N := by
  obtain ⟨len, hlen, hchain⟩ := h.chains p
  refine hlen.trans_lt' (Nat.pos_of_ne_zero fun h0 => hp ?_)
  rw [hchain, h0]
  rfl

theorem KeySet.kept {key : ℕ → ℤ} (h : KeySet m chain p key) (ha : Agree m chain N)
    (hp : chain p ≠ []) (he : Exhausted m (chain p)) : KeysKept key N := by
  obtain ⟨hkeys, hroom⟩ := h he
  obtain ⟨q, hq⟩ := ha.reached (ha.pos hp)
  exact ⟨hkeys, lt_of_le_of_lt (Nat.mul_le_mul_right _ (by omega)) (hroom q)⟩

/-- Where an entry is in use there is a pool. -/
theorem Stocked.partitioned (h : Stocked m N table) {c : ι} (hc : table c ≠ 0) :
    ∃ ls, Partitioned ⟨view m 0 N, table⟩ ls := by
  rcases h with ⟨-, hzero⟩ | hls
  · exact absurd (hzero c) hc
  · exact hls

theorem Stocked.distinct (h : Stocked m N table) {c c' : ι} (hne : table c ≠ 0)
    (he : table c = table c') : c = c' := by
  obtain ⟨ls, hls⟩ := h.partitioned hne
  exact hls.distinct c c' hne he

/-- Removing channels that no entry points into. -/
theorem Stocked.shrink (h : Stocked m N table)
    (hle : N' ≤ N) (hcontent : ∀ j < N', m'.content (seg j) = m.content (seg j))
    (hentries : ∀ c, table c ≠ 0 → channelOf (table c) < N') : Stocked m' N' table := by
  by_cases hzero : N' = 0
  · refine .inl ⟨hzero, fun c => ?_⟩
    by_contra hc
    have := hentries c hc
    omega
  · rcases h with ⟨h0, -⟩ | ⟨ls, hls⟩
    · omega
    · have hlen : (view m 0 N).length = N := view_length m 0 N
      have hview : (view m 0 N).take N' = view m' 0 N' := by
        obtain ⟨d, rfl⟩ := Nat.exists_eq_add_of_le hle
        have hold : view m' 0 N' = view m 0 N' := view_congr fun j _ hj => hcontent j (by omega)
        rw [view_add, hold, List.take_left' (view_length m 0 N')]
      have hpart := hls.shrink (Nat.pos_of_ne_zero hzero) (hle.trans_eq hlen.symm) fun c => by
        change table c ≤ channelSize * N'
        by_cases hc : table c = 0
        · rw [hc]
          exact Nat.zero_le _
        · have hlt := (Nat.div_lt_iff_lt_mul channelSize_pos).mp (hentries c hc)
          rw [Nat.mul_comm] at hlt
          omega
      exact .inr ⟨_, hview ▸ hpart⟩

variable [DecidableEq ι] {key : ℕ → ℤ}

/-- `Pool::get` returns an index that no table entry holds. -/
theorem Agree.get (h : Agree m chain N) (hp : chain p ≠ []) (hs : Stocked m N table)
    (hkey : KeySet m chain p key) :
    ∃ fuel r len m' N', getFrom p key fuel 0 0 (chain p) m = some (r, segs 0 len, m') ∧
      Agree m' (Function.update chain p (segs 0 len)) N' ∧ (chain p).length ≤ len ∧
      0 < r ∧ r ≤ channelSize * len ∧
      ∀ c, table c = 0 → Stocked m' N' (Function.update table c r) := by
  obtain ⟨len, hlen, hchain⟩ := h.chains p
  have hpos : 0 < len := Nat.pos_of_ne_zero fun h0 => hp (hchain.trans (by rw [h0]; rfl))
  obtain ⟨ls, hls⟩ : ∃ ls, Partitioned ⟨view m 0 N, table⟩ ls := by
    rcases hs with ⟨h0, -⟩ | hs
    · omega
    · exact hs
  have hzero : 0 + N = N := Nat.zero_add N
  have hkept : (∀ l ∈ ls.take len, l = []) → KeysKept key (0 + N) := fun hnil =>
    hzero.symm ▸ hkey.kept h hp (hchain ▸ exhausted_of_nil hls.lists hlen hnil)
  obtain ⟨fuel, r, more, m', N', ls', hrun, hgot⟩ :=
    getFrom_spec (p := p) (hzero.symm ▸ h.pools) hls.lists hpos hlen hkept
  have hpools := hgot.pools
  have hattaches := hgot.attaches
  obtain ⟨hgt, hle⟩ := hgot.within
  rw [Nat.zero_add] at hpools hattaches hle
  have hgrow : N ≤ N' := by simpa using hgot.taken.grows
  refine ⟨fuel, r, len + more, m', N', hchain ▸ hrun,
    ⟨hpools, h.lengthen hgrow hgot.fits, h.attach hchain hattaches⟩, ?_, hgt, hle, fun c hc => ?_⟩
  · rw [hchain, segs_length]
    exact Nat.le_add_right _ _
  · exact .inr ⟨ls', hls.alloc hc hgot.taken⟩

end calls

/-- `held` are the indices that `Pool::get` has returned, with the process that got them, in
their order. -/
structure Sys where
  mem : Mem
  chain : Pid → List ChannelSeg
  held : List (Pid × ℕ)

/-- A process makes its `Pool`, or calls `Pool::get` with the members `key` of its channel
objects as they happen to be. -/
inductive Act where
  | construct (p : Pid) (fuel : ℕ)
  | get (p : Pid) (key : ℕ → ℤ) (fuel : ℕ)

def Sys.step (s : Sys) : Act → Option Sys
  | .construct p fuel =>
      if s.chain p = [] then
        (construct p fuel 0 poolShmKey s.mem).map fun x =>
          { s with mem := x.2, chain := Function.update s.chain p x.1 }
      else none
  | .get p key fuel =>
      (getFrom p key fuel 0 0 (s.chain p) s.mem).map fun x =>
        { mem := x.2.2
          chain := Function.update s.chain p x.2.1
          held := s.held ++ [(p, x.1)] }

/-- No process has a pool yet. -/
def Sys.start (content : ChannelSeg → Address) : Sys := ⟨⟨content, fun _ => []⟩, fun _ => [], []⟩

def machine : StepMachine Sys Act where
  init s := ∃ content, s = .start content
  step := Sys.step

def KeysSet (s : Sys) : Act → Prop
  | .get p key _ => KeySet s.mem s.chain p key
  | .construct _ _ => True

/-- The segment and the slot of an index. -/
def locate (gs : List ChannelSeg) (k : ℕ) : Option (ChannelSeg × ℕ) :=
  gs[channelOf k]?.map (·, slotOf k)

structure Agreed (s : Sys) : Prop where
  same : ∀ p q k x y, locate (s.chain p) k = some x → locate (s.chain q) k = some y → x = y
  nodup : ∀ p, (s.chain p).Nodup
  located : ∀ x ∈ s.held, ∃ g, locate (s.chain x.1) x.2 = some (g, slotOf x.2)
  distinct : (s.held.map Prod.snd).Nodup
  constructs : ∀ p, s.chain p = [] → ∃ fuel s', s.step (.construct p fuel) = some s'
  gets : ∀ p key, s.chain p ≠ [] → KeySet s.mem s.chain p key →
    ∃ fuel s', s.step (.get p key fuel) = some s'

/-- The indices held, by the number of the call that returned them. -/
def heldTable (held : List (Pid × ℕ)) (i : ℕ) : ℕ := (held[i]?.map Prod.snd).getD 0

theorem heldTable_concat (held : List (Pid × ℕ)) (x : Pid × ℕ) :
    heldTable (held ++ [x]) = Function.update (heldTable held) held.length x.2 := by
  funext i
  unfold heldTable
  rcases lt_trichotomy i held.length with hi | hi | hi
  · rw [Function.update_of_ne hi.ne, List.getElem?_append_left hi]
  · subst hi
    simp
  · rw [Function.update_of_ne hi.ne', List.getElem?_eq_none (by simp; omega),
      List.getElem?_eq_none hi.le]

structure Inv (s : Sys) (N : ℕ) : Prop where
  agree : Agree s.mem s.chain N
  stocked : Stocked s.mem N (heldTable s.held)
  within : ∀ x ∈ s.held, 0 < x.2 ∧ x.2 ≤ channelSize * (s.chain x.1).length

variable {s s' : Sys} {a : Act} {N : ℕ}

theorem Inv.start (content : ChannelSeg → Address) : Inv (.start content) 0 where
  agree := ⟨⟨fun _ => by simp [Sys.start], fun _ h => absurd h (Nat.not_lt_zero _), by decide⟩,
    fun _ => ⟨0, le_rfl, rfl⟩, fun _ _ => rfl⟩
  stocked := .inl ⟨rfl, fun _ => rfl⟩
  within := fun _ h => nomatch h

theorem Inv.construct {p : Pid} (h : Inv s N) (hp : s.chain p = []) :
    ∃ fuel s' N', s.step (.construct p fuel) = some s' ∧ Inv s' N' := by
  obtain ⟨fuel, len, m', N', hrun, hagree, -, hstocked⟩ :=
    h.agree.construct hp (heldTable s.held)
  refine ⟨fuel, ⟨m', Function.update s.chain p (segs 0 len), s.held⟩, N', ?_,
    ⟨hagree, hstocked h.stocked, fun x hx => ?_⟩⟩
  · simp only [Sys.step, if_pos hp, hrun]
    rfl
  · obtain ⟨hpos, hle⟩ := h.within x hx
    refine ⟨hpos, ?_⟩
    by_cases hxp : x.1 = p
    · rw [hxp, hp, List.length_nil] at hle
      omega
    · change x.2 ≤ channelSize * (Function.update s.chain p (segs 0 len) x.1).length
      rwa [Function.update_of_ne hxp]

theorem Inv.get {p : Pid} {key : ℕ → ℤ} (h : Inv s N) (hp : s.chain p ≠ [])
    (hkey : KeySet s.mem s.chain p key) :
    ∃ fuel s' N', s.step (.get p key fuel) = some s' ∧ Inv s' N' := by
  obtain ⟨fuel, r, len, m', N', hrun, hagree, hlonger, hpos, hle, hstocked⟩ :=
    h.agree.get hp h.stocked hkey
  refine ⟨fuel, ⟨m', Function.update s.chain p (segs 0 len), s.held ++ [(p, r)]⟩, N', ?_,
    ⟨hagree, ?_, fun x hx => ?_⟩⟩
  · simp only [Sys.step, hrun]
    rfl
  · have hnew : heldTable s.held s.held.length = 0 := by simp [heldTable]
    have hnow := hstocked s.held.length hnew
    change Stocked m' N' (heldTable (s.held ++ [(p, r)]))
    rwa [heldTable_concat]
  · change 0 < x.2 ∧ x.2 ≤ channelSize * (Function.update s.chain p (segs 0 len) x.1).length
    rcases List.mem_append.mp hx with hx | hx
    · obtain ⟨hxpos, hxle⟩ := h.within x hx
      refine ⟨hxpos, hxle.trans (Nat.mul_le_mul_left _ ?_)⟩
      by_cases hxp : x.1 = p
      · rwa [hxp, Function.update_self, segs_length]
      · rw [Function.update_of_ne hxp]
    · obtain rfl := List.mem_singleton.mp hx
      rw [Function.update_self, segs_length]
      exact ⟨hpos, hle⟩

theorem Inv.step (h : Inv s N) (ha : KeysSet s a) (hs : s.step a = some s') :
    ∃ N', Inv s' N' := by
  cases a with
  | construct p fuel =>
    by_cases hp : s.chain p = []
    · obtain ⟨fuel', s'', N', hrun, hinv⟩ := h.construct hp
      simp only [Sys.step, if_pos hp] at hs hrun
      obtain ⟨x, hx, rfl⟩ := Option.map_eq_some_iff.mp hs
      obtain ⟨y, hy, rfl⟩ := Option.map_eq_some_iff.mp hrun
      obtain rfl := construct_unique hx hy
      exact ⟨N', hinv⟩
    · simp only [Sys.step, if_neg hp] at hs
      cases hs
  | get p key fuel =>
    have hp : s.chain p ≠ [] := by
      intro hp
      cases fuel <;> simp [Sys.step, hp, getFrom] at hs
    obtain ⟨fuel', s'', N', hrun, hinv⟩ := h.get hp ha
    obtain ⟨x, hx, rfl⟩ := Option.map_eq_some_iff.mp hs
    obtain ⟨y, hy, rfl⟩ := Option.map_eq_some_iff.mp hrun
    obtain rfl := getFrom_unique hx hy
    exact ⟨N', hinv⟩

theorem locate_segs {len k : ℕ} {x : ChannelSeg × ℕ} (h : locate (segs 0 len) k = some x) :
    x = (seg (channelOf k), slotOf k) := by
  obtain ⟨g, hg, rfl⟩ := Option.map_eq_some_iff.mp h
  obtain ⟨hlt, -⟩ := List.getElem?_eq_some_iff.mp hg
  rw [segs_length] at hlt
  rw [segs_getElem? hlt, Nat.zero_add] at hg
  rw [Option.some.inj hg]

theorem channelOf_lt {k len : ℕ} (hpos : 0 < k) (hle : k ≤ channelSize * len) :
    channelOf k < len := by
  refine (Nat.div_lt_iff_lt_mul channelSize_pos).mpr ?_
  rw [Nat.mul_comm]
  omega

theorem Inv.agreed (h : Inv s N) : Agreed s where
  same := by
    intro p q k x y hx hy
    obtain ⟨len, -, hp⟩ := h.agree.chains p
    obtain ⟨len', -, hq⟩ := h.agree.chains q
    rw [hp] at hx
    rw [hq] at hy
    rw [locate_segs hx, locate_segs hy]
  nodup := by
    intro p
    obtain ⟨len, -, hp⟩ := h.agree.chains p
    rw [hp]
    exact segs_nodup 0 len
  located := by
    intro x hx
    obtain ⟨hpos, hle⟩ := h.within x hx
    obtain ⟨len, -, hp⟩ := h.agree.chains x.1
    rw [hp, segs_length] at hle
    refine ⟨seg (0 + channelOf x.2), ?_⟩
    rw [hp, locate, segs_getElem? (channelOf_lt hpos hle)]
    rfl
  distinct := by
    refine List.nodup_iff_injective_getElem.mpr fun i j he => ?_
    have hheld : ∀ i : Fin (s.held.map Prod.snd).length,
        heldTable s.held i = (s.held.map Prod.snd)[i] := by
      intro i
      have hi : i < s.held.length := by simpa using i.isLt
      simp [heldTable, hi]
    have hne : heldTable s.held i ≠ 0 := by
      rw [hheld]
      obtain ⟨x, hx, hxi⟩ := List.mem_map.mp (List.getElem_mem i.isLt)
      have := (h.within x hx).1
      intro h0
      simp only [Fin.getElem_fin] at h0
      omega
    have heq : heldTable s.held i = heldTable s.held j := by
      rw [hheld, hheld]
      exact he
    exact Fin.ext (h.stocked.distinct hne heq)
  constructs := by
    intro p hp
    obtain ⟨fuel, s', -, hs, -⟩ := h.construct hp
    exact ⟨fuel, s', hs⟩
  gets := by
    intro p key hp hkey
    obtain ⟨fuel, s', -, hs, -⟩ := h.get hp hkey
    exact ⟨fuel, s', hs⟩

/-- As long as the keys of the channel objects are what their constructors were given, all
processes agree on the pool. -/
theorem pools_agree {s : Sys} (h : machine.Reachable KeysSet s) : Agreed s := by
  obtain ⟨N, hinv⟩ : ∃ N, Inv s N := by
    refine h.invariant (P := fun s => ∃ N, Inv s N) ?_ ?_
    · rintro s ⟨content, rfl⟩
      exact ⟨0, .start content⟩
    · rintro s a s' ⟨N, hinv⟩ ha hs
      exact hinv.step ha hs
  exact hinv.agreed

/-- One process takes everything its only channel offers; it reads no `key` for that. -/
theorem drain {p : Pid} {g : ChannelSeg} {l : List ℕ} (hp : s.chain p = [g])
    (hl : FreeList (s.mem.content g) l) : ∃ s', machine.Steps KeysSet s s' ∧
      s'.chain = s.chain ∧ s'.mem.attached = s.mem.attached ∧ FreeList (s'.mem.content g) [] := by
  induction l generalizing s with
  | nil => exact ⟨s, .refl, rfl, rfl, hl⟩
  | cons i l ih =>
    obtain ⟨hfirst, hlist⟩ := hl.get_cons
    have hget : s.step (.get p (fun _ => 0) 1) =
        some ⟨s.mem.store g (channelGet (s.mem.content g)).2, s.chain, s.held ++ [(p, i)]⟩ := by
      have hchain : Function.update s.chain p [g] = s.chain := by
        rw [← hp, Function.update_eq_self]
      simp only [Sys.step, hp, getFrom_hit hl, Option.map_some, hchain, Nat.zero_add]
    have hkey : KeysSet s (.get p (fun _ => 0) 1) := by
      intro hempty
      have hzero := hempty g (hp ▸ List.mem_cons_self)
      exact absurd (hfirst.symm.trans hzero) (hl.pos List.mem_cons_self).ne'
    obtain ⟨s', hs, hchain, hattached, hnil⟩ :=
      @ih ⟨s.mem.store g (channelGet (s.mem.content g)).2, s.chain, s.held ++ [(p, i)]⟩ hp
        (by rw [Mem.store_here]; exact hlist)
    exact ⟨s', (StepMachine.Steps.single hkey hget).trans hs, hchain, hattached, hnil⟩

/-- A process has made segment `g'` behind its only one, `g`, and taken the first index of
it. -/
structure Extended (before after : Mem) (p : Pid) (g g' : ChannelSeg) : Prop where
  empty : FreeList (after.content g) []
  content : after.content g' = (channelGet (before.content g').init).2
  attached : after.attached g' = [p]
  others : ∀ h, h ≠ g' → after.attached h = before.attached h

namespace Extended
variable {before after : Mem} {p : Pid} {g g' : ChannelSeg}

theorem second (h : Extended before after p g g') :
    FreeList (after.content g') (2 :: List.range' 3 (channelSize - 2)) := by
  have hfresh := init_freeList (before.content g')
  have hone : List.range' 1 channelSize = 1 :: 2 :: List.range' 3 (channelSize - 2) := rfl
  rw [hone] at hfresh
  rw [h.content]
  exact hfresh.get_cons.2

theorem last (h : Extended before after p g g') : after.content g' nextChannelIndex = 0 := by
  rw [h.content, channelGet_word]
  exact init_word _

end Extended

/-- With any value in the member `key`, `allocNextChannel` makes a channel of its own. -/
theorem grow_apart {p : Pid} {g : ChannelSeg} (key : ℕ → ℤ) {k : ℤ} (hp : s.chain p = [g])
    (hl : FreeList (s.mem.content g) []) (hk : i32 (u32 (key 0 + 1)) = k) (hne : k ≠ 0)
    (hg : .shared k ≠ g) (hnone : s.mem.attached (.shared k) = []) :
    ∃ m, s.step (.get p key 3) = some ⟨m, Function.update s.chain p [g, .shared k],
        s.held ++ [(p, channelSize + 1)]⟩ ∧ Extended s.mem m p g (.shared k) := by
  have hseg : channelSeg p 1 k = .shared k := if_neg hne
  have hfresh := init_freeList (s.mem.content (.shared k))
  have hone : List.range' 1 channelSize = 1 :: List.range' 2 (channelSize - 1) := rfl
  have hconstruct : construct p 2 1 k s.mem = some ([.shared k],
      (s.mem.shmat (.shared k) p).store (.shared k) (s.mem.content (.shared k)).init) := by
    rw [construct, hseg]
    simp only [hnone, List.length_nil, if_true]
  set m₁ := (s.mem.shmat (.shared k) p).store (.shared k) (s.mem.content (.shared k)).init
    with hm₁
  have hkeep : m₁.content g = s.mem.content g := Mem.store_of_ne _ _ (Ne.symm hg)
  set m₂ := m₁.store g (allocNextChannel (m₁.content g) (u32 (key 0 + 1))) with hm₂
  have hnew : m₂.content (.shared k) = (s.mem.content (.shared k)).init := by
    rw [hm₂, Mem.store_of_ne _ _ hg, hm₁, Mem.store_here]
  have hgrow : grow p 2 0 (key 0) g s.mem = some ([.shared k], m₂) := by
    rw [grow, hk, hconstruct]
    rfl
  have hloop : getFrom p key 2 1 (0 + channelSize) [.shared k] m₂ = some (channelSize + 1,
      [.shared k], m₂.store (.shared k) (channelGet (m₂.content (.shared k))).2) := by
    rw [← hnew, hone] at hfresh
    rw [getFrom_hit hfresh, Nat.zero_add]
  refine ⟨m₂.store (.shared k) (channelGet (m₂.content (.shared k))).2, ?_, ?_⟩
  · have hrun := getFrom_pass hl ((if_pos rfl).trans hgrow) hloop
    simp only [Sys.step, hp, hrun]
    rfl
  · constructor
    · rw [Mem.store_of_ne _ _ (Ne.symm hg), hm₂, Mem.store_here, hkeep]
      exact hl.allocNextChannel _
    · rw [Mem.store_here, hnew]
    · exact (Function.update_self _ _ _).trans (congrArg (p :: ·) hnone)
    · exact fun g' hg' => Function.update_of_ne hg' _ _

/-- Where the segment of the next key is attached and leads no further, `allocNextChannel`
attaches it too, and `Pool::get` takes an index from it. -/
theorem grow_join {p : Pid} {g : ChannelSeg} (key : ℕ → ℤ) {k : ℤ} {i : ℕ} {l : List ℕ}
    (hp : s.chain p = [g]) (hl : FreeList (s.mem.content g) [])
    (hk : i32 (u32 (key 0 + 1)) = k) (hne : k ≠ 0) (hg : .shared k ≠ g)
    (hsome : s.mem.attached (.shared k) ≠ [])
    (hlast : s.mem.content (.shared k) nextChannelIndex = 0)
    (hnext : FreeList (s.mem.content (.shared k)) (i :: l)) :
    ∃ m, s.step (.get p key 3) = some ⟨m, Function.update s.chain p [g, .shared k],
      s.held ++ [(p, channelSize + i)]⟩ := by
  have hseg : channelSeg p 1 k = .shared k := if_neg hne
  have hconstruct : construct p 2 1 k s.mem =
      some ([.shared k], s.mem.shmat (.shared k) p) := by
    rw [construct, hseg]
    simp only [List.length_eq_zero_iff, hsome, hlast, if_false, if_true]
  set m₁ := s.mem.shmat (.shared k) p
  set m₂ := m₁.store g (allocNextChannel (m₁.content g) (u32 (key 0 + 1))) with hm₂
  have hgrow : grow p 2 0 (key 0) g s.mem = some ([.shared k], m₂) := by
    rw [grow, hk, hconstruct]
    rfl
  have hlist : FreeList (m₂.content (.shared k)) (i :: l) := by
    rw [hm₂, Mem.store_of_ne _ _ hg]
    exact hnext
  have hloop : getFrom p key 2 1 (0 + channelSize) [.shared k] m₂ = some (channelSize + i,
      [.shared k], m₂.store (.shared k) (channelGet (m₂.content (.shared k))).2) := by
    rw [getFrom_hit hlist, Nat.zero_add]
  have hrun := getFrom_pass hl ((if_pos rfl).trans hgrow) hloop
  refine ⟨m₂.store (.shared k) (channelGet (m₂.content (.shared k))).2, ?_⟩
  simp only [Sys.step, hp, hrun]
  rfl

/-- Processes 7 and 8 have made their pools, of one channel. -/
structure Two (s : Sys) : Prop where
  reachable : machine.Reachable KeysSet s
  lengths : ∀ q, (s.chain q).length ≤ 1
  first : s.chain 7 = [seg 0]
  second : s.chain 8 = [seg 0]
  none : ∀ g, g ≠ seg 0 → s.mem.attached g = []

theorem two_pools : ∃ s, Two s ∧
    FreeList (s.mem.content (seg 0)) (List.range' 1 channelSize) := by
  have h0 : machine.Reachable KeysSet (.start fun _ _ => 0) := .init ⟨_, rfl⟩
  have h1 := h0.step (a := Act.construct 7 1) trivial rfl
  have h2 := h1.step (a := Act.construct 8 1) trivial rfl
  refine ⟨_, ⟨h2, fun q => ?_, rfl, rfl, fun g hg => ?_⟩, init_freeList fun _ => 0⟩
  · change (Function.update (Function.update (fun _ => []) 7 [seg 0]) 8 [seg 0] q).length ≤ 1
    by_cases h8 : q = 8
    · rw [h8, Function.update_self]
      rfl
    · by_cases h7 : q = 7
      · rw [h7, Function.update_of_ne (by decide), Function.update_self]
        rfl
      · rw [Function.update_of_ne h8, Function.update_of_ne h7]
        exact Nat.zero_le 1
  · exact (Function.update_of_ne hg _ _).trans (Function.update_of_ne hg _ _)

/-- They have taken it empty. -/
theorem two_empty : ∃ s, Two s ∧ FreeList (s.mem.content (seg 0)) [] := by
  obtain ⟨s₀, h0, hfree⟩ := two_pools
  obtain ⟨s, hs, hchain, hattached, hnil⟩ := drain h0.first hfree
  refine ⟨s, ⟨h0.reachable.steps hs, ?_, ?_, ?_, ?_⟩, hnil⟩
  · exact fun q => (congrFun hchain q).symm ▸ h0.lengths q
  · exact (congrFun hchain 7).trans h0.first
  · exact (congrFun hchain 8).trans h0.second
  · exact fun g hg => (congrFun hattached g).trans (h0.none g hg)

/-- The keys that the constructors were given. -/
def givenKeys (n : ℕ) : ℤ := (poolShmKey + n : ℕ)

theorem keysSet_given (p : Pid) (fuel : ℕ) (h : ∀ q, (s.chain q).length ≤ 2) :
    KeysSet s (.get p givenKeys fuel) := by
  refine fun _ => ⟨fun _ => rfl, fun q => ?_⟩
  exact lt_of_le_of_lt (Nat.mul_le_mul_right _ (Nat.succ_le_succ (h q))) (by decide)

/-- Process 7 finds its channel empty and makes the second one; process 8 finds its own
empty and attaches the second one too. -/
theorem pools_agree_grown : ∃ s, machine.Reachable KeysSet s ∧ (7, 4095) ∈ s.held ∧
    (8, 4096) ∈ s.held ∧ locate (s.chain 7) 4096 = some (seg 1, 2) ∧
    locate (s.chain 8) 4096 = some (seg 1, 2) ∧ Agreed s := by
  obtain ⟨s, h0, hnil⟩ := two_empty
  have hkey := keysSet_given 7 3 fun q => (h0.lengths q).trans one_le_two
  obtain ⟨m, hgrow, hgrown⟩ := grow_apart (k := (poolShmKey + 1 : ℕ)) givenKeys h0.first hnil
    (by decide) (by decide) (by decide) (h0.none _ (by decide))
  have h1 := h0.reachable.step hkey hgrow
  set s₁ : Sys := ⟨m, Function.update s.chain 7 [seg 0, seg 1], s.held ++ [(7, channelSize + 1)]⟩
  have hsome : s₁.mem.attached (seg 1) ≠ [] := by
    have hattached : m.attached (seg 1) = [7] := hgrown.attached
    exact hattached ▸ List.cons_ne_nil _ _
  have hne : (8 : Pid) ≠ 7 := by decide
  have h8 : s₁.chain 8 = [seg 0] := by
    change Function.update s.chain 7 [seg 0, seg 1] 8 = [seg 0]
    rw [Function.update_of_ne hne]
    exact h0.second
  have hlengths : ∀ q, (s₁.chain q).length ≤ 2 := by
    intro q
    change (Function.update s.chain 7 [seg 0, seg 1] q).length ≤ 2
    by_cases hq : q = 7
    · rw [hq, Function.update_self]
      rfl
    · rw [Function.update_of_ne hq]
      exact (h0.lengths q).trans one_le_two
  obtain ⟨m', hjoin⟩ := grow_join (k := (poolShmKey + 1 : ℕ)) givenKeys h8 hgrown.empty
    (by decide) (by decide) (by decide) hsome hgrown.last hgrown.second
  have h2 := h1.step (keysSet_given 8 3 hlengths) hjoin
  have h7 : Function.update s₁.chain 8 [seg 0, seg 1] 7 = [seg 0, seg 1] := by
    rw [Function.update_of_ne hne.symm]
    exact Function.update_self (7 : Pid) [seg 0, seg 1] s.chain
  have h8' : Function.update s₁.chain 8 [seg 0, seg 1] 8 = [seg 0, seg 1] :=
    Function.update_self _ _ _
  have hboth : locate [seg 0, seg 1] 4096 = some (seg 1, 2) := by decide
  refine ⟨_, h2, ?_, ?_, ?_, ?_, pools_agree h2⟩
  · simp [s₁, channelSize_eq]
  · simp [channelSize_eq]
  · exact h7.symm ▸ hboth
  · exact h8'.symm ▸ hboth

/-- The channel objects of processes 7 and 8 hold different values in `key` when they have
to grow: both get index 4095, in different segments. -/
theorem pools_disagree : ∃ s, machine.Reachable Any s ∧ (7, 4095) ∈ s.held ∧ (8, 4095) ∈ s.held ∧
    locate (s.chain 7) 4095 = some (.shared 101, 1) ∧
    locate (s.chain 8) 4095 = some (.shared 201, 1) ∧ ¬Agreed s := by
  obtain ⟨s, h0, hnil⟩ := two_empty
  obtain ⟨m, hgrow, hgrown⟩ := grow_apart (k := 101) (fun _ => 100) h0.first hnil (by decide)
    (by decide) (by decide) (h0.none _ (by decide))
  have h1 := (h0.reachable.mono fun _ _ _ => trivial).step (C := Any)
    (a := Act.get 7 (fun _ => 100) 3) trivial hgrow
  obtain ⟨m', hgrow', -⟩ := grow_apart (k := 201) (fun _ => 200)
    (s := ⟨m, Function.update s.chain 7 [seg 0, .shared 101], s.held ++ [(7, channelSize + 1)]⟩)
    ((Function.update_of_ne (by decide) _ _).trans h0.second) hgrown.empty (by decide)
    (by decide) (by decide) ((hgrown.others _ (by decide)).trans (h0.none _ (by decide)))
  have h2 := h1.step (a := Act.get 8 (fun _ => 200) 3) trivial hgrow'
  have hx : locate [seg 0, .shared 101] 4095 = some (.shared 101, 1) := by decide
  have hy : locate [seg 0, .shared 201] 4095 = some (.shared 201, 1) := by decide
  refine ⟨_, h2, ?_, ?_, hx, hy, fun hagreed => ?_⟩
  · simp [channelSize_eq]
  · simp [channelSize_eq]
  · have hsame := hagreed.same 7 8 4095 _ _ hx hy
    exact absurd hsame (by decide)

end ShmSocket.Processes
