import ShmSocket.Pool.Steps

/-! What holds between the steps of `Pool::get` and `Pool::release` in any number of processes:
every channel is partitioned, and every process is in a call on one channel at most. -/
namespace ShmSocket.Allocation
open StepMachine
open Channel (Call)
open Processes

variable {s s' : Sys} {p q : Pid} {g : ChannelSeg} {c : Channel.Sys} {e : Event} {w : Walk}
  {N j n pre : ℕ}

/-- Outside the channel it is in a process has no call. -/
def WalkOk (s : Sys) (p : Pid) : Prop :=
  match s.walk p with
  | .idle => ∀ g, s.call g p = .idle
  | .get n pre => pre = channelSize * n ∧ n < (s.chain p).length ∧
      s.call (seg n) p ≠ .idle ∧ (s.call (seg n) p).releasing = none ∧
      ∀ g, g ≠ seg n → s.call g p = .idle
  | .next n pre => pre = channelSize * (n + 1) ∧ n < (s.chain p).length ∧
      ∀ g, s.call g p = .idle
  | .release index g => 0 < index ∧ g = seg (channelOf index) ∧
      channelOf index < (s.chain p).length ∧
      (s.call g p).releasing = some (slotOf index) ∧
      ∀ g', g' ≠ g → s.call g' p = .idle

/-- Every channel is partitioned into its free list and the slots held. -/
structure Inv (s : Sys) (N : ℕ) : Prop where
  agree : Agree s.mem s.chain N
  channels : ∀ j < N, ∃ l, Channel.Partitioned (s.on (seg j)) l
  unused : ∀ j, N ≤ j → s.call (seg j) = (fun _ => .idle) ∧ s.held (seg j) = fun _ => ∅
  walks : ∀ p, WalkOk s p

theorem WalkOk.frame (h : WalkOk s q) (hwalk : s'.walk q = s.walk q)
    (hcall : ∀ g, s'.call g q = s.call g q)
    (hlen : (s.chain q).length ≤ (s'.chain q).length) : WalkOk s' q := by
  unfold WalkOk at h ⊢
  rw [hwalk]
  cases hw : s.walk q with
  | idle =>
    simp only [hw, hcall] at h ⊢
    exact h
  | get n pre =>
    simp only [hw, hcall] at h ⊢
    exact ⟨h.1, h.2.1.trans_le hlen, h.2.2⟩
  | next n pre =>
    simp only [hw, hcall] at h ⊢
    exact ⟨h.1, h.2.1.trans_le hlen, h.2.2⟩
  | release index g =>
    simp only [hw, hcall] at h ⊢
    exact ⟨h.1, h.2.1, h.2.2.1.trans_le hlen, h.2.2.2⟩

theorem Inv.start (content : ChannelSeg → Address) : Inv (.start content) 0 where
  agree := ⟨⟨fun _ => by simp [Sys.start], fun _ h => absurd h (Nat.not_lt_zero _), by decide⟩,
    fun _ => ⟨0, le_rfl, rfl⟩, fun _ _ => rfl⟩
  channels := fun _ h => absurd h (Nat.not_lt_zero _)
  unused := fun _ _ => ⟨rfl, rfl⟩
  walks := fun _ _ => rfl

namespace Inv

/-- The channels of a process are the first ones. -/
theorem chain_seg (h : Inv s N) (hg : (s.chain p)[n]? = some g) :
    g = seg n ∧ n < N ∧ n < (s.chain p).length := by
  obtain ⟨len, hlen, hchain⟩ := h.agree.chains p
  obtain ⟨hlt, -⟩ := List.getElem?_eq_some_iff.mp hg
  have hlt' := hlt
  rw [hchain, segs_length] at hlt'
  rw [hchain, segs_getElem? hlt', Nat.zero_add] at hg
  exact ⟨(Option.some.inj hg).symm, by omega, hlt⟩

theorem lt (h : Inv s N) (hn : n < (s.chain p).length) : n < N := by
  obtain ⟨len, hlen, hchain⟩ := h.agree.chains p
  rw [hchain, segs_length] at hn
  omega

theorem seg_mem (h : Inv s N) (hn : n < (s.chain p).length) : seg n ∈ s.chain p := by
  obtain ⟨len, -, hchain⟩ := h.agree.chains p
  rw [hchain, segs_length] at hn
  rw [hchain, mem_segs]
  omega

end Inv

/-- No call writes the next-channel word. -/
theorem step_word {x x' : Channel.Sys} {l : List ℕ} {a : Channel.Act}
    (h : Channel.Partitioned x l) (hs : x.step a = some x') :
    x'.address nextChannelIndex = x.address nextChannelIndex := by
  have hzero : nextChannelIndex ≠ 0 := by decide
  cases Channel.step_cases hs with
  | start => rfl
  | next => rfl
  | @store p i old hp =>
    have hi : i ∈ x.held p := (h.calls p).1 i (by rw [hp]; rfl)
    have hle := (h.range p i hi).2
    refine Function.update_of_ne ?_ _ _
    unfold nextChannelIndex
    omega
  | @got p ret newNext => exact Function.update_of_ne hzero newNext x.address
  | @released p i => exact Function.update_of_ne hzero i x.address

theorem step_call {x x' : Channel.Sys} {a : Channel.Act} (hs : x.step a = some x')
    (hq : q ≠ a.pid) : x'.call q = x.call q := by
  cases Channel.step_cases hs <;> exact Function.update_of_ne hq _ _

/-- A word behind the free list. -/
theorem word_partitioned {x : Channel.Sys} {l : List ℕ} (h : Channel.Partitioned x l) (key : ℕ) :
    Channel.Partitioned { x with address := allocNextChannel x.address key } l where
  list := h.list.allocNextChannel key
  exclusive := h.exclusive
  free := h.free
  range := h.range
  calls := by
    intro q
    refine (h.calls q).frame rfl (fun _ hi => hi) fun i hi => ?_
    have hle := (h.range q i hi).2
    refine Function.update_of_ne ?_ _ _
    unfold nextChannelIndex
    omega

/-- A slot changes hands while its holder is not putting it back. -/
theorem handed_partitioned {x : Channel.Sys} {l : List ℕ} {i : ℕ} (h : Channel.Partitioned x l)
    (hi : i ∈ x.held p) (hrel : (x.call p).releasing ≠ some i) :
    Channel.Partitioned (handed x p q i) l where
  list := h.list
  exclusive := by
    intro r r' k hk hk'
    rw [mem_handed] at hk hk'
    rcases hk with ⟨hk, hne⟩ | ⟨rfl, rfl⟩ <;> rcases hk' with ⟨hk', hne'⟩ | ⟨rfl, hki⟩
    · exact h.exclusive r r' k hk hk'
    · exact absurd ⟨h.exclusive r p k hk (hki ▸ hi), hki⟩ hne
    · exact absurd ⟨h.exclusive r' p k hk' hi, rfl⟩ hne'
    · rfl
  free := by
    intro k
    rw [h.free k]
    refine and_congr_right fun _ => and_congr_right fun _ => ⟨fun hall r hr => ?_,
      fun hall r hr => ?_⟩
    · rcases mem_handed x |>.mp hr with ⟨hr, -⟩ | ⟨-, rfl⟩
      · exact hall r hr
      · exact hall p hi
    · by_cases hk : r = p ∧ k = i
      · exact hall q ((mem_handed x).mpr (.inr ⟨rfl, hk.2⟩))
      · exact hall r ((mem_handed x).mpr (.inl ⟨hr, hk⟩))
  range := by
    intro r k hk
    rcases (mem_handed x).mp hk with ⟨hk, -⟩ | ⟨-, rfl⟩
    · exact h.range r k hk
    · exact h.range p k hi
  calls := by
    intro r
    refine ⟨fun k hk => (mem_handed x).mpr (.inl ⟨(h.calls r).1 k hk, ?_⟩), (h.calls r).2⟩
    rintro ⟨rfl, rfl⟩
    exact hrel hk

/-- The contents of channels that have the same view. -/
theorem content_of_view {m m' : Mem} {k d i : ℕ} (h : view m' k d = view m k d) (hle : k ≤ i)
    (hlt : i < k + d) : m'.content (seg i) = m.content (seg i) :=
  List.map_inj_left.mp h i (List.mem_range'_1.mpr ⟨hle, hlt⟩)

namespace Inv

/-- A step on one channel. -/
theorem moved (h : Inv s N) (hj : j < N) (hpart : ∃ l, Channel.Partitioned c l)
    (hword : c.address nextChannelIndex = s.mem.content (seg j) nextChannelIndex)
    (hcall : ∀ q, q ≠ p → c.call q = s.call (seg j) q)
    (hwalk : WalkOk ((s.store (seg j) c).setWalk p w) p) :
    Inv ((s.store (seg j) c).setWalk p w) N where
  agree := ⟨h.agree.pools.store (hword ▸ h.agree.pools.words j hj), h.agree.chains, h.agree.count⟩
  channels := by
    intro i hi
    change ∃ l, Channel.Partitioned ((s.store (seg j) c).on (seg i)) l
    by_cases he : i = j
    · rw [he, on_store]
      exact hpart
    · rw [on_store_of_ne fun hs => he (seg_inj hs)]
      exact h.channels i hi
  unused := by
    intro i hi
    have hne : seg i ≠ seg j := fun he => by
      have := seg_inj he
      omega
    change Function.update s.call (seg j) c.call (seg i) = _ ∧
      Function.update s.held (seg j) c.held (seg i) = _
    rw [Function.update_of_ne hne, Function.update_of_ne hne]
    exact h.unused i hi
  walks := by
    intro q
    by_cases hq : q = p
    · rw [hq]
      exact hwalk
    · refine (h.walks q).frame (Function.update_of_ne hq _ _) (fun g => ?_) le_rfl
      by_cases hg : g = seg j
      · rw [hg, call_here]
        exact hcall q hq
      · rw [call_other hg]

/-- A process attaches channels, of which the last may be new, and may store a next-channel
word. -/
theorem attached {m : Mem} {len N' : ℕ} (h : Inv s N)
    (hagree : Agree m (Function.update s.chain p (segs 0 len)) N')
    (hlen : (s.chain p).length ≤ len)
    (hcontent : ∀ i < N, m.content (seg i) = s.mem.content (seg i) ∨
      ∃ key, m.content (seg i) = allocNextChannel (s.mem.content (seg i)) key)
    (hnew : N' = N ∨ N' = N + 1 ∧ ∃ a : Address, m.content (seg N) = a.init) :
    Inv { s with mem := m, chain := Function.update s.chain p (segs 0 len) } N' where
  agree := hagree
  channels := by
    intro i hi
    by_cases hold : i < N
    · obtain ⟨l, hl⟩ := h.channels i hold
      change ∃ l, Channel.Partitioned ⟨m.content (seg i), s.call (seg i), s.held (seg i)⟩ l
      rcases hcontent i hold with he | ⟨key, he⟩
      · rw [he]
        exact ⟨l, hl⟩
      · rw [he]
        exact ⟨l, word_partitioned hl key⟩
    · rcases hnew with rfl | ⟨rfl, a, ha⟩
      · exact absurd hi hold
      · obtain rfl : i = N := by omega
        obtain ⟨hcall, hheld⟩ := h.unused i le_rfl
        refine ⟨List.range' 1 channelSize, ?_⟩
        change Channel.Partitioned ⟨m.content (seg i), s.call (seg i), s.held (seg i)⟩ _
        rw [ha, hcall, hheld]
        exact .start a
  unused := fun i hi => h.unused i (by omega)
  walks := by
    intro q
    refine (h.walks q).frame rfl (fun _ => rfl) ?_
    change _ ≤ (Function.update s.chain p (segs 0 len) q).length
    by_cases hq : q = p
    · rw [hq, Function.update_self, segs_length]
      exact hlen
    · rw [Function.update_of_ne hq]

theorem construct {fuel : ℕ} {x : List ChannelSeg × Mem} (h : Inv s N) (hp : s.chain p = [])
    (hx : Processes.construct p fuel 0 poolShmKey s.mem = some x) :
    ∃ N', (N' = N ∨ N' = N + 1) ∧
      Inv { s with mem := x.2, chain := Function.update s.chain p x.1 } N' := by
  obtain ⟨fuel', len, m, N', hrun, hc⟩ :=
    construct_spec p h.agree.pools (Nat.zero_add N).symm (by decide)
  obtain rfl := construct_unique hx hrun
  have hfits : 0 + len ≤ N' := hc.fits
  have hgrow : N ≤ N' := by
    rcases hc.grows with rfl | ⟨rfl, -⟩ <;> omega
  have hempty : s.chain p = segs 0 0 := hp
  have hattach := h.agree.attach hempty hc.attaches
  rw [Nat.zero_add] at hattach hfits
  refine ⟨N', hc.grows.imp_right And.left, h.attached
    ⟨hc.pools, h.agree.lengthen hgrow hfits, hattach⟩ ?_ (fun i hi => .inl (hc.old i hi)) ?_⟩
  · rw [hp]
    exact Nat.zero_le _
  · rcases hc.grows with he | ⟨he, -, ha⟩
    · exact .inl he
    · exact .inr ⟨he, ha⟩

/-- A process at the end of its chain, and the room for one more channel. -/
theorem last (h : Inv s N) (hlen : (s.chain p).length = n + 1)
    (hroom : ∀ q, ((s.chain q).length + 1) * channelSize < 2 ^ 31) :
    s.chain p = segs 0 (n + 1) ∧ ∃ d, N = n + 1 + d ∧ (n + 1 + d + 1) * channelSize < 2 ^ 31 := by
  obtain ⟨len, hle, hchain⟩ := h.agree.chains p
  obtain rfl : len = n + 1 := by rw [← hlen, hchain, segs_length]
  obtain ⟨d, rfl⟩ := Nat.exists_eq_add_of_le hle
  obtain ⟨q, hq⟩ := h.agree.reached (by omega)
  exact ⟨hchain, d, rfl, lt_of_le_of_lt (Nat.mul_le_mul_right _ (by omega)) (hroom q)⟩

theorem grow {fuel : ℕ} {key : ℕ → ℤ} {x : List ChannelSeg × Mem} (h : Inv s N)
    (hlen : (s.chain p).length = n + 1) (hkey : ∀ n, key n = (poolShmKey + n : ℕ))
    (hroom : ∀ q, ((s.chain q).length + 1) * channelSize < 2 ^ 31)
    (hx : Processes.grow p fuel n (key n) (seg n) s.mem = some x) :
    ∃ N', (N' = N ∨ N' = N + 1) ∧
      Inv { s with mem := x.2, chain := Function.update s.chain p (s.chain p ++ x.1) } N' := by
  obtain ⟨hchain, d, rfl, hspace⟩ := h.last hlen hroom
  obtain ⟨fuel', more, m, d', hrun, hg⟩ := grow_spec (p := p) h.agree.pools (hkey n) hspace
  obtain rfl := Option.some.inj ((grow_mono hx (le_max_left fuel fuel')).symm.trans
    (grow_mono hrun (le_max_right fuel fuel')))
  have hsegs : s.chain p ++ segs (n + 1) more = segs 0 (n + 1 + more) := by
    rw [hchain, segs_add 0 (n + 1) more, Nat.zero_add]
  have hnew : n + 1 + d' = n + 1 + d ∨ n + 1 + d' = n + 1 + d + 1 ∧
      ∃ a : Address, m.content (seg (n + 1 + d)) = a.init := by
    rcases hg.views with ⟨rfl, -⟩ | ⟨rfl, -, a, hv⟩
    · exact .inl rfl
    · refine .inr ⟨rfl, a, ?_⟩
      rw [view_concat] at hv
      exact List.head_eq_of_cons_eq (List.append_inj_right' hv rfl)
  have hbehind : ∀ i, n < i → i < n + 1 + d → m.content (seg i) = s.mem.content (seg i) := by
    intro i hi hlt
    rcases hg.views with ⟨rfl, hv⟩ | ⟨rfl, -, a, hv⟩
    · exact content_of_view hv hi hlt
    · rw [view_concat] at hv
      exact content_of_view (List.append_inj_left' hv rfl) hi hlt
  rw [hsegs]
  have hfits := hg.fits
  refine ⟨n + 1 + d', hnew.imp_right And.left, h.attached
    ⟨hg.pools, h.agree.lengthen (by omega) (by omega), h.agree.attach hchain hg.attaches⟩
    (by omega) (fun i hi => ?_) hnew⟩
  rcases lt_trichotomy i n with hlt | rfl | hgt
  · exact .inl (hg.before i hlt)
  · exact .inr ⟨_, hg.here⟩
  · exact .inl (hbehind i hgt hi)

/-- Where the loop of `Pool::release` stops, when the slot there is in use. -/
theorem seek_seg {index slot : ℕ} (h : Inv s N) (hs : seek index (s.chain p) = some (g, slot))
    (hheld : slot ∈ s.held g p) : 0 < index ∧ g = seg (channelOf index) ∧
      slot = slotOf index ∧ channelOf index < (s.chain p).length := by
  obtain ⟨len, hlen, hchain⟩ := h.agree.chains p
  have hpos : 0 < index := by
    by_contra hzero
    obtain rfl : index = 0 := Nat.eq_zero_of_not_pos hzero
    obtain ⟨hg, rfl⟩ := seek_zero hs
    obtain ⟨rfl, hn, -⟩ := h.chain_seg hg
    obtain ⟨l, hl⟩ := h.channels 0 hn
    exact absurd (hl.range p 0 hheld).1 (Nat.not_succ_le_zero 0)
  rw [seek_eq hpos, hchain] at hs
  have hx := locate_segs hs
  obtain ⟨rfl, rfl⟩ := Prod.mk.inj hx
  obtain ⟨g', hg', -⟩ := Option.map_eq_some_iff.mp hs
  obtain ⟨hlt, -⟩ := List.getElem?_eq_some_iff.mp hg'
  exact ⟨hpos, rfl, rfl, hchain ▸ hlt⟩

end Inv

/-- What the next step of a call on channel `j` shows. -/
inductive Outcome (s : Sys) (p : Pid) (j : ℕ) : Channel.Sys → Walk → Event → Prop
  | quiet {c : Channel.Sys} (hbusy : c.call p ≠ .idle)
      (hrel : (c.call p).releasing = (s.call (seg j) p).releasing)
      (hheld : c.held = s.held (seg j)) : Outcome s p j c (s.walk p) .quiet
  | got {r newNext : ℕ} (hcall : s.call (seg j) p = .getSwap r newNext)
      (hhead : s.mem.content (seg j) 0 = r) (hr : 0 < r) :
      Outcome s p j ((s.on (seg j)).got p r newNext) .idle (.got p (channelSize * j + r))
  | passed {newNext : ℕ} (hcall : s.call (seg j) p = .getSwap 0 newNext)
      (hhead : s.mem.content (seg j) 0 = 0) :
      Outcome s p j ((s.on (seg j)).got p 0 newNext) (.next j (channelSize * (j + 1)))
        (.passed p j)
  | put {i old : ℕ} (hcall : s.call (seg j) p = .releaseSwap i old)
      (hhead : s.mem.content (seg j) 0 = old) (hi : 0 < i ∧ i ≤ channelSize) :
      Outcome s p j ((s.on (seg j)).released p i) .idle (.put p (channelSize * j + i))

/-- A step of a call is one on the `n`-th channel of the process. -/
structure Ran (s : Sys) (p : Pid) (e : Event) (s' : Sys) (n : ℕ) (c : Channel.Sys) (w : Walk) :
    Prop where
  lt : n < (s.chain p).length
  step : (s.on (seg n)).step (.exec p) = some c
  others : ∀ g, g ≠ seg n → s.call g p = .idle
  outcome : Outcome s p n c w e
  eq : s' = (s.store (seg n) c).setWalk p w

theorem get_cases (h : Inv s N) (hw : s.walk p = .get n pre) (hs : s.exec p = some (e, s')) :
    ∃ c w, Ran s p e s' n c w := by
  have hok := h.walks p
  simp only [WalkOk, hw] at hok
  obtain ⟨rfl, hlen, -, hnone, hothers⟩ := hok
  simp only [Sys.exec, hw] at hs
  obtain ⟨g, hg, hs⟩ := Option.bind_eq_some_iff.mp hs
  obtain ⟨rfl, -, -⟩ := h.chain_seg hg
  obtain ⟨c, hc, he⟩ := Option.map_eq_some_iff.mp hs
  rcases exec_channel hc with ⟨hbusy, hrel, hheld⟩ | ⟨r, newNext, hcall, hhead, rfl⟩ |
    ⟨i, old, hcall, -, -⟩
  · rw [if_neg hbusy] at he
    obtain ⟨rfl, rfl⟩ := Prod.mk.inj he
    exact ⟨c, s.walk p, hlen, hc, hothers, .quiet hbusy hrel hheld, (setWalk_self _ p).symm⟩
  · have hidle : ((s.on (seg n)).got p r newNext).call p = .idle := Function.update_self _ _ _
    have hcall : s.call (seg n) p = .getSwap r newNext := hcall
    simp only [if_pos hidle, hcall, ret] at he
    by_cases hr : 0 < r
    · rw [if_pos hr] at he
      obtain ⟨rfl, rfl⟩ := Prod.mk.inj he
      exact ⟨_, _, hlen, hc, hothers, .got hcall hhead hr, rfl⟩
    · rw [if_neg hr] at he
      obtain rfl : r = 0 := Nat.eq_zero_of_not_pos hr
      obtain ⟨rfl, rfl⟩ := Prod.mk.inj he
      exact ⟨_, _, hlen, hc, hothers, .passed hcall hhead, rfl⟩
  · have hcall : s.call (seg n) p = .releaseSwap i old := hcall
    rw [hcall] at hnone
    cases hnone

theorem release_cases {index : ℕ} (h : Inv s N) (hw : s.walk p = .release index g)
    (hs : s.exec p = some (e, s')) : ∃ n c w, Ran s p e s' n c w := by
  have hok := h.walks p
  simp only [WalkOk, hw] at hok
  obtain ⟨hpos, rfl, hlen, hrel, hothers⟩ := hok
  simp only [Sys.exec, hw] at hs
  obtain ⟨c, hc, he⟩ := Option.map_eq_some_iff.mp hs
  rcases exec_channel hc with ⟨hbusy, hsame, hheld⟩ | ⟨r, newNext, hcall, -, -⟩ |
    ⟨i, old, hcall, hhead, rfl⟩
  · rw [if_neg hbusy] at he
    obtain ⟨rfl, rfl⟩ := Prod.mk.inj he
    exact ⟨_, c, s.walk p, hlen, hc, hothers, .quiet hbusy hsame hheld, (setWalk_self _ p).symm⟩
  · have hcall : s.call (seg (channelOf index)) p = .getSwap r newNext := hcall
    rw [hcall] at hrel
    cases hrel
  · have hidle : ((s.on (seg (channelOf index))).released p i).call p = .idle :=
      Function.update_self _ _ _
    have hcall : s.call (seg (channelOf index)) p = .releaseSwap i old := hcall
    rw [if_pos hidle] at he
    obtain ⟨rfl, rfl⟩ := Prod.mk.inj he
    rw [hcall] at hrel
    obtain rfl : i = slotOf index := Option.some.inj hrel
    have hput := Outcome.put hcall hhead (slotOf_range index)
    rw [channelOf_slotOf hpos] at hput
    exact ⟨_, _, _, hlen, hc, hothers, hput, rfl⟩

theorem exec_cases (h : Inv s N) (hs : s.exec p = some (e, s')) :
    ∃ n c w, Ran s p e s' n c w := by
  cases hw : s.walk p with
  | get n pre =>
    obtain ⟨c, w, hcases⟩ := get_cases h hw hs
    exact ⟨n, c, w, hcases⟩
  | release index g => exact release_cases h hw hs
  | idle => simp [Sys.exec, hw] at hs
  | next n pre => simp [Sys.exec, hw] at hs

theorem call_moved (hothers : ∀ g, g ≠ seg n → s.call g p = .idle) (hidle : c.call p = .idle)
    (g : ChannelSeg) : ((s.store (seg n) c).setWalk p w).call g p = .idle := by
  by_cases hg : g = seg n
  · rw [hg, call_here, hidle]
  · rw [call_other hg]
    exact hothers g hg

/-- After a step the process is where `WalkOk` says. -/
theorem Ran.walk (h : Ran s p e s' n c w) (hok : WalkOk s p) :
    WalkOk ((s.store (seg n) c).setWalk p w) p := by
  obtain ⟨hlen, hstep, hothers, hout, -⟩ := h
  have hbusy : s.call (seg n) p ≠ .idle := by
    intro hidle
    have hidle : (s.on (seg n)).call p = .idle := hidle
    simp [Channel.Sys.step, Channel.Sys.exec, hidle] at hstep
  have hwalk : ((s.store (seg n) c).setWalk p w).walk p = w := Function.update_self _ _ _
  have hchain : ((s.store (seg n) c).setWalk p w).chain = s.chain := rfl
  have hgot : ∀ r newNext, ((s.on (seg n)).got p r newNext).call p = .idle := fun r newNext =>
    Function.update_self _ _ _
  cases hout with
  | got hcall hhead hr =>
    unfold WalkOk
    rw [hwalk]
    exact call_moved hothers (hgot _ _)
  | passed hcall hhead =>
    unfold WalkOk
    rw [hwalk]
    exact ⟨rfl, hlen, call_moved hothers (hgot _ _)⟩
  | put hcall hhead hi =>
    unfold WalkOk
    rw [hwalk]
    exact call_moved hothers (Function.update_self _ _ _)
  | quiet hnow hrel hheld =>
    have hrest : ∀ w g, g ≠ seg n → ((s.store (seg n) c).setWalk p w).call g p = .idle :=
      fun w g hg => (call_other hg c w).trans (hothers g hg)
    have hhere : ∀ g, s.call g p ≠ .idle → g = seg n := fun g hg => by
      by_contra hne
      exact hg (hothers g hne)
    unfold WalkOk at hok ⊢
    rw [hwalk, hchain]
    cases hw : s.walk p with
    | idle =>
      simp only [hw] at hok
      exact absurd (hok _) hbusy
    | next m pre =>
      simp only [hw] at hok
      exact absurd (hok.2.2 _) hbusy
    | get m pre =>
      simp only [hw] at hok ⊢
      obtain ⟨hpre, hm, hmbusy, hnone, -⟩ := hok
      obtain rfl : m = n := seg_inj (hhere _ hmbusy)
      rw [call_here, hrel]
      exact ⟨hpre, hm, hnow, hnone, hrest _⟩
    | release index g =>
      simp only [hw] at hok ⊢
      obtain ⟨hpos, rfl, hm, hslot, -⟩ := hok
      have hne : s.call (seg (channelOf index)) p ≠ .idle := fun h0 => by
        rw [h0] at hslot
        cases hslot
      obtain rfl : channelOf index = n := seg_inj (hhere _ hne)
      rw [call_here, hrel]
      exact ⟨hpos, rfl, hm, hslot, hrest _⟩

theorem exec_isSome {x : Channel.Sys} (h : x.call p ≠ .idle) :
    ∃ x', x.step (.exec p) = some x' := by
  simp only [Channel.Sys.step, Channel.Sys.exec]
  cases hcall : x.call p with
  | idle => exact absurd hcall h
  | getSwap r newNext =>
    dsimp only
    split_ifs <;> exact ⟨_, rfl⟩
  | releaseSwap i old =>
    dsimp only
    split_ifs <;> exact ⟨_, rfl⟩
  | _ => exact ⟨_, rfl⟩

theorem enter_isSome {chain : List ChannelSeg} (pre : ℕ) (hchain : s.chain p = chain)
    (hlt : n < chain.length) (hidle : ∀ g, s.call g p = .idle) :
    ∃ s', s.enter p n pre = some s' := by
  have hstep : (s.on chain[n]).step (.get p) =
      some ((s.on chain[n]).setCall p .getHead) := if_pos (hidle _)
  unfold Sys.enter
  rw [hchain, List.getElem?_eq_getElem hlt, Option.bind_some, hstep]
  exact ⟨_, rfl⟩

/-- No call gets stuck: it has a next step, or goes on to the next channel, which is made if
need be. -/
theorem Inv.continues (h : Inv s N) (hw : s.walk p ≠ .idle)
    (hroom : ∀ q, ((s.chain q).length + 1) * channelSize < 2 ^ 31) :
    (∃ x, s.act (.exec p) = some x) ∨
      ∃ fuel x, s.act (.next p (fun n => (poolShmKey + n : ℕ)) fuel) = some x := by
  have hok := h.walks p
  unfold WalkOk at hok
  cases hwalk : s.walk p with
  | idle => exact absurd hwalk hw
  | get n pre =>
    simp only [hwalk] at hok
    obtain ⟨-, hlen, hbusy, -, -⟩ := hok
    obtain ⟨x, hx⟩ := exec_isSome (x := s.on (seg n)) hbusy
    obtain ⟨len, -, hchain⟩ := h.agree.chains p
    have hg : (s.chain p)[n]? = some (seg n) := by
      rw [hchain, segs_length] at hlen
      rw [hchain, segs_getElem? hlen, Nat.zero_add]
    left
    simp only [Sys.act, Sys.exec, hwalk, hg, Option.bind_some, hx, Option.map_some]
    exact ⟨_, rfl⟩
  | release index g =>
    simp only [hwalk] at hok
    obtain ⟨-, -, -, hrel, -⟩ := hok
    have hbusy : s.call g p ≠ .idle := fun h0 => by
      rw [h0] at hrel
      cases hrel
    obtain ⟨x, hx⟩ := exec_isSome (x := s.on g) hbusy
    left
    simp only [Sys.act, Sys.exec, hwalk, hx, Option.map_some]
    exact ⟨_, rfl⟩
  | next n pre =>
    simp only [hwalk] at hok
    obtain ⟨-, hlen, hidle⟩ := hok
    right
    by_cases hlast : (s.chain p).length = n + 1
    · obtain ⟨hchain, d, rfl, hspace⟩ := h.last hlast hroom
      obtain ⟨fuel, more, m, d', hgrow, hg⟩ := grow_spec (p := p) h.agree.pools rfl hspace
      have hseg : (s.chain p)[n]? = some (seg n) := by
        rw [hchain, segs_getElem? n.lt_succ_self, Nat.zero_add]
      have hpos := hg.pos
      have hlt : n + 1 < (s.chain p ++ segs (n + 1) more).length := by
        rw [List.length_append, hlast, segs_length]
        omega
      obtain ⟨t, ht⟩ := enter_isSome (p := p) (s := { s with
        mem := m, chain := Function.update s.chain p (s.chain p ++ segs (n + 1) more) })
        pre (Function.update_self _ _ _) hlt hidle
      refine ⟨fuel, (.grew p, t), ?_⟩
      simp only [Sys.act, Sys.next, hwalk, if_pos hlast, hseg, Option.bind_some, hgrow, ht,
        Option.map_some]
    · obtain ⟨t, ht⟩ := enter_isSome (s := s) (n := n + 1) pre rfl (by omega) hidle
      refine ⟨0, (.quiet, t), ?_⟩
      simp only [Sys.act, Sys.next, hwalk, if_neg hlast, ht, Option.map_some]

end ShmSocket.Allocation
