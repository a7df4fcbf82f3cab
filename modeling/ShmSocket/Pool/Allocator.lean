import ShmSocket.Pool.StepsInv
import ShmSocket.Lib.Refinement

/-! What the pool is for: an index is free or some process has it. The calls of any number of
processes at the same time refine this. -/
namespace ShmSocket.Allocation
open StepMachine
open Channel (Call)
open Processes

/-- The indices 1 to `cap` exist; `held p` are those that `p` is to put back. -/
@[ext] structure Alloc where
  cap : ℕ
  held : Pid → Set ℕ

namespace Alloc

def Free (a : Alloc) (k : ℕ) : Prop := 0 < k ∧ k ≤ a.cap ∧ ∀ p, k ∉ a.held p

def give (a : Alloc) (p : Pid) (k : ℕ) : Alloc :=
  { a with held := fun q => {x | x ∈ a.held q ∨ q = p ∧ x = k} }

def take (a : Alloc) (p : Pid) (k : ℕ) : Alloc :=
  { a with held := fun q => {x | x ∈ a.held q ∧ ¬ (q = p ∧ x = k)} }

/-- `get` may return any free index. It passes a channel only when no index of it is free,
and a new channel has the next indices. -/
inductive Step : Alloc → Event → Alloc → Prop
  | quiet {a : Alloc} : Step a .quiet a
  | got {a : Alloc} {p : Pid} {k : ℕ} (hfree : a.Free k) : Step a (.got p k) (a.give p k)
  | passed {a : Alloc} {p : Pid} {n : ℕ} (hnone : ∀ k, channelOf k = n → ¬ a.Free k) :
      Step a (.passed p n) a
  | grew {a : Alloc} {p : Pid} {cap : ℕ} (hcap : cap = a.cap ∨ cap = a.cap + channelSize) :
      Step a (.grew p) { a with cap }
  | put {a : Alloc} {p : Pid} {k : ℕ} (hk : k ∈ a.held p) : Step a (.put p k) (a.take p k)
  | handed {a : Alloc} {p q : Pid} {k : ℕ} (hk : k ∈ a.held p) :
      Step a (.handed p q k) ((a.take p k).give q k)

def spec : Spec Alloc Event where
  init a := a.cap = 0 ∧ ∀ p, a.held p = ∅
  step := Step

/-- No index has two holders, and an index in use exists. -/
def Exclusive (a : Alloc) : Prop :=
  (∀ p q k, k ∈ a.held p → k ∈ a.held q → p = q) ∧ ∀ p, ∀ k ∈ a.held p, 0 < k ∧ k ≤ a.cap

variable {a a' : Alloc} {e : Event} {p q : Pid} {k : ℕ}

theorem Exclusive.empty (h : ∀ p, a.held p = ∅) : a.Exclusive := by
  simp [Exclusive, h]

theorem Exclusive.give (h : a.Exclusive) (hk : 0 < k ∧ k ≤ a.cap) (hfree : ∀ p, k ∉ a.held p) :
    (a.give p k).Exclusive := by
  constructor
  · rintro r r' x (hx | ⟨rfl, rfl⟩) (hx' | ⟨rfl, hxk⟩)
    · exact h.1 r r' x hx hx'
    · exact absurd (hxk ▸ hx) (hfree r)
    · exact absurd hx' (hfree r')
    · rfl
  · rintro r x (hx | ⟨-, rfl⟩)
    · exact h.2 r x hx
    · exact hk

theorem Exclusive.take (h : a.Exclusive) : (a.take p k).Exclusive :=
  ⟨fun r r' x hx hx' => h.1 r r' x hx.1 hx'.1, fun r x hx => h.2 r x hx.1⟩

theorem Exclusive.step (h : a.Exclusive) (hs : Step a e a') : a'.Exclusive := by
  cases hs with
  | quiet => exact h
  | got hfree => exact h.give ⟨hfree.1, hfree.2.1⟩ hfree.2.2
  | passed hnone => exact h
  | @grew p cap hcap =>
    have hle : a.cap ≤ cap := by
      rcases hcap with rfl | rfl
      · exact le_rfl
      · exact Nat.le_add_right _ _
    exact ⟨h.1, fun r x hx => ⟨(h.2 r x hx).1, (h.2 r x hx).2.trans hle⟩⟩
  | put hk => exact h.take
  | @handed p q k hk =>
    exact h.take.give (h.2 p k hk) fun r hr => hr.2 ⟨h.1 r p k hr.1 hk, rfl⟩

end Alloc

variable {s s' : Sys} {p q : Pid} {g : ChannelSeg} {c : Channel.Sys} {e : Event} {w : Walk}
  {N j n pre : ℕ}

/-- The indices that exist, and who is to put them back. -/
noncomputable def Sys.alloc (s : Sys) : Alloc where
  cap := channelSize * sInf {j | s.mem.attached (seg j) = []}
  held p := {k | 0 < k ∧ slotOf k ∈ s.held (seg (channelOf k)) p}

theorem Inv.cap (h : Inv s N) : s.alloc.cap = channelSize * N := by
  have hset : {j | s.mem.attached (seg j) = []} = Set.Ici N := by
    ext j
    exact h.agree.pools.attached j
  unfold Sys.alloc
  dsimp only
  rw [hset, csInf_Ici]

/-- The indices that a step on one channel leaves in use. -/
theorem mem_moved {k : ℕ} : k ∈ ((s.store (seg j) c).setWalk p w).alloc.held q ↔
    0 < k ∧ if channelOf k = j then slotOf k ∈ c.held q else k ∈ s.alloc.held q := by
  change 0 < k ∧ slotOf k ∈ Function.update s.held (seg j) c.held (seg (channelOf k)) q ↔ _
  by_cases hk : channelOf k = j
  · rw [if_pos hk, hk, Function.update_self]
  · rw [if_neg hk, Function.update_of_ne fun he => hk (seg_inj he)]
    change _ ↔ 0 < k ∧ 0 < k ∧ _
    tauto

/-- An index is its slot in its channel. -/
theorem index_iff {k i : ℕ} (hk : 0 < k) (hi : 0 < i ∧ i ≤ channelSize) :
    k = channelSize * j + i ↔ channelOf k = j ∧ slotOf k = i := by
  constructor
  · rintro rfl
    exact ⟨channelOf_add hi.1 hi.2, slotOf_add hi.1 hi.2⟩
  · rintro ⟨rfl, rfl⟩
    exact (channelOf_slotOf hk).symm

theorem alloc_same (hheld : c.held = s.held (seg j)) :
    ((s.store (seg j) c).setWalk p w).alloc = s.alloc := by
  refine Alloc.ext rfl (funext fun q => Set.ext fun k => ?_)
  rw [mem_moved, hheld]
  change 0 < k ∧ _ ↔ 0 < k ∧ slotOf k ∈ s.held (seg (channelOf k)) q
  split_ifs with hk
  · rw [hk]
  · exact and_iff_right_of_imp fun h => h.1

/-- A change `P` of who holds slot `i` is the same change for its index. -/
theorem alloc_moved {i k : ℕ} (P : Prop → Pid → Prop → Prop) (hP : ∀ A q, P A q False ↔ A)
    (hi : 0 < i ∧ i ≤ channelSize)
    (hheld : ∀ q x, x ∈ c.held q ↔ P (x ∈ s.held (seg j) q) q (x = i)) :
    k ∈ ((s.store (seg j) c).setWalk p w).alloc.held q ↔
      P (k ∈ s.alloc.held q) q (k = channelSize * j + i) := by
  have hold : k ∈ s.alloc.held q ↔ 0 < k ∧ slotOf k ∈ s.held (seg (channelOf k)) q := Iff.rfl
  rw [mem_moved]
  by_cases hpos : 0 < k
  · rw [index_iff hpos hi]
    by_cases hk : channelOf k = j
    · simp only [hold, hpos, hk, hheld, if_true, true_and]
    · simp only [hpos, hk, hP, if_false, true_and, false_and]
  · have hne : ¬ k = channelSize * j + i := by omega
    simp only [hold, hpos, hne, hP, false_and]

/-- The index at the head of a free list is free, and an empty list means that no index of
the channel is. -/
theorem head_free {x : Channel.Sys} {l : List ℕ} (h : Channel.Partitioned x l) :
    (x.address 0 ≠ 0 → 0 < x.address 0 ∧ x.address 0 ≤ channelSize ∧
      ∀ p, x.address 0 ∉ x.held p) ∧
    (x.address 0 = 0 → ∀ i, 0 < i → i ≤ channelSize → ∃ p, i ∈ x.held p) := by
  cases l with
  | nil =>
    refine ⟨fun hne => absurd h.list.linked hne, fun _ i hpos hle => ?_⟩
    by_contra hnone
    exact absurd ((h.free i).mpr ⟨hpos, hle, not_exists.mp hnone⟩) List.not_mem_nil
  | cons i l =>
    have hhead : x.address 0 = i := h.list.linked.1
    rw [hhead]
    refine ⟨fun _ => (h.free i).mp List.mem_cons_self, fun hz => ?_⟩
    exact absurd hz (h.list.pos List.mem_cons_self).ne'

theorem Inv.free (h : Inv s N) {i : ℕ} (hn : n < N) (hi : 0 < i ∧ i ≤ channelSize)
    (hfree : ∀ p, i ∉ s.held (seg n) p) : s.alloc.Free (channelSize * n + i) := by
  have hmul : channelSize * (n + 1) ≤ channelSize * N := Nat.mul_le_mul_left _ hn
  rw [Nat.mul_succ] at hmul
  refine ⟨by omega, ?_, fun q hq => ?_⟩
  · rw [h.cap]
    omega
  · have hslot := hq.2
    rw [channelOf_add hi.1 hi.2, slotOf_add hi.1 hi.2] at hslot
    exact hfree q hslot

/-- A step of a call does to the indices what it shows. -/
theorem Outcome.refines (h : Outcome s p n c w e) (hinv : Inv s N) (hn : n < N) :
    Alloc.Step s.alloc e ((s.store (seg n) c).setWalk p w).alloc := by
  obtain ⟨l, hl⟩ := hinv.channels n hn
  obtain ⟨hfree, hempty⟩ := head_free hl
  cases h with
  | quiet hbusy hrel hheld =>
    rw [alloc_same hheld]
    exact .quiet
  | @got r newNext hcall hhead hr =>
    have hhead : (s.on (seg n)).address 0 = r := hhead
    rw [hhead] at hfree
    obtain ⟨hpos, hle, hnone⟩ := hfree hr.ne'
    have halloc : ((s.store (seg n) ((s.on (seg n)).got p r newNext)).setWalk p .idle).alloc =
        s.alloc.give p (channelSize * n + r) := by
      refine Alloc.ext rfl (funext fun q => Set.ext fun k => ?_)
      exact alloc_moved (fun A q B => A ∨ q = p ∧ B) (by simp) ⟨hpos, hle⟩
        fun q x => (s.on (seg n)).mem_held_got newNext hr.ne'
    rw [halloc]
    exact .got (hinv.free hn ⟨hpos, hle⟩ hnone)
  | @passed newNext hcall hhead =>
    have hheld : ((s.on (seg n)).got p 0 newNext).held = s.held (seg n) := by
      rw [Channel.Sys.got, if_pos rfl]
      rfl
    rw [alloc_same hheld]
    refine .passed fun k hk hfree => ?_
    obtain ⟨hpos, hle⟩ := slotOf_range k
    obtain ⟨q, hq⟩ := hempty hhead (slotOf k) hpos hle
    exact hfree.2.2 q ⟨hfree.1, hk ▸ hq⟩
  | @put i old hcall hhead hi =>
    have hmem : i ∈ s.held (seg n) p := (hl.calls p).1 i (by
      have hcall : (s.on (seg n)).call p = .releaseSwap i old := hcall
      rw [hcall]
      rfl)
    have halloc : ((s.store (seg n) ((s.on (seg n)).released p i)).setWalk p .idle).alloc =
        s.alloc.take p (channelSize * n + i) := by
      refine Alloc.ext rfl (funext fun q => Set.ext fun k => ?_)
      refine alloc_moved (fun A q B => A ∧ ¬ (q = p ∧ B)) (by simp) hi fun q x => ?_
      rw [(s.on (seg n)).mem_held_released i, not_and]
      rfl
    rw [halloc]
    refine .put ⟨by omega, ?_⟩
    rw [channelOf_add hi.1 hi.2, slotOf_add hi.1 hi.2]
    exact hmem

namespace Inv

/-- `Channel::get` begins on a channel of the process. -/
theorem enter (h : Inv s N) (hidle : ∀ g, s.call g p = .idle)
    (hs : s.enter p n (channelSize * n) = some s') : Inv s' N ∧ s'.alloc = s.alloc := by
  obtain ⟨g, hg, hs⟩ := Option.bind_eq_some_iff.mp hs
  obtain ⟨c, hc, rfl⟩ := Option.map_eq_some_iff.mp hs
  obtain ⟨rfl, hn, hlen⟩ := h.chain_seg hg
  obtain ⟨l, hl⟩ := h.channels n hn
  have hpart := hl.step (a := .get p) trivial hc
  have hword := step_word hl hc
  obtain ⟨-, rfl⟩ : (s.on (seg n)).call p = .idle ∧ (s.on (seg n)).setCall p .getHead = c := by
    simpa [Channel.Sys.step] using hc
  refine ⟨h.moved hn hpart hword (fun q hq => step_call hc hq) ?_, alloc_same rfl⟩
  have hwalk : ((s.store (seg n) ((s.on (seg n)).setCall p .getHead)).setWalk p
      (.get n (channelSize * n))).walk p = .get n (channelSize * n) := Function.update_self _ _ _
  unfold WalkOk
  simp only [hwalk, call_here, Channel.setCall_call]
  refine ⟨trivial, hlen, by simp, rfl, fun g hg => ?_⟩
  rw [call_other hg]
  exact hidle g

theorem exec (h : Inv s N) (hc : Orderly s (.exec p)) (hs : s.exec p = some (e, s')) :
    Inv s' N ∧ Alloc.Step s.alloc e s'.alloc := by
  obtain ⟨n, c, w, hran⟩ := exec_cases h hs
  have hn := h.lt hran.lt
  obtain ⟨l, hl⟩ := h.channels n hn
  rw [hran.eq]
  exact ⟨h.moved hn (hl.step (hc _ (h.seg_mem hran.lt)) hran.step) (step_word hl hran.step)
    (fun q hq => step_call hran.step hq) (hran.walk (h.walks p)), hran.outcome.refines h hn⟩

/-- The pool of a process grows by at most one channel. -/
theorem grew {m : Mem} {chain : Pid → List ChannelSeg} {N' : ℕ} (h : Inv s N)
    (h' : Inv { s with mem := m, chain } N') (hN : N' = N ∨ N' = N + 1) :
    Alloc.Step s.alloc (.grew p) ({ s with mem := m, chain } : Sys).alloc := by
  have hcap : ({ s with mem := m, chain } : Sys).alloc.cap = s.alloc.cap ∨
      ({ s with mem := m, chain } : Sys).alloc.cap = s.alloc.cap + channelSize := by
    rw [h.cap, h'.cap]
    rcases hN with rfl | rfl
    · exact .inl rfl
    · exact .inr (Nat.mul_succ _ _)
  exact Alloc.Step.grew (p := p) hcap

theorem next {key : ℕ → ℤ} {fuel : ℕ} (h : Inv s N) (hc : Orderly s (.next p key fuel))
    (hs : s.next p key fuel = some (e, s')) :
    (∃ N', Inv s' N') ∧ Alloc.Step s.alloc e s'.alloc := by
  have hok := h.walks p
  unfold Sys.next at hs
  split at hs
  · next n pre hw =>
    simp only [WalkOk, hw] at hok
    obtain ⟨rfl, hlen, hidle⟩ := hok
    split_ifs at hs with hlast
    · obtain ⟨hkey, hroom⟩ := hc ⟨n, _, hw, hlast⟩
      obtain ⟨g, hg, hs⟩ := Option.bind_eq_some_iff.mp hs
      obtain ⟨rfl, -, -⟩ := h.chain_seg hg
      obtain ⟨x, hx, hs⟩ := Option.bind_eq_some_iff.mp hs
      obtain ⟨t, ht, he⟩ := Option.map_eq_some_iff.mp hs
      obtain ⟨rfl, rfl⟩ := Prod.mk.inj he
      obtain ⟨N', hN, h'⟩ := h.grow hlast hkey hroom hx
      obtain ⟨hinv, halloc⟩ := h'.enter hidle ht
      rw [halloc]
      exact ⟨⟨N', hinv⟩, h.grew h' hN⟩
    · obtain ⟨t, ht, he⟩ := Option.map_eq_some_iff.mp hs
      obtain ⟨rfl, rfl⟩ := Prod.mk.inj he
      obtain ⟨hinv, halloc⟩ := h.enter hidle ht
      rw [halloc]
      exact ⟨⟨N, hinv⟩, .quiet⟩
  · cases hs

theorem construct_step {fuel : ℕ} (h : Inv s N) (hs : s.act (.construct p fuel) = some (e, s')) :
    (∃ N', Inv s' N') ∧ Alloc.Step s.alloc e s'.alloc := by
  obtain ⟨hp, hs⟩ := Option.ite_none_right_eq_some.mp hs
  obtain ⟨x, hx, he⟩ := Option.map_eq_some_iff.mp hs
  obtain ⟨rfl, rfl⟩ := Prod.mk.inj he
  obtain ⟨N', hN, h'⟩ := h.construct hp hx
  exact ⟨⟨N', h'⟩, h.grew h' hN⟩

theorem get_step (h : Inv s N) (hs : s.act (.get p) = some (e, s')) :
    Inv s' N ∧ Alloc.Step s.alloc e s'.alloc := by
  obtain ⟨hw, hs⟩ := Option.ite_none_right_eq_some.mp hs
  obtain ⟨t, ht, he⟩ := Option.map_eq_some_iff.mp hs
  obtain ⟨rfl, rfl⟩ := Prod.mk.inj he
  have hidle := h.walks p
  simp only [WalkOk, hw] at hidle
  obtain ⟨hinv, halloc⟩ := h.enter (n := 0) hidle ht
  rw [halloc]
  exact ⟨hinv, .quiet⟩

theorem release_step {index : ℕ} (h : Inv s N) (hs : s.act (.release p index) = some (e, s')) :
    Inv s' N ∧ Alloc.Step s.alloc e s'.alloc := by
  obtain ⟨hw, hs⟩ := Option.ite_none_right_eq_some.mp hs
  obtain ⟨⟨g, slot⟩, hseek, hs⟩ := Option.bind_eq_some_iff.mp hs
  obtain ⟨c, hc, he⟩ := Option.map_eq_some_iff.mp hs
  obtain ⟨rfl, rfl⟩ := Prod.mk.inj he
  have hcall : ((s.on g).call p = .idle ∧ slot ∈ (s.on g).held p) ∧
      (s.on g).setCall p (.releaseHead slot) = c := by
    simpa [Channel.Sys.step] using hc
  obtain ⟨⟨-, hmem⟩, rfl⟩ := hcall
  obtain ⟨hpos, rfl, rfl, hlen⟩ := h.seek_seg hseek hmem
  have hn := h.lt hlen
  obtain ⟨l, hl⟩ := h.channels _ hn
  have hpart := hl.step (a := .release p (slotOf index)) trivial hc
  have hidle := h.walks p
  simp only [WalkOk, hw] at hidle
  refine ⟨h.moved hn hpart (step_word hl hc) (fun q hq => step_call hc hq) ?_, ?_⟩
  · have hwalk : ((s.store (seg (channelOf index)) ((s.on (seg (channelOf index))).setCall p
        (.releaseHead (slotOf index)))).setWalk p (.release index (seg (channelOf index)))).walk p =
        .release index (seg (channelOf index)) := Function.update_self _ _ _
    unfold WalkOk
    simp only [hwalk, call_here, Channel.setCall_call]
    refine ⟨hpos, trivial, hlen, rfl, fun g hg => ?_⟩
    rw [call_other hg]
    exact hidle g
  · rw [alloc_same rfl]
    exact .quiet

theorem hand_step {index : ℕ} (h : Inv s N) (hs : s.act (.hand p q index) = some (e, s')) :
    Inv s' N ∧ Alloc.Step s.alloc e s'.alloc := by
  obtain ⟨⟨g, slot⟩, hseek, hs⟩ := Option.bind_eq_some_iff.mp hs
  obtain ⟨⟨hmem, hrel⟩, hs⟩ := Option.ite_none_right_eq_some.mp hs
  obtain ⟨rfl, rfl⟩ := Prod.mk.inj (Option.some.inj hs)
  obtain ⟨hpos, rfl, rfl, hlen⟩ := h.seek_seg hseek hmem
  have hn := h.lt hlen
  obtain ⟨l, hl⟩ := h.channels _ hn
  set c := handed (s.on (seg (channelOf index))) p q (slotOf index)
  have hself : s.store (seg (channelOf index)) c =
      (s.store (seg (channelOf index)) c).setWalk p (s.walk p) := (setWalk_self _ p).symm
  have hpart := handed_partitioned (q := q) hl hmem hrel
  rw [hself]
  refine ⟨h.moved hn ⟨l, hpart⟩ rfl (fun _ _ => rfl) ?_, ?_⟩
  · refine (h.walks p).frame (Function.update_self _ _ _) (fun g => ?_) le_rfl
    by_cases hg : g = seg (channelOf index)
    · rw [hg, call_here]
      rfl
    · rw [call_other hg]
  · have halloc : ((s.store (seg (channelOf index)) c).setWalk p (s.walk p)).alloc =
        (s.alloc.take p index).give q index := by
      refine Alloc.ext rfl (funext fun r => Set.ext fun k => ?_)
      have hmoved := alloc_moved (s := s) (j := channelOf index) (c := c) (p := p) (w := s.walk p)
        (q := r) (k := k) (fun A r B => (A ∧ ¬ (r = p ∧ B)) ∨ r = q ∧ B) (by simp)
        (slotOf_range index) fun r x => mem_handed _
      rw [channelOf_slotOf hpos] at hmoved
      exact hmoved
    rw [halloc]
    exact .handed ⟨hpos, hmem⟩

theorem step {a : Act} (h : Inv s N) (hc : Orderly s a) (hs : s.act a = some (e, s')) :
    (∃ N', Inv s' N') ∧ Alloc.Step s.alloc e s'.alloc := by
  cases a with
  | construct p fuel => exact h.construct_step hs
  | get p => exact (h.get_step hs).imp_left fun h' => ⟨N, h'⟩
  | release p index => exact (h.release_step hs).imp_left fun h' => ⟨N, h'⟩
  | exec p => exact (h.exec hc hs).imp_left fun h' => ⟨N, h'⟩
  | next p key fuel => exact h.next hc hs
  | hand p q index => exact (h.hand_step hs).imp_left fun h' => ⟨N, h'⟩

end Inv

theorem shows_eq {a : Act} (hs : s.act a = some (e, s')) : s.shows a = e := by
  rw [Sys.shows, hs]
  rfl

theorem inv_of_reachable {x : Sys × List Event}
    (h : (machine.shown Sys.shows).Reachable (fun x a => Orderly x.1 a) x) : ∃ N, Inv x.1 N := by
  refine h.invariant (P := fun x => ∃ N, Inv x.1 N) ?_ ?_
  · rintro ⟨s, es⟩ ⟨⟨content, rfl⟩, -⟩
    exact ⟨0, .start content⟩
  · rintro ⟨s, es⟩ a x' ⟨N, hN⟩ hc hs
    obtain ⟨s', hstep, rfl⟩ := Option.map_eq_some_iff.mp hs
    obtain ⟨⟨e, t⟩, hact, rfl⟩ := Option.map_eq_some_iff.mp hstep
    exact (hN.step hc hact).1

/-- In every interleaving of `Pool::get` and `Pool::release` in any number of processes, with
pools that are made and grow on the way, what the calls show is a trace of the allocator: no
index has two holders, `get` returns a free index, and it passes a channel only when no index
of it is free. No call gets stuck. -/
theorem pool_allocates {x : Sys × List Event}
    (h : (machine.shown Sys.shows).Reachable (fun x a => Orderly x.1 a) x) :
    (∃ a₀, Alloc.spec.init a₀ ∧ Alloc.spec.Trace a₀ x.2 x.1.alloc) ∧ x.1.alloc.Exclusive ∧
    ∀ p, x.1.walk p ≠ .idle → (∀ q, ((x.1.chain q).length + 1) * channelSize < 2 ^ 31) →
      (∃ y, x.1.act (.exec p) = some y) ∨
        ∃ fuel y, x.1.act (.next p (fun n => (poolShmKey + n : ℕ)) fuel) = some y := by
  have hrefines : ∃ a₀, Alloc.spec.init a₀ ∧ Alloc.spec.Trace a₀ x.2 x.1.alloc := by
    refine h.refines (P := fun s => ∃ N, Inv s N) Sys.alloc ?_ ?_ ?_
    · rintro s ⟨content, rfl⟩
      exact ⟨0, .start content⟩
    · rintro s ⟨content, rfl⟩
      refine ⟨(Inv.start content).cap.trans (Nat.mul_zero _), fun p => ?_⟩
      exact Set.eq_empty_of_forall_notMem fun k hk => absurd hk.2 (Finset.notMem_empty _)
    · rintro s a s' ⟨N, hN⟩ hc hs
      obtain ⟨⟨e, t⟩, hact, rfl⟩ := Option.map_eq_some_iff.mp hs
      rw [shows_eq hact]
      exact hN.step hc hact
  obtain ⟨a₀, ⟨hcap, hheld⟩, htrace⟩ := hrefines
  obtain ⟨N, hN⟩ := inv_of_reachable h
  refine ⟨⟨a₀, ⟨hcap, hheld⟩, htrace⟩, ?_, fun p hw hroom => hN.continues hw hroom⟩
  exact htrace.invariant (fun _ _ _ ha hs => ha.step hs) (.empty hheld)

/-- Whether the swap of a `get` has the link it loaded. -/
def current (x : Channel.Sys) (p : Pid) : Bool :=
  match x.call p with
  | .getSwap r newNext => x.address 0 = r → x.address r = newNext
  | _ => true

theorem linkCurrent_of_current {x : Channel.Sys} (h : current x p = true) :
    Channel.LinkCurrent x (.exec p) := by
  intro r newNext hcall
  simp only [current, hcall] at h
  exact of_decide_eq_true h

/-- A test of a step that needs no new channel. -/
def settled (s : Sys) : Act → Bool
  | .exec p => (s.chain p).all fun g => current (s.on g) p
  | .next _ _ _ => false
  | _ => true

theorem orderly_of_settled {a : Act} (h : settled s a = true) : Orderly s a := by
  cases a with
  | exec p => exact fun g hg => linkCurrent_of_current (List.all_eq_true.mp h g hg)
  | next p key fuel => cases h
  | _ => trivial

/-- Two processes get an index at the same time, one swap fails, and the first process puts
back what the second got. -/
def shared : List Act :=
  [.construct 0 1, .construct 1 1, .get 0, .get 1, .exec 0, .exec 1, .exec 0, .exec 1, .exec 0,
    .exec 1, .exec 1, .exec 1, .exec 1, .hand 1 0 2, .release 0 2, .exec 0, .exec 0, .exec 0]

theorem pool_allocates_shared : ∃ (x : Sys × List Event) (a₀ : Alloc),
    .got 0 1 ∈ x.2 ∧ .got 1 2 ∈ x.2 ∧ .put 0 2 ∈ x.2 ∧ Alloc.spec.Trace a₀ x.2 x.1.alloc := by
  obtain ⟨x, hr, hx⟩ := reachable_of_guarded (M := machine.shown Sys.shows)
    (C := fun x a => Orderly x.1 a) (c := fun x a => settled x.1 a) (l := shared)
    (P := fun x => decide (.got 0 1 ∈ x.2 ∧ .got 1 2 ∈ x.2 ∧ .put 0 2 ∈ x.2))
    (fun _ _ => orderly_of_settled)
    (s := (.start fun _ _ => 0, [])) ⟨⟨_, rfl⟩, rfl⟩ (by decide +kernel)
  obtain ⟨⟨a₀, -, htrace⟩, -, -⟩ := pool_allocates hr
  obtain ⟨h1, h2, h3⟩ := of_decide_eq_true hx
  exact ⟨x, a₀, h1, h2, h3, htrace⟩

end ShmSocket.Allocation
