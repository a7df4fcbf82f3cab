import ShmSocket.Pool.Channel

/-! The pool: a list of channels that grows when every free list is empty. Channel `j`
holds the indices from `j * channelSize + 1` to `(j + 1) * channelSize`. -/
namespace ShmSocket

/-- The channels in the order of their `next` pointers. -/
abbrev Pool := List Address

/-- The key of the next channel is stored behind the free list. -/
def allocNextChannel (a : Address) (key : ℕ) : Address := Function.update a nextChannelIndex key

/-- The loop of `Pool::get` at the channel in front, `pre` indices into the pool. `key`
is the key under which a new channel is made. -/
def poolGetFrom (key pre : ℕ) : Pool → ℕ × Pool
  | [] => (0, [])
  | a :: cs =>
      let (r, a') := channelGet a
      if 0 < r then (pre + r, a' :: cs)
      else
        match cs with
        | [] =>
            let (r', b) := channelGet freshChannel
            (pre + channelSize + r', [allocNextChannel a' key, b])
        | b :: cs =>
            let (i, cs') := poolGetFrom key (pre + channelSize) (b :: cs)
            (i, a' :: cs')

def poolGet (key : ℕ) (cs : Pool) : ℕ × Pool := poolGetFrom key 0 cs

/-- `none` is the null pointer behind the last channel. -/
def poolRelease (index : ℕ) : Pool → Option Pool
  | [] => none
  | a :: cs =>
      if channelSize < index then (poolRelease (index - channelSize) cs).map (a :: ·)
      else some (channelRelease a index :: cs)

/-- The indices of the pool on the free lists `ls` of its channels, in their order. -/
def freeFrom (pre : ℕ) : List (List ℕ) → List ℕ
  | [] => []
  | l :: ls => l.map (pre + ·) ++ freeFrom (pre + channelSize) ls

/-- The channel and the slot of an index. -/
def channelOf (index : ℕ) : ℕ := (index - 1) / channelSize
def slotOf (index : ℕ) : ℕ := (index - 1) % channelSize + 1

theorem channelSize_pos : 0 < channelSize := by
  rw [channelSize_eq]
  omega

theorem FreeList.allocNextChannel {a : Address} {l : List ℕ} (h : FreeList a l) (key : ℕ) :
    FreeList (allocNextChannel a key) l := by
  have hnot : nextChannelIndex ∉ l := by
    intro hi
    have hle := h.le _ hi
    unfold nextChannelIndex at hle
    omega
  refine ⟨?_, h.le⟩
  have hzero : ShmSocket.allocNextChannel a key 0 = a 0 :=
    Function.update_of_ne (by unfold nextChannelIndex; omega) _ _
  rw [hzero]
  exact h.linked.update hnot key

/-- A new channel gives its first index and keeps the others. -/
theorem freshChannel_get :
    (channelGet freshChannel).1 = 1 ∧
      FreeList (channelGet freshChannel).2 (List.range' 2 (channelSize - 1)) := by
  have hlist := init_freeList fun _ => 0
  have hsplit : List.range' 1 channelSize = 1 :: List.range' 2 (channelSize - 1) := by
    obtain ⟨n, hn⟩ := Nat.exists_eq_add_of_lt channelSize_pos
    rw [hn]
    rfl
  rw [hsplit] at hlist
  exact hlist.get_cons

section loop
variable {key pre : ℕ} {a b : Address} {cs : Pool}

theorem poolGetFrom_hit (h : 0 < (channelGet a).1) :
    poolGetFrom key pre (a :: cs) = (pre + (channelGet a).1, (channelGet a).2 :: cs) := by
  rw [poolGetFrom]
  exact if_pos h

theorem poolGetFrom_grow (h : FreeList a []) :
    poolGetFrom key pre [a] = (pre + channelSize + (channelGet freshChannel).1,
      [allocNextChannel a key, (channelGet freshChannel).2]) := by
  rw [poolGetFrom, h.get_nil]
  exact if_neg (lt_irrefl 0)

theorem poolGetFrom_next (h : FreeList a []) :
    poolGetFrom key pre (a :: b :: cs) =
      ((poolGetFrom key (pre + channelSize) (b :: cs)).1,
        a :: (poolGetFrom key (pre + channelSize) (b :: cs)).2) := by
  rw [poolGetFrom, h.get_nil]
  exact if_neg (lt_irrefl 0)

end loop

theorem freeFrom_fresh (pre : ℕ) :
    (pre + 1) :: freeFrom pre [List.range' 2 (channelSize - 1)] =
      List.range' (pre + 1) channelSize := by
  have hsucc : channelSize - 1 + 1 = channelSize := Nat.sub_add_cancel channelSize_pos
  have hcons : List.range' (pre + 1) (channelSize - 1 + 1) =
      (pre + 1) :: List.range' (pre + 1 + 1) (channelSize - 1) := List.range'_succ
  rw [hsucc] at hcons
  rw [hcons, freeFrom, freeFrom, List.append_nil, List.map_add_range', Nat.add_assoc]

/-- The invariant of the loop of `Pool::get`: the index it returns and the indices left
free are those that were free and those of the channel it made, if any. -/
structure Taken (pre : ℕ) (cs : Pool) (ls : List (List ℕ)) (index : ℕ) (cs' : Pool)
    (ls' : List (List ℕ)) : Prop where
  lists : List.Forall₂ FreeList cs' ls'
  grows : cs.length ≤ cs'.length
  free : (index :: freeFrom pre ls').Perm (freeFrom pre ls ++
    List.range' (pre + channelSize * cs.length + 1) (channelSize * (cs'.length - cs.length)))

theorem Taken.skip {pre index : ℕ} {cs cs' : Pool} {ls ls' : List (List ℕ)} {a : Address}
    (h : Taken (pre + channelSize) cs ls index cs' ls') (ha : FreeList a []) :
    Taken pre (a :: cs) ([] :: ls) index (a :: cs') ([] :: ls') where
  lists := .cons ha h.lists
  grows := Nat.succ_le_succ h.grows
  free := by
    have hlen : (a :: cs').length - (a :: cs).length = cs'.length - cs.length := by simp
    have hpre : pre + channelSize * (a :: cs).length + 1 =
        pre + channelSize + channelSize * cs.length + 1 := by
      rw [List.length_cons, Nat.mul_succ]
      omega
    rw [hlen, hpre]
    exact h.free

theorem freeFrom_append (pre : ℕ) (ls ls' : List (List ℕ)) :
    freeFrom pre (ls ++ ls') = freeFrom pre ls ++ freeFrom (pre + channelSize * ls.length) ls' := by
  induction ls generalizing pre with
  | nil => rfl
  | cons l ls ih =>
    have hpre : pre + channelSize + channelSize * ls.length =
        pre + channelSize * (l :: ls).length := by
      rw [List.length_cons, Nat.mul_succ]
      omega
    rw [List.cons_append, freeFrom, freeFrom, ih, hpre, List.append_assoc]

theorem freeList_at {cs : Pool} {ls : List (List ℕ)} {j : ℕ} {a : Address}
    (h : List.Forall₂ FreeList cs ls) (ha : cs[j]? = some a) :
    ∃ l, ls[j]? = some l ∧ FreeList a l := by
  induction h generalizing j with
  | nil => cases ha
  | @cons b l cs ls hb _ ih =>
    cases j with
    | zero =>
      obtain rfl := Option.some.inj ha
      exact ⟨l, rfl, hb⟩
    | succ j => exact ih ha

theorem mem_freeFrom {pre i j : ℕ} {ls : List (List ℕ)} {l : List ℕ} (hl : ls[j]? = some l)
    (hi : i ∈ l) : pre + channelSize * j + i ∈ freeFrom pre ls := by
  induction ls generalizing pre j with
  | nil => cases hl
  | cons l' ls ih =>
    cases j with
    | zero =>
      obtain rfl := Option.some.inj hl
      exact List.mem_append_left _ (List.mem_map_of_mem hi)
    | succ j =>
      have hpre : pre + channelSize * (j + 1) = pre + channelSize + channelSize * j := by
        rw [Nat.mul_succ]
        omega
      rw [hpre]
      exact List.mem_append_right _ (ih hl)

/-- The free indices of channels lie in the ranges of the channels. -/
theorem freeFrom_range {pre k : ℕ} {cs : Pool} {ls : List (List ℕ)}
    (h : List.Forall₂ FreeList cs ls) (hk : k ∈ freeFrom pre ls) :
    pre < k ∧ k ≤ pre + channelSize * cs.length := by
  induction h generalizing pre with
  | nil => cases hk
  | @cons a l cs ls ha hrest ih =>
    rw [List.length_cons, Nat.mul_succ]
    rcases List.mem_append.mp hk with hk | hk
    · obtain ⟨i, hi, rfl⟩ := List.mem_map.mp hk
      have hpos := ha.pos hi
      have hle := ha.le i hi
      omega
    · have := ih hk
      omega

/-- The indices that a channel behind the others offers when it is made. -/
theorem freeFrom_created (pre : ℕ) (ls : List (List ℕ)) :
    freeFrom pre (ls ++ [List.range' 1 channelSize]) =
      freeFrom pre ls ++ List.range' (pre + channelSize * ls.length + 1) channelSize := by
  rw [freeFrom_append, freeFrom, freeFrom, List.append_nil, List.map_add_range']

/-- An index taken from a pool that a new channel has just been added to. -/
theorem Taken.of_created {pre r : ℕ} {cs cs' : Pool} {ls ls' : List (List ℕ)} {b : Address}
    (h : Taken pre (cs ++ [b]) (ls ++ [List.range' 1 channelSize]) r cs' ls')
    (hlen : ls.length = cs.length) : Taken pre cs ls r cs' ls' := by
  obtain ⟨hlists, hgrows, hfree⟩ := h
  rw [List.length_append, List.length_singleton] at hgrows hfree
  refine ⟨hlists, by omega, ?_⟩
  have hsize : channelSize * (cs'.length - cs.length) =
      channelSize + channelSize * (cs'.length - (cs.length + 1)) := by
    have hmore : cs'.length - cs.length = cs'.length - (cs.length + 1) + 1 := by omega
    rw [hmore, Nat.mul_succ, Nat.add_comm]
  have hstart : pre + channelSize * (cs.length + 1) + 1 =
      pre + channelSize * cs.length + 1 + channelSize := by
    rw [Nat.mul_succ]
    omega
  rw [hstart, freeFrom_created, hlen, List.append_assoc, List.range'_append_1] at hfree
  rw [hsize]
  exact hfree

theorem Taken.of_length {pre r : ℕ} {cs cs₀ cs' : Pool} {ls ls' : List (List ℕ)}
    (h : Taken pre cs ls r cs' ls') (hlen : cs.length = cs₀.length) : Taken pre cs₀ ls r cs' ls' :=
  ⟨h.lists, hlen ▸ h.grows, hlen ▸ h.free⟩

theorem poolGetFrom_taken (key : ℕ) {cs : Pool} {ls : List (List ℕ)} (pre : ℕ)
    (h : List.Forall₂ FreeList cs ls) (hne : cs ≠ []) :
    ∃ ls', Taken pre cs ls (poolGetFrom key pre cs).1 (poolGetFrom key pre cs).2 ls' := by
  induction h generalizing pre with
  | nil => exact absurd rfl hne
  | @cons a l cs ls ha hrest ih =>
    cases l with
    | cons i l =>
      obtain ⟨hget, hlist⟩ := ha.get_cons
      have hpos : 0 < (channelGet a).1 := hget ▸ ha.pos List.mem_cons_self
      refine ⟨l :: ls, ?_⟩
      rw [poolGetFrom_hit hpos, hget]
      refine ⟨.cons hlist hrest, le_rfl, ?_⟩
      simp [freeFrom]
    | nil =>
      cases hrest with
      | nil =>
        obtain ⟨hget, hlist⟩ := freshChannel_get
        refine ⟨[[], List.range' 2 (channelSize - 1)], ?_⟩
        rw [poolGetFrom_grow ha, hget]
        refine ⟨.cons (ha.allocNextChannel key) (.cons hlist .nil), Nat.le_succ 1, ?_⟩
        have hlen : channelSize * ([a].length) = channelSize := Nat.mul_one _
        have hnew : channelSize * ([allocNextChannel a key, (channelGet freshChannel).2].length -
            [a].length) = channelSize := Nat.mul_one _
        rw [hlen, hnew, ← freeFrom_fresh]
        simp [freeFrom]
      | @cons b m cs ls hb hrest =>
        obtain ⟨ls', hls'⟩ := ih (pre + channelSize) (by simp)
        refine ⟨[] :: ls', ?_⟩
        rw [poolGetFrom_next ha]
        exact hls'.skip ha

/-- `Pool::get` takes the first free index. -/
theorem poolGetFrom_first (key : ℕ) {cs : Pool} {ls : List (List ℕ)} {pre x : ℕ} {rest : List ℕ}
    (h : List.Forall₂ FreeList cs ls) (hfree : freeFrom pre ls = x :: rest) :
    (poolGetFrom key pre cs).1 = x ∧ ∃ ls', List.Forall₂ FreeList (poolGetFrom key pre cs).2 ls' ∧
      freeFrom pre ls' = rest ∧ (poolGetFrom key pre cs).2.length = cs.length := by
  induction h generalizing pre with
  | nil => cases hfree
  | @cons a l cs ls ha hrest ih =>
    cases l with
    | cons i l =>
      obtain ⟨hget, hlist⟩ := ha.get_cons
      have hpos : 0 < (channelGet a).1 := hget ▸ ha.pos List.mem_cons_self
      obtain ⟨rfl, rfl⟩ := List.cons.inj hfree
      rw [poolGetFrom_hit hpos, hget]
      exact ⟨rfl, l :: ls, .cons hlist hrest, rfl, rfl⟩
    | nil =>
      cases hrest with
      | nil => cases hfree
      | @cons b m cs ls hb hrest =>
        obtain ⟨hx, ls', hls', hfree', hlen⟩ := ih hfree
        rw [poolGetFrom_next ha]
        exact ⟨hx, [] :: ls', .cons ha hls', hfree', congrArg Nat.succ hlen⟩

/-- With no free index `Pool::get` takes the first one of a new channel. -/
theorem poolGetFrom_created (key : ℕ) {cs : Pool} {ls : List (List ℕ)} {pre : ℕ}
    (h : List.Forall₂ FreeList cs ls) (hne : cs ≠ []) (hfree : freeFrom pre ls = []) :
    (poolGetFrom key pre cs).1 = pre + channelSize * cs.length + 1 ∧
      ∃ ls', List.Forall₂ FreeList (poolGetFrom key pre cs).2 ls' ∧
        freeFrom pre ls' =
          List.range' (pre + channelSize * cs.length + 2) (channelSize - 1) ∧
        (poolGetFrom key pre cs).2.length = cs.length + 1 := by
  induction h generalizing pre with
  | nil => exact absurd rfl hne
  | @cons a l cs ls ha hrest ih =>
    obtain ⟨hl, hfree⟩ := List.append_eq_nil_iff.mp hfree
    obtain rfl := List.map_eq_nil_iff.mp hl
    cases hrest with
    | nil =>
      obtain ⟨hget, hlist⟩ := freshChannel_get
      have hlen : channelSize * [a].length = channelSize := Nat.mul_one _
      rw [poolGetFrom_grow ha, hget, hlen]
      refine ⟨rfl, [[], List.range' 2 (channelSize - 1)],
        .cons (ha.allocNextChannel key) (.cons hlist .nil), ?_, rfl⟩
      simp only [freeFrom, List.map_nil, List.nil_append, List.append_nil, List.map_add_range']
    | @cons b m cs ls hb hrest =>
      obtain ⟨hx, ls', hls', hfree', hlen⟩ := ih (List.cons_ne_nil _ _) hfree
      have hpre : pre + channelSize + channelSize * (b :: cs).length =
          pre + channelSize * (a :: b :: cs).length := by
        rw [List.length_cons, List.length_cons, List.length_cons, Nat.mul_succ _ (cs.length + 1)]
        omega
      rw [poolGetFrom_next ha]
      rw [hpre] at hx hfree'
      exact ⟨hx, [] :: ls', .cons ha hls', hfree', congrArg Nat.succ hlen⟩

/-- Below the first channel an index is its own slot; further on the loop of
`Pool::release` subtracts one channel. -/
theorem channelOf_first {index : ℕ} (hpos : 1 ≤ index) (hle : index ≤ channelSize) :
    channelOf index = 0 ∧ slotOf index = index := by
  have hlt : index - 1 < channelSize := by omega
  refine ⟨Nat.div_eq_of_lt hlt, ?_⟩
  rw [slotOf, Nat.mod_eq_of_lt hlt]
  omega

theorem channelOf_next {index : ℕ} (h : channelSize < index) :
    channelOf index = channelOf (index - channelSize) + 1 ∧
      slotOf index = slotOf (index - channelSize) := by
  have hsplit : index - 1 = index - channelSize - 1 + channelSize := by omega
  unfold channelOf slotOf
  rw [hsplit, Nat.add_div_right _ channelSize_pos, Nat.add_mod_right]
  exact ⟨rfl, rfl⟩

theorem channelOf_add {j r : ℕ} (hpos : 1 ≤ r) (hle : r ≤ channelSize) :
    channelOf (channelSize * j + r) = j := by
  have hsplit : channelSize * j + r - 1 = r - 1 + channelSize * j := by omega
  have hlt : r - 1 < channelSize := by omega
  rw [channelOf, hsplit, Nat.add_mul_div_left _ _ channelSize_pos, Nat.div_eq_of_lt hlt,
    Nat.zero_add]

theorem slotOf_add {j r : ℕ} (hpos : 1 ≤ r) (hle : r ≤ channelSize) :
    slotOf (channelSize * j + r) = r := by
  have hsplit : channelSize * j + r - 1 = r - 1 + channelSize * j := by omega
  have hlt : r - 1 < channelSize := by omega
  rw [slotOf, hsplit, Nat.add_mul_mod_self_left, Nat.mod_eq_of_lt hlt, Nat.sub_add_cancel hpos]

theorem slotOf_range (index : ℕ) : 0 < slotOf index ∧ slotOf index ≤ channelSize :=
  ⟨Nat.succ_pos _, Nat.mod_lt _ channelSize_pos⟩

theorem channelOf_slotOf {index : ℕ} (hpos : 0 < index) :
    channelSize * channelOf index + slotOf index = index := by
  have hsplit := Nat.div_add_mod (index - 1) channelSize
  unfold channelOf slotOf
  omega

/-- `Pool::release` puts an index back into its own slot of its own channel. -/
theorem poolRelease_slot {cs : Pool} {index : ℕ} (hpos : 1 ≤ index)
    (hle : index ≤ channelSize * cs.length) :
    ∃ a, cs[channelOf index]? = some a ∧ poolRelease index cs =
      some (cs.set (channelOf index) (channelRelease a (slotOf index))) := by
  induction cs generalizing index with
  | nil => simp at hle; omega
  | cons a cs ih =>
    rw [poolRelease]
    by_cases hnext : channelSize < index
    · rw [List.length_cons, Nat.mul_succ] at hle
      obtain ⟨b, hb, hrel⟩ := @ih (index - channelSize) (by omega) (by omega)
      obtain ⟨hchannel, hslot⟩ := channelOf_next hnext
      refine ⟨b, ?_, ?_⟩
      · rw [hchannel, List.getElem?_cons_succ]
        exact hb
      · rw [if_pos hnext, hrel, hchannel, hslot, Option.map_some, List.set_cons_succ]
    · obtain ⟨hchannel, hslot⟩ := channelOf_first hpos (Nat.le_of_not_lt hnext)
      refine ⟨a, ?_, ?_⟩
      · rw [hchannel, List.getElem?_cons_zero]
      · rw [if_neg hnext, hchannel, hslot, List.set_cons_zero]

theorem poolRelease_put {cs : Pool} {ls : List (List ℕ)} {index : ℕ} (pre : ℕ)
    (h : List.Forall₂ FreeList cs ls) (hpos : 1 ≤ index) (hle : index ≤ channelSize * cs.length)
    (hnot : pre + index ∉ freeFrom pre ls) :
    ∃ cs' ls', poolRelease index cs = some cs' ∧ List.Forall₂ FreeList cs' ls' ∧
      cs'.length = cs.length ∧ (freeFrom pre ls').Perm ((pre + index) :: freeFrom pre ls) := by
  induction h generalizing index pre with
  | nil => simp at hle; omega
  | @cons a l cs ls ha hrest ih =>
    obtain ⟨hfirst, hlater⟩ := not_or.mp (mt List.mem_append.mpr hnot)
    rw [poolRelease]
    by_cases hnext : channelSize < index
    · rw [List.length_cons, Nat.mul_succ] at hle
      have hindex : pre + channelSize + (index - channelSize) = pre + index := by omega
      obtain ⟨cs', ls', hrel, hlists, hlen, hfree⟩ :=
        @ih (index - channelSize) (pre + channelSize) (by omega) (by omega)
          (by rw [hindex]; exact hlater)
      rw [hindex] at hfree
      refine ⟨a :: cs', l :: ls', ?_, .cons ha hlists, congrArg Nat.succ hlen, ?_⟩
      · rw [if_pos hnext, hrel]
        rfl
      · exact (hfree.append_left _).trans List.perm_middle
    · have hslot : index ∉ l := fun hi => hfirst (List.mem_map_of_mem hi)
      refine ⟨channelRelease a index :: cs, (index :: l) :: ls, if_neg hnext,
        .cons (ha.release hslot hpos (Nat.le_of_not_lt hnext)) hrest, rfl, ?_⟩
      rfl

/-- `Pool::get` takes the head of one channel, which may be the one it made. -/
theorem poolGetFrom_slot (key : ℕ) {cs : Pool} {ls : List (List ℕ)} (pre : ℕ)
    (h : List.Forall₂ FreeList cs ls) (hne : cs ≠ []) :
    ∃ j a, (cs ++ [freshChannel])[j]? = some a ∧
      (poolGetFrom key pre cs).2[j]? = some (channelGet a).2 ∧
      (poolGetFrom key pre cs).1 = pre + channelSize * j + (channelGet a).1 ∧
      1 ≤ (channelGet a).1 ∧ (channelGet a).1 ≤ channelSize := by
  induction h generalizing pre with
  | nil => exact absurd rfl hne
  | @cons a l cs ls ha hrest ih =>
    cases l with
    | cons i l =>
      obtain ⟨hget, -⟩ := ha.get_cons
      have hpos : 0 < (channelGet a).1 := hget ▸ ha.pos List.mem_cons_self
      rw [poolGetFrom_hit hpos]
      exact ⟨0, a, rfl, rfl, rfl, hpos, hget ▸ ha.le i List.mem_cons_self⟩
    | nil =>
      cases hrest with
      | nil =>
        obtain ⟨hget, -⟩ := freshChannel_get
        rw [poolGetFrom_grow ha]
        refine ⟨1, freshChannel, rfl, rfl, ?_, hget.ge, hget ▸ channelSize_pos⟩
        rw [Nat.mul_one]
      | @cons b m cs ls hb hrest =>
        obtain ⟨j, c, hc, hc', hindex, hpos, hle⟩ := ih (pre + channelSize) (by simp)
        rw [poolGetFrom_next ha]
        refine ⟨j + 1, c, hc, hc', ?_, hpos, hle⟩
        rw [hindex, Nat.mul_succ]
        omega

theorem poolGet_slot (key : ℕ) {cs : Pool} {ls : List (List ℕ)}
    (h : List.Forall₂ FreeList cs ls) (hne : cs ≠ []) :
    ∃ a, (cs ++ [freshChannel])[channelOf (poolGet key cs).1]? = some a ∧
      (poolGet key cs).2[channelOf (poolGet key cs).1]? = some (channelGet a).2 ∧
      (channelGet a).1 = slotOf (poolGet key cs).1 := by
  obtain ⟨j, a, ha, ha', hindex, hpos, hle⟩ := poolGetFrom_slot key 0 h hne
  have hchannel := channelOf_add (j := j) hpos hle
  have hslot := slotOf_add (j := j) hpos hle
  rw [Nat.zero_add] at hindex
  unfold poolGet
  rw [hindex, hchannel, hslot]
  exact ⟨a, ha, ha', rfl⟩

end ShmSocket
