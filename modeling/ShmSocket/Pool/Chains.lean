import ShmSocket.Pool.Processes

/-! What `Channel::Channel` and `Pool::get` do when the member `key` of every channel object
that reads it holds the key of the object: the chains of all processes run along the same
segments. -/
namespace ShmSocket.Processes

/-- The segment of the `j`-th channel. -/
def seg (j : ℕ) : ChannelSeg := .shared (poolShmKey + j : ℕ)

/-- The `len` segments from the `n`-th on. -/
def segs (n len : ℕ) : List ChannelSeg := (List.range' n len).map seg

/-- What they hold. -/
def view (m : Mem) (n len : ℕ) : Pool := (List.range' n len).map fun j => m.content (seg j)

theorem seg_inj {i j : ℕ} (h : seg i = seg j) : i = j := by
  have hkey := ChannelSeg.shared.inj h
  omega

theorem channelSeg_seg (p : Pid) (n j : ℕ) : channelSeg p n (poolShmKey + j : ℕ) = seg j := by
  unfold channelSeg poolShmKey
  rw [if_neg (by omega)]
  rfl

theorem segs_succ (n len : ℕ) : segs n (len + 1) = seg n :: segs (n + 1) len := rfl

theorem view_succ (m : Mem) (n len : ℕ) :
    view m n (len + 1) = m.content (seg n) :: view m (n + 1) len := rfl

@[simp] theorem segs_length (n len : ℕ) : (segs n len).length = len := by
  unfold segs
  simp

theorem segs_add (n len len' : ℕ) : segs n (len + len') = segs n len ++ segs (n + len) len' := by
  unfold segs
  rw [← List.map_append, List.range'_append_1]

theorem mem_segs {n len j : ℕ} : seg j ∈ segs n len ↔ n ≤ j ∧ j < n + len := by
  unfold segs
  constructor
  · intro h
    obtain ⟨i, hi, he⟩ := List.mem_map.mp h
    rw [seg_inj he] at hi
    exact List.mem_range'_1.mp hi
  · exact fun h => List.mem_map_of_mem (List.mem_range'_1.mpr h)

theorem segs_nodup (n len : ℕ) : (segs n len).Nodup :=
  List.Nodup.map (fun _ _ => seg_inj) List.nodup_range'

theorem segs_getElem? {n len i : ℕ} (hi : i < len) : (segs n len)[i]? = some (seg (n + i)) := by
  unfold segs
  rw [List.getElem?_map, List.getElem?_range' hi, Nat.one_mul]
  rfl

theorem view_add (m : Mem) (n len len' : ℕ) :
    view m n (len + len') = view m n len ++ view m (n + len) len' := by
  unfold view
  rw [← List.map_append, List.range'_append_1]

theorem view_concat (m : Mem) (n len : ℕ) :
    view m n (len + 1) = view m n len ++ [m.content (seg (n + len))] := view_add m n len 1

@[simp] theorem view_length (m : Mem) (n len : ℕ) : (view m n len).length = len := by
  unfold view
  simp

theorem view_congr {m m' : Mem} {n len : ℕ}
    (h : ∀ j, n ≤ j → j < n + len → m'.content (seg j) = m.content (seg j)) :
    view m' n len = view m n len := by
  refine List.map_congr_left fun j hj => ?_
  obtain ⟨hge, hlt⟩ := List.mem_range'_1.mp hj
  exact h j hge hlt

theorem store_seg_ne {m : Mem} {i j : ℕ} {a : Address} (h : j ≠ i) :
    (m.store (seg i) a).content (seg j) = m.content (seg j) :=
  m.store_of_ne a fun he => h (seg_inj he)

/-- The next-channel word of channel `j`: none, or the key of the next one, which an `int`
index can still reach. -/
def WordOk (j word : ℕ) : Prop :=
  word = 0 ∨ word = poolShmKey + (j + 1) ∧ (j + 2) * channelSize < 2 ^ 31

/-- The first `N` channels exist, and their next-channel words lead along them. The last
word may still lead to a channel that has been removed. -/
structure Pools (m : Mem) (N : ℕ) : Prop where
  attached : ∀ j, m.attached (seg j) = [] ↔ N ≤ j
  words : ∀ j < N, WordOk j (m.content (seg j) nextChannelIndex)
  bound : N * channelSize < 2 ^ 31

theorem WordOk.key {j word : ℕ} (h : WordOk j word) (hne : word ≠ 0) :
    i32 word = (poolShmKey + (j + 1) : ℕ) ∧ (j + 2) * channelSize < 2 ^ 31 := by
  obtain rfl | ⟨rfl, hroom⟩ := h
  · exact absurd rfl hne
  · refine ⟨i32_of_lt ?_, hroom⟩
    rw [channelSize_eq] at hroom
    unfold poolShmKey
    omega

/-- The key that `allocNextChannel` computes from the right one. -/
theorem next_key {j : ℕ} (hroom : (j + 2) * channelSize < 2 ^ 31) :
    u32 ((poolShmKey + j : ℕ) + 1) = poolShmKey + (j + 1) ∧
      i32 (poolShmKey + (j + 1)) = (poolShmKey + (j + 1) : ℕ) := by
  have hlt : poolShmKey + (j + 1) < 2 ^ 31 := by
    rw [channelSize_eq] at hroom
    unfold poolShmKey
    omega
  refine ⟨?_, i32_of_lt hlt⟩
  have hcast : ((poolShmKey + j : ℕ) : ℤ) + 1 = (poolShmKey + (j + 1) : ℕ) := by push_cast; ring
  rw [hcast]
  exact u32_natCast (by omega)

theorem init_word (a : Address) : a.init nextChannelIndex = 0 := Function.update_self _ _ _

/-- The segments that process `p` attaches from the `n`-th on. -/
def Attaches (m m' : Mem) (p : Pid) (n len : ℕ) : Prop :=
  ∀ g q, (m'.attached g).count q =
    (m.attached g).count q + if q = p then (segs n len).count g else 0

theorem Attaches.refl (m : Mem) (p : Pid) (n : ℕ) : Attaches m m p n 0 := by
  intro g q
  simp [segs]

theorem Attaches.trans {m m' m'' : Mem} {p : Pid} {n len len' : ℕ} (h : Attaches m m' p n len)
    (h' : Attaches m' m'' p (n + len) len') : Attaches m m'' p n (len + len') := by
  intro g q
  rw [h' g q, h g q, segs_add, List.count_append]
  split_ifs <;> omega

theorem Attaches.shmat (m : Mem) (p : Pid) (n : ℕ) : Attaches m (m.shmat (seg n) p) p n 1 := by
  intro g q
  change (Function.update m.attached (seg n) (p :: m.attached (seg n)) g).count q =
    (m.attached g).count q + if q = p then [seg n].count g else 0
  by_cases hg : g = seg n
  · rw [hg, Function.update_self, List.count_singleton_self]
    by_cases hq : q = p
    · rw [hq, List.count_cons_self, if_pos rfl]
    · rw [List.count_cons_of_ne (Ne.symm hq), if_neg hq, Nat.add_zero]
  · have hzero : [seg n].count g = 0 := List.count_eq_zero.mpr (by simpa using hg)
    rw [Function.update_of_ne hg, hzero, ite_self, Nat.add_zero]

/-- Only the segment that has been attached gets a first attachment. -/
theorem Attaches.nil_iff {m m' : Mem} {p : Pid} {n len : ℕ} (h : Attaches m m' p n len) (j : ℕ) :
    m'.attached (seg j) = [] ↔ m.attached (seg j) = [] ∧ (j < n ∨ n + len ≤ j) := by
  have hnil : ∀ l : List Pid, l = [] ↔ ∀ q, l.count q = 0 := fun l => by
    rw [List.eq_nil_iff_forall_not_mem]
    exact forall_congr' fun q => List.count_eq_zero.symm
  have hcount : (segs n len).count (seg j) = 0 ↔ j < n ∨ n + len ≤ j := by
    rw [List.count_eq_zero, mem_segs]
    omega
  rw [hnil, hnil, ← hcount]
  constructor
  · intro h0
    refine ⟨fun q => ?_, ?_⟩
    · have := h (seg j) q
      have := h0 q
      omega
    · have hp := h (seg j) p
      rw [if_pos rfl, h0 p] at hp
      omega
  · rintro ⟨h0, hseg⟩ q
    rw [h (seg j) q, h0 q, hseg, ite_self]

/-- Attaching a channel that others have attached. -/
theorem Pools.shmat {m : Mem} {N n : ℕ} (h : Pools m N) (p : Pid) (hn : n < N) :
    Pools (m.shmat (seg n) p) N := by
  refine ⟨fun j => ?_, h.words, h.bound⟩
  rw [(Attaches.shmat m p n).nil_iff, h.attached]
  omega

/-- Making the channel behind the last one. -/
theorem Pools.create {m : Mem} {N : ℕ} (h : Pools m N) (p : Pid) (a : Address)
    (hroom : (N + 1) * channelSize < 2 ^ 31) :
    Pools ((m.shmat (seg N) p).store (seg N) a.init) (N + 1) := by
  refine ⟨fun j => ?_, fun j hj => ?_, hroom⟩
  · rw [Mem.store_attached, (Attaches.shmat m p N).nil_iff, h.attached]
    omega
  · by_cases he : j = N
    · rw [he, Mem.store_here, init_word]
      exact .inl rfl
    · rw [store_seg_ne he]
      exact h.words j (by omega)

/-- What a constructor does: its objects lie along the chain from the `n`-th channel on, and
at most one channel is new, the one behind all others. -/
structure Constructed (m : Mem) (N : ℕ) (p : Pid) (n len : ℕ) (m' : Mem) (N' : ℕ) : Prop where
  pools : Pools m' N'
  attaches : Attaches m m' p n len
  old : ∀ j < N, m'.content (seg j) = m.content (seg j)
  pos : 0 < len
  fits : n + len ≤ N'
  grows : N' = N ∨ N' = N + 1 ∧ n + len = N' ∧ ∃ a : Address, m'.content (seg N) = a.init

theorem construct_spec (p : Pid) {N d n : ℕ} {m : Mem} (h : Pools m N) (hd : N = n + d)
    (hroom : (n + 1) * channelSize < 2 ^ 31) :
    ∃ fuel len m' N', construct p fuel n (poolShmKey + n : ℕ) m = some (segs n len, m') ∧
      Constructed m N p n len m' N' := by
  induction d generalizing n m with
  | zero =>
    obtain rfl : N = n := hd
    have hnone : (m.attached (seg N)).length = 0 :=
      List.length_eq_zero_iff.mpr ((h.attached N).mpr le_rfl)
    refine ⟨1, 1, _, N + 1, ?_, h.create p (m.content (seg N)) hroom, Attaches.shmat m p N,
      fun j hj => store_seg_ne hj.ne, Nat.one_pos, le_rfl, .inr ⟨rfl, rfl, _, Mem.store_here _ _ _⟩⟩
    rw [construct, channelSeg_seg, if_pos hnone]
    rfl
  | succ d ih =>
    have hn : n < N := by omega
    have hsome : ¬(m.attached (seg n)).length = 0 := fun h0 =>
      hn.not_ge ((h.attached n).mp (List.length_eq_zero_iff.mp h0))
    have hattach := h.shmat p hn
    by_cases hword : m.content (seg n) nextChannelIndex = 0
    · refine ⟨1, 1, m.shmat (seg n) p, N, ?_, hattach, Attaches.shmat m p n, fun _ _ => rfl,
        Nat.one_pos, hn, .inl rfl⟩
      rw [construct, channelSeg_seg]
      simp only [if_neg hsome, if_pos hword]
      rfl
    · obtain ⟨hkey, hnext⟩ := (h.words n hn).key hword
      obtain ⟨fuel, len, m', N', hrun, hc⟩ := ih hattach (by omega) hnext
      have hadd : n + (1 + len) = n + 1 + len := by omega
      refine ⟨fuel + 1, 1 + len, m', N', ?_, hc.pools, (Attaches.shmat m p n).trans hc.attaches,
        hc.old, by omega, hadd ▸ hc.fits, hadd ▸ hc.grows⟩
      rw [construct, channelSeg_seg]
      simp only [if_neg hsome, if_neg hword]
      rw [hkey, hrun, segs_add]
      rfl

/-- Storing into a channel and keeping its next-channel word in order. -/
theorem Pools.store {m : Mem} {N n : ℕ} {a : Address} (h : Pools m N)
    (hword : WordOk n (a nextChannelIndex)) : Pools (m.store (seg n) a) N := by
  refine ⟨h.attached, fun j hj => ?_, h.bound⟩
  by_cases he : j = n
  · rw [he, Mem.store_here]
    exact hword
  · rw [store_seg_ne he]
    exact h.words j hj

/-- The member `key` of every channel object holds the key of its channel, and the indices
of one more channel fit an `int`. -/
def KeysKept (key : ℕ → ℤ) (N : ℕ) : Prop :=
  (∀ n, key n = (poolShmKey + n : ℕ)) ∧ (N + 1) * channelSize < 2 ^ 31

/-- What the loop of `Pool::get` does from the `n`-th object on, with `len` objects of the
process and `d` channels there: it takes `r`, and the chain has `more` objects after it. -/
structure Got (m : Mem) (p : Pid) (n len d : ℕ) (ls : List (List ℕ)) (r more : ℕ) (m' : Mem)
    (d' : ℕ) (ls' : List (List ℕ)) : Prop where
  pools : Pools m' (n + d')
  taken : Taken (channelSize * n) (view m n d) ls r (view m' n d') ls'
  attaches : Attaches m m' p (n + len) more
  before : ∀ j < n, m'.content (seg j) = m.content (seg j)
  fits : len + more ≤ d'
  within : channelSize * n < r ∧ r ≤ channelSize * (n + (len + more))

section get
variable {p : Pid} {key : ℕ → ℤ} {n len d r more d' e : ℕ} {m m' : Mem} {ls ls' : List (List ℕ)}

theorem getFrom_hit {fuel pre i : ℕ} {l : List ℕ} {g : ChannelSeg} {gs : List ChannelSeg}
    (ha : FreeList (m.content g) (i :: l)) :
    getFrom p key (fuel + 1) n pre (g :: gs) m =
      some (pre + i, g :: gs, m.store g (channelGet (m.content g)).2) := by
  have hpos : 0 < i := ha.pos List.mem_cons_self
  rw [getFrom]
  simp only [ha.get_cons.1, if_pos hpos]

/-- The loop finds nothing in a channel and goes on. -/
theorem getFrom_pass {fuel pre : ℕ} {g : ChannelSeg} {gs : List ChannelSeg}
    {x : List ChannelSeg × Mem} {y : ℕ × List ChannelSeg × Mem} (ha : FreeList (m.content g) [])
    (hnext : (if gs = [] then grow p fuel n (key n) g m else some (gs, m)) = some x)
    (hloop : getFrom p key fuel (n + 1) (pre + channelSize) x.1 x.2 = some y) :
    getFrom p key (fuel + 1) n pre (g :: gs) m = some (y.1, g :: y.2.1, y.2.2) := by
  rw [getFrom]
  simp only [ha.get_nil, lt_irrefl, if_false, Mem.store_self]
  rw [hnext, Option.bind_some, hloop]
  rfl

theorem got_hit {i : ℕ} {l : List ℕ} (h : Pools m (n + (d + 1)))
    (ha : FreeList (m.content (seg n)) (i :: l)) (hls : List.Forall₂ FreeList (view m (n + 1) d) ls)
    (hlen : len ≤ d) :
    getFrom p key 1 n (channelSize * n) (segs n (len + 1)) m = some (channelSize * n + i,
      segs n (len + 1), m.store (seg n) (channelGet (m.content (seg n))).2) ∧
    Got m p n (len + 1) (d + 1) ((i :: l) :: ls) (channelSize * n + i) 0
      (m.store (seg n) (channelGet (m.content (seg n))).2) (d + 1) (l :: ls) := by
  obtain ⟨hget, hlist⟩ := ha.get_cons
  have hpos : 0 < i := ha.pos List.mem_cons_self
  have hle : i ≤ channelSize := ha.le i List.mem_cons_self
  have hrest : view (m.store (seg n) (channelGet (m.content (seg n))).2) (n + 1) d =
      view m (n + 1) d := view_congr fun j hj _ => store_seg_ne (by omega)
  constructor
  · exact getFrom_hit ha
  · constructor
    · exact h.store (channelGet_word _ ▸ h.words n (by omega))
    · constructor
      · rw [view_succ, hrest, Mem.store_here]
        exact .cons hlist hls
      · rw [view_length, view_length]
      · simp [freeFrom]
    · exact Attaches.refl m p _
    · exact fun j hj => store_seg_ne hj.ne
    · omega
    · refine ⟨by omega, ?_⟩
      have hone : channelSize * (n + 1) ≤ channelSize * (n + (len + 1 + 0)) :=
        Nat.mul_le_mul_left _ (by omega)
      rw [Nat.mul_succ] at hone
      omega

/-- The loop passes an empty channel. -/
theorem Got.skip (h : Got m p (n + 1) len d ls r more m' d' ls')
    (ha : FreeList (m.content (seg n)) []) :
    Got m p n (len + 1) (d + 1) ([] :: ls) r more m' (d' + 1) ([] :: ls') := by
  have hmul : channelSize * (n + 1) = channelSize * n + channelSize := Nat.mul_succ _ _
  have hchain : n + 1 + (len + more) = n + (len + 1 + more) := by omega
  have hpools : n + 1 + d' = n + (d' + 1) := by omega
  have hlen : n + 1 + len = n + (len + 1) := by omega
  refine ⟨hpools ▸ h.pools, ?_, hlen ▸ h.attaches, fun j hj => h.before j (by omega), ?_, ?_⟩
  · rw [view_succ, view_succ, h.before n (Nat.lt_succ_self n)]
    exact (hmul ▸ h.taken).skip ha
  · have := h.fits
    omega
  · obtain ⟨hgt, hle⟩ := h.within
    rw [hchain] at hle
    exact ⟨by omega, hle⟩

/-- `allocNextChannel` on the last object of a process, channel `n` of the pool, which `e`
others follow already. -/
structure Grown (m : Mem) (p : Pid) (n e len : ℕ) (m' : Mem) (e' : ℕ) : Prop where
  pools : Pools m' (n + 1 + e')
  attaches : Attaches m m' p (n + 1) len
  here : m'.content (seg n) = allocNextChannel (m.content (seg n)) (poolShmKey + (n + 1))
  before : ∀ j < n, m'.content (seg j) = m.content (seg j)
  pos : 0 < len
  fits : len ≤ e'
  views : (e' = e ∧ view m' (n + 1) e' = view m (n + 1) e) ∨ (e' = e + 1 ∧ len = e' ∧
    ∃ a : Address, view m' (n + 1) e' = view m (n + 1) e ++ [a.init])

theorem grow_spec {k : ℤ} (h : Pools m (n + 1 + e)) (hk : k = (poolShmKey + n : ℕ))
    (hroom : (n + 1 + e + 1) * channelSize < 2 ^ 31) :
    ∃ fuel len m' e', grow p fuel n k (seg n) m = some (segs (n + 1) len, m') ∧
      Grown m p n e len m' e' := by
  have hnext : (n + 2) * channelSize < 2 ^ 31 :=
    lt_of_le_of_lt (Nat.mul_le_mul_right _ (by omega)) hroom
  obtain ⟨hu, hi⟩ := next_key hnext
  obtain ⟨fuel, len, m₁, N', hrun, hc⟩ := construct_spec p h rfl hnext
  have hn : n < n + 1 + e := by omega
  obtain ⟨e', rfl⟩ : ∃ e', N' = n + 1 + e' := by
    rcases hc.grows with rfl | ⟨rfl, -⟩
    · exact ⟨e, rfl⟩
    · exact ⟨e + 1, rfl⟩
  have hfits := hc.fits
  have hview : ∀ j, n < j → (m₁.store (seg n) (allocNextChannel (m₁.content (seg n))
      (poolShmKey + (n + 1)))).content (seg j) = m₁.content (seg j) := fun j hj =>
    store_seg_ne hj.ne'
  have hold : view (m₁.store (seg n) (allocNextChannel (m₁.content (seg n))
      (poolShmKey + (n + 1)))) (n + 1) e = view m (n + 1) e :=
    view_congr fun j hj hlt => (hview j hj).trans (hc.old j hlt)
  refine ⟨fuel, len, m₁.store (seg n) (allocNextChannel (m₁.content (seg n))
    (poolShmKey + (n + 1))), e', ?_, hc.pools.store ?_, hc.attaches, ?_, fun j hj => ?_, hc.pos,
    by omega, ?_⟩
  · rw [grow, hk, hu, hi, hrun]
    rfl
  · exact .inr ⟨Function.update_self _ _ _, hnext⟩
  · rw [Mem.store_here, hc.old n hn]
  · rw [store_seg_ne hj.ne, hc.old j (by omega)]
  · rcases hc.grows with he | ⟨he, hlen, a, ha⟩
    · obtain rfl : e' = e := by omega
      exact .inl ⟨rfl, hold⟩
    · obtain rfl : e' = e + 1 := by omega
      refine .inr ⟨rfl, by omega, a, ?_⟩
      rw [view_concat, hold, hview _ (by omega), ha]

/-- The loop goes on after `allocNextChannel`. -/
theorem Got.grown {m₁ : Mem} {len₁ e₁ : ℕ} {ls₁ : List (List ℕ)}
    (h : Got m₁ p (n + 1) len₁ e₁ ls₁ r more m' d' ls') (hg : Grown m p n e len₁ m₁ e₁)
    (ha : FreeList (m.content (seg n)) []) (hls : ls.length = e)
    (hls₁ : e₁ = e ∧ ls₁ = ls ∨ e₁ = e + 1 ∧ ls₁ = ls ++ [List.range' 1 channelSize]) :
    Got m p n 1 (e + 1) ([] :: ls) r (len₁ + more) m' (d' + 1) ([] :: ls') := by
  have ha₁ : FreeList (m₁.content (seg n)) [] := hg.here ▸ ha.allocNextChannel _
  obtain ⟨hpools, htaken, hattaches, hbefore, hfits, hwithin⟩ := h.skip ha₁
  have hsum : 1 + (len₁ + more) = len₁ + 1 + more := by omega
  have hnext : n + (len₁ + 1) = n + 1 + len₁ := by omega
  rw [hnext] at hattaches
  refine ⟨hpools, ?_, hg.attaches.trans hattaches, fun j hj => ?_, hsum ▸ hfits, hsum ▸ hwithin⟩
  · have htake : Taken (channelSize * (n + 1)) (view m (n + 1) e) ls r
        (view m' (n + 1) d') ls' := by
      have htaken := h.taken
      rcases hg.views with ⟨he, hv⟩ | ⟨he, -, a, hv⟩
      · rcases hls₁ with ⟨-, rfl⟩ | ⟨he', -⟩
        · rw [hv] at htaken
          exact htaken
        · omega
      · rcases hls₁ with ⟨he', -⟩ | ⟨-, rfl⟩
        · omega
        · rw [hv] at htaken
          exact htaken.of_created (by rw [hls, view_length])
    have hhere : FreeList (m'.content (seg n)) [] :=
      (h.before n (Nat.lt_succ_self n)).symm ▸ ha₁
    exact (htake.skip hhere).of_length rfl
  · rw [hbefore j hj, hg.before j hj]

/-- What the loop finds after `allocNextChannel`: the channels that followed already, or
those and a new one, which is not empty. -/
theorem Grown.lists (hg : Grown m p n e len m' d')
    (hlists : List.Forall₂ FreeList (view m (n + 1) e) ls) (hkey : KeysKept key (n + 1 + e)) :
    ∃ ls₁, (d' = e ∧ ls₁ = ls ∨ d' = e + 1 ∧ ls₁ = ls ++ [List.range' 1 channelSize]) ∧
    List.Forall₂ FreeList (view m' (n + 1) d') ls₁ ∧ ls₁.count [] = ls.count [] ∧
    ((∀ l ∈ ls₁.take len, l = []) → KeysKept key (n + 1 + d')) := by
  rcases hg.views with ⟨he, hv⟩ | ⟨he, hlen, a, hv⟩
  · exact ⟨ls, .inl ⟨he, rfl⟩, hv ▸ hlists, rfl, fun _ => he ▸ hkey⟩
  · have hfull : List.range' 1 channelSize ≠ [] := by
      rw [channelSize_eq]
      exact List.cons_ne_nil _ _
    refine ⟨ls ++ [List.range' 1 channelSize], .inr ⟨he, rfl⟩, ?_, ?_, fun hall => ?_⟩
    · rw [hv]
      exact List.rel_append hlists (.cons (init_freeList a) .nil)
    · rw [List.count_append, List.count_singleton, beq_eq_false_iff_ne.mpr hfull]
      rfl
    · have hlength : ls.length = e := by rw [← hlists.length_eq, view_length]
      rw [List.take_of_length_le (by simp; omega)] at hall
      exact absurd (hall _ (by simp)) hfull

/-- `Pool::get` returns. The induction is on the number of empty channels ahead: the loop
passes one of them in each turn, and a new channel is not empty. -/
theorem getFrom_spec (h : Pools m (n + d)) (hls : List.Forall₂ FreeList (view m n d) ls)
    (hpos : 0 < len) (hlen : len ≤ d) (hkey : (∀ l ∈ ls.take len, l = []) → KeysKept key (n + d)) :
    ∃ fuel r more m' d' ls', getFrom p key fuel n (channelSize * n) (segs n len) m =
        some (r, segs n (len + more), m') ∧ Got m p n len d ls r more m' d' ls' := by
  induction hk : ls.count [] using Nat.strong_induction_on generalizing n len d m ls with
  | _ k ih =>
    obtain ⟨len, rfl⟩ : ∃ l, len = l + 1 := Nat.exists_eq_add_of_le' hpos
    obtain ⟨d, rfl⟩ : ∃ e, d = e + 1 := Nat.exists_eq_add_of_le' (hpos.trans_le hlen)
    have hlen : len ≤ d := Nat.le_of_succ_le_succ hlen
    have hassoc : n + (d + 1) = n + 1 + d := by omega
    rw [view_succ] at hls
    cases hls with
    | @cons _ l _ ls ha hrest =>
      cases l with
      | cons i l =>
        obtain ⟨hrun, hgot⟩ := got_hit (p := p) h ha hrest hlen
        exact ⟨1, _, 0, _, _, _, hrun, hgot⟩
      | nil =>
        rw [hassoc] at h hkey
        have hlength : ls.length = d := by rw [← hrest.length_eq, view_length]
        have hcount : ls.count [] < k := by
          rw [← hk, List.count_cons_self]
          exact Nat.lt_succ_self _
        cases len with
        | zero =>
          have hkept := hkey (by simp)
          obtain ⟨fuel, len₁, m₁, d₁, hgrow, hg⟩ := grow_spec (p := p) h (hkept.1 n) hkept.2
          obtain ⟨ls₁, hls₁, hlists₁, hcount₁, hkey₁⟩ := hg.lists hrest hkept
          obtain ⟨fuel₂, r, more, m', d', ls', hrun, hgot⟩ :=
            ih _ (hcount₁ ▸ hcount) hg.pools hlists₁ hg.pos hg.fits hkey₁ rfl
          refine ⟨max fuel fuel₂ + 1, r, len₁ + more, m', d' + 1, [] :: ls', ?_,
            hgot.grown hg ha hlength hls₁⟩
          have hnext := grow_mono hgrow (le_max_left fuel fuel₂)
          have hloop := getFrom_mono hrun (le_max_right fuel fuel₂)
          have hone : 0 + 1 + (len₁ + more) = len₁ + more + 1 := by omega
          rw [hone]
          exact getFrom_pass ha ((if_pos rfl).trans hnext) hloop
        | succ len =>
          obtain ⟨fuel, r, more, m', d', ls', hrun, hgot⟩ := ih _ hcount h hrest
            len.succ_pos hlen (fun hall => hkey (by simpa using hall)) rfl
          refine ⟨fuel + 1, r, more, m', d' + 1, [] :: ls', ?_, hgot.skip ha⟩
          have hone : len + 1 + 1 + more = len + 1 + more + 1 := by omega
          rw [hone]
          exact getFrom_pass ha (if_neg (List.cons_ne_nil _ _)) hrun

end get

theorem channelRelease_word {a : Address} {index : ℕ} (hle : index ≤ channelSize) :
    channelRelease a index nextChannelIndex = a nextChannelIndex := by
  have hne : nextChannelIndex ≠ index := by
    unfold nextChannelIndex
    omega
  exact (Function.update_of_ne (show nextChannelIndex ≠ 0 by decide) _ _).trans
    (Function.update_of_ne hne _ _)

/-- `Pool::release` along a chain is the release of the pool, as far as the chain goes. -/
theorem release_spec {m m' : Mem} {index n len d : ℕ}
    (h : release index (segs n len) m = some m') (hlen : len ≤ d) :
    poolRelease index (view m n d) = some (view m' n d) ∧ m'.attached = m.attached ∧
      (∀ N, Pools m N → Pools m' N) ∧ ∀ j < n, m'.content (seg j) = m.content (seg j) := by
  induction len generalizing index n d with
  | zero => cases h
  | succ len ih =>
    obtain ⟨d, rfl⟩ : ∃ e, d = e + 1 := Nat.exists_eq_add_of_le' (len.succ_pos.trans_le hlen)
    rw [segs_succ, release] at h
    rw [view_succ, poolRelease]
    split_ifs at h ⊢ with hnext
    · obtain ⟨hrelease, hattached, hpools, hbefore⟩ := ih h (Nat.le_of_succ_le_succ hlen)
      refine ⟨?_, hattached, hpools, fun j hj => hbefore j (by omega)⟩
      rw [hrelease, view_succ, hbefore n n.lt_succ_self]
      rfl
    · cases h
      refine ⟨?_, rfl, fun N hN => ⟨hN.attached, fun j hj => ?_, hN.bound⟩,
        fun j hj => store_seg_ne hj.ne⟩
      · have hrest : view (m.store (seg n) (channelRelease (m.content (seg n)) index)) (n + 1) d =
            view m (n + 1) d := view_congr fun j hj _ => store_seg_ne (by omega)
        rw [view_succ, hrest, Mem.store_here]
      · by_cases he : j = n
        · rw [he, Mem.store_here, channelRelease_word (Nat.le_of_not_lt hnext)]
          exact hN.words n (he ▸ hj)
        · rw [store_seg_ne he]
          exact hN.words j hj

section destroy
variable {m : Mem} {p : Pid} {gs : List ChannelSeg}

theorem detach_count (m : Mem) (g : ChannelSeg) (p : Pid) (g' : ChannelSeg) (q : Pid) :
    ((m.detach g p).attached g').count q =
      (m.attached g').count q - if q = p then [g].count g' else 0 := by
  change (Function.update m.attached g ((m.attached g).erase p) g').count q = _
  by_cases hg : g' = g
  · rw [hg, Function.update_self, List.count_erase, List.count_singleton_self]
    by_cases hq : q = p
    · simp [hq]
    · simp [hq, Ne.symm hq]
  · have hzero : [g].count g' = 0 := List.count_eq_zero.mpr (by simpa using hg)
    rw [Function.update_of_ne hg, hzero, ite_self, Nat.sub_zero]

theorem destroy_count (m : Mem) (p : Pid) (gs : List ChannelSeg) (g : ChannelSeg) (q : Pid) :
    ((destroy p gs m).attached g).count q =
      (m.attached g).count q - if q = p then gs.count g else 0 := by
  induction gs generalizing m with
  | nil => simp [destroy]
  | cons g' gs ih =>
    have hcons : (g' :: gs).count g = [g'].count g + gs.count g := by
      rw [← List.count_append, List.singleton_append]
    rw [destroy, ih, detach_count, hcons]
    split_ifs <;> omega

/-- A segment that stays attached keeps what it holds. -/
theorem destroy_content {g : ChannelSeg} (h : (destroy p gs m).attached g ≠ []) :
    (destroy p gs m).content g = m.content g := by
  induction gs generalizing m with
  | nil => rfl
  | cons g' gs ih =>
    rw [destroy] at h ⊢
    rw [ih h]
    obtain ⟨q, hq⟩ := List.exists_mem_of_ne_nil _ h
    have hpos := List.count_pos_iff.mpr hq
    rw [destroy_count] at hpos
    unfold Mem.detach
    dsimp only
    split_ifs with hleft
    · refine Function.update_of_ne ?_ _ _
      rintro rfl
      have hnone : (m.detach g p).attached g = [] := (Function.update_self _ _ _).trans hleft
      rw [hnone, List.count_nil] at hpos
      omega
    · rfl

end destroy

end ShmSocket.Processes
