import Mathlib.Order.Interval.Finset.Nat
import Mathlib.Data.Nat.ModEq
import Mathlib.Data.List.Basic

/-! Positions of an unbounded stream stored modulo `n`. A window of fewer than
`n` positions is stored without collisions. -/
namespace CircularWindow
variable {n : ℕ}

/-- Two positions of one window of length `n` with the same image are equal. -/
theorem eq_of_mod_eq {a p q : ℕ} (hp : a ≤ p) (hp' : p < a + n) (hq : a ≤ q) (hq' : q < a + n)
    (h : p % n = q % n) : p = q := by
  have hinj := Nat.mod_injOn_Ico a n
  exact hinj (by simp [hp, hp']) (by simp [hq, hq']) h

theorem add_mod_split (h d : ℕ) (hd : d < n) :
    (h + d) % n = if h % n + d < n then h % n + d else h % n + d - n := by
  rw [Nat.add_mod_eq_ite, Nat.mod_eq_of_lt hd]
  split_ifs <;> omega

/-- The distance between two positions, recovered from their images. -/
theorem distance_eq {h t : ℕ} (hle : h ≤ t) (hlt : t < h + n) :
    (if h % n ≤ t % n then t % n - h % n else t % n + n - h % n) = t - h := by
  have hs := add_mod_split h (t - h) (by omega : t - h < n)
  have hn : h % n < n := Nat.mod_lt _ (by omega)
  rw [Nat.add_sub_cancel' hle] at hs
  split_ifs at hs ⊢ <;> omega

/-- The room that a window of at most `n - 1` positions leaves, from the images of its ends. -/
theorem room_eq {h t : ℕ} (hle : h ≤ t) (hlt : t < h + n) :
    (if t % n < h % n then h % n - t % n - 1 else h % n + n - t % n - 1) = n - 1 - (t - h) := by
  have hd := distance_eq hle hlt
  have hh : h % n < n := Nat.mod_lt _ (by omega)
  have ht : t % n < n := Nat.mod_lt _ (by omega)
  by_cases hlt' : t % n < h % n
  · rw [if_neg (by omega)] at hd
    rw [if_pos hlt']
    omega
  · rw [if_pos (by omega)] at hd
    rw [if_neg hlt']
    omega

/-- A transfer in one piece or two goes round from `pos`. -/
theorem wrap_eq {pos len k : ℕ} (hpos : pos < n) (hlen : len < n) (hk : k < len) :
    (if pos + len < n then pos + k else if k < n - pos then pos + k else k - (n - pos)) =
      (pos + k) % n := by
  rw [add_mod_split pos k (hk.trans hlen), Nat.mod_eq_of_lt hpos]
  split_ifs <;> omega

variable {β : Type*}

/-- The cells hold the entries `lo ≤ q < hi` of `log`, each at its image. -/
def Holds (n : ℕ) (cell : ℕ → β) (log : List β) (lo hi : ℕ) : Prop :=
  ∀ q, lo ≤ q → q < hi → log[q]? = some (cell (q % n))

theorem Holds.sub {cell : ℕ → β} {log : List β} {lo hi lo' hi' : ℕ} (h : Holds n cell log lo hi)
    (hlo : lo ≤ lo') (hhi : hi' ≤ hi) : Holds n cell log lo' hi' :=
  fun q hq hq' => h q (by omega) (by omega)

theorem Holds.append {cell : ℕ → β} {log : List β} {lo hi : ℕ} (h : Holds n cell log lo hi)
    (more : List β) : Holds n cell (log ++ more) lo hi := by
  intro q hq hq'
  have hs := h q hq hq'
  obtain ⟨hlt, _⟩ := List.getElem?_eq_some_iff.mp hs
  rw [List.getElem?_append_left hlt, hs]

/-- Storing at a position of the window outside `lo..hi` keeps what `lo..hi` holds. -/
theorem Holds.update {cell : ℕ → β} {log : List β} {lo hi a p : ℕ} (h : Holds n cell log lo hi)
    (ha : a ≤ lo) (hhi : hi ≤ a + n) (hp : a ≤ p) (hp' : p < a + n) (hout : p < lo ∨ hi ≤ p)
    (v : β) : Holds n (Function.update cell (p % n) v) log lo hi := by
  intro q hq hq'
  have hne : q % n ≠ p % n := by
    intro he
    have := eq_of_mod_eq (by omega) (by omega) hp hp' he
    omega
  rw [Function.update_of_ne hne]
  exact h q hq hq'

/-- Storing the next entry extends what the cells hold by one position. -/
theorem Holds.store {cell : ℕ → β} {log : List β} {lo hi : ℕ} {v : β}
    (h : Holds n cell log lo hi) (hhi : hi < lo + n) (hv : log[hi]? = some v) :
    Holds n (Function.update cell (hi % n) v) log lo (hi + 1) := by
  intro q hq hq'
  by_cases he : q = hi
  · rw [he, Function.update_self, hv]
  · exact h.update le_rfl (by omega) (by omega) hhi (Or.inr le_rfl) v q hq (by omega)

/-- The `k` entries stored from position `p` on. -/
def window (n : ℕ) (cell : ℕ → β) (p k : ℕ) : List β :=
  (List.range k).map fun i => cell ((p + i) % n)

@[simp] theorem window_length (n : ℕ) (cell : ℕ → β) (p k : ℕ) :
    (window n cell p k).length = k := by simp [window]

theorem window_mod (cell : ℕ → β) (p k : ℕ) : window n cell (p % n) k = window n cell p k := by
  simp only [window, Nat.mod_add_mod]

theorem window_append (cell : ℕ → β) (p j k : ℕ) :
    window n cell p (j + k) = window n cell p j ++ window n cell (p + j) k := by
  simp only [window, List.range_add, List.map_append, List.map_map, Function.comp_def,
    Nat.add_assoc]

theorem window_take (cell : ℕ → β) (p : ℕ) {j k : ℕ} (h : j ≤ k) :
    (window n cell p k).take j = window n cell p j := by
  obtain ⟨d, rfl⟩ := Nat.exists_eq_add_of_le h
  rw [window_append, List.take_left' (window_length n cell p j)]

theorem window_drop (cell : ℕ → β) (p : ℕ) {j k : ℕ} (h : j ≤ k) :
    (window n cell p k).drop j = window n cell (p + j) (k - j) := by
  obtain ⟨d, rfl⟩ := Nat.exists_eq_add_of_le h
  rw [window_append, List.drop_left' (window_length n cell p j), Nat.add_sub_cancel_left]

/-- The cells of the positions that they hold, read in order. -/
theorem Holds.window_eq {cell : ℕ → β} {log : List β} {lo hi : ℕ} (h : Holds n cell log lo hi)
    (hlo : lo ≤ hi) : window n cell lo (hi - lo) = (log.take hi).drop lo := by
  apply List.ext_getElem?
  intro i
  by_cases hi' : i < hi - lo
  · have hstored := h (lo + i) (by omega) (by omega)
    rw [List.getElem?_drop, List.getElem?_take_of_lt (by omega), hstored, window,
      List.getElem?_map, List.getElem?_range hi']
    rfl
  · have hshort : ((log.take hi).drop lo).length ≤ i := by
      rw [List.length_drop, List.length_take]
      omega
    rw [List.getElem?_eq_none hshort, List.getElem?_eq_none]
    rw [window_length]
    omega

theorem window_congr {cell cell' : ℕ → β} {p k : ℕ}
    (h : ∀ i < k, cell ((p + i) % n) = cell' ((p + i) % n)) :
    window n cell p k = window n cell' p k := by
  apply List.map_congr_left
  intro i hi
  exact h i (List.mem_range.mp hi)

/-- The cells after `v 0, …, v (k - 1)` are stored from position `p` on. -/
def put (n : ℕ) (cell : ℕ → β) (p : ℕ) (v : ℕ → β) : ℕ → ℕ → β
  | 0 => cell
  | k + 1 => Function.update (put n cell p v k) ((p + k) % n) (v k)

theorem put_mod (cell : ℕ → β) (p : ℕ) (v : ℕ → β) (k : ℕ) :
    put n cell (p % n) v k = put n cell p v k := by
  induction k with
  | zero => rfl
  | succ k ih => rw [put, put, ih, Nat.mod_add_mod]

/-- Stores after each other are the stores of one longer sequence. -/
theorem put_add (cell : ℕ → β) (p : ℕ) (v : ℕ → β) (j k : ℕ) :
    put n cell p v (j + k) = put n (put n cell p v j) (p + j) (fun i => v (j + i)) k := by
  induction k with
  | zero => rfl
  | succ k ih => rw [← Nat.add_assoc, put, put, ih, Nat.add_assoc]

theorem put_congr {cell : ℕ → β} {p : ℕ} {v v' : ℕ → β} {k : ℕ} (h : ∀ i < k, v i = v' i) :
    put n cell p v k = put n cell p v' k := by
  induction k with
  | zero => rfl
  | succ k ih =>
    have hprev := ih fun i hi => h i (Nat.lt_succ_of_lt hi)
    rw [put, put, hprev, h k (Nat.lt_succ_self k)]

/-- Cells that agree below `n` still do after the same stores. -/
theorem put_agree {cell cell' : ℕ → β} {p k : ℕ} {v : ℕ → β} (h : ∀ o < n, cell o = cell' o)
    {o : ℕ} (ho : o < n) : put n cell p v k o = put n cell' p v k o := by
  induction k with
  | zero => exact h o ho
  | succ k ih =>
    rw [put, put, Function.update_apply, Function.update_apply]
    split_ifs
    · rfl
    · exact ih

/-- The cells are fixed by what is stored at the `k` positions and what is elsewhere. -/
theorem eq_put {cell cell' : ℕ → β} {p k : ℕ} {v : ℕ → β} (hk : k ≤ n)
    (hat : ∀ i < k, cell' ((p + i) % n) = v i)
    (hoff : ∀ o, (∀ i < k, o ≠ (p + i) % n) → cell' o = cell o) :
    cell' = put n cell p v k := by
  induction k generalizing cell' with
  | zero => exact funext fun o => hoff o fun i hi => absurd hi (Nat.not_lt_zero i)
  | succ k ih =>
    have hlast := hat k (Nat.lt_succ_self k)
    have hne : ∀ i < k, (p + i) % n ≠ (p + k) % n := by
      intro i hi he
      have := eq_of_mod_eq (a := p) (by omega) (by omega) (by omega) (by omega) he
      omega
    have hrest : Function.update cell' ((p + k) % n) (cell ((p + k) % n)) = put n cell p v k := by
      refine ih (by omega) (fun i hi => ?_) fun o ho => ?_
      · rw [Function.update_of_ne (hne i hi)]
        exact hat i (Nat.lt_succ_of_lt hi)
      · by_cases hok : o = (p + k) % n
        · rw [hok, Function.update_self]
        · rw [Function.update_of_ne hok]
          refine hoff o fun i hi => ?_
          rcases Nat.lt_succ_iff_lt_or_eq.mp hi with hlt | rfl
          · exact ho i hlt
          · exact hok
    rw [put, ← hrest, Function.update_idem, ← hlast, Function.update_eq_self]

theorem put_off {cell : ℕ → β} {p k o : ℕ} {v : ℕ → β} (h : ∀ i < k, o ≠ (p + i) % n) :
    put n cell p v k o = cell o := by
  induction k with
  | zero => rfl
  | succ k ih =>
    rw [put, Function.update_of_ne (h k (Nat.lt_succ_self k))]
    exact ih fun i hi => h i (Nat.lt_succ_of_lt hi)

theorem put_at (cell : ℕ → β) (p : ℕ) {k i : ℕ} (v : ℕ → β) (hk : k ≤ n) (hi : i < k) :
    put n cell p v k ((p + i) % n) = v i := by
  induction k with
  | zero => omega
  | succ k ih =>
    rw [put]
    rcases Nat.lt_succ_iff_lt_or_eq.mp hi with hlt | rfl
    · have hne : (p + i) % n ≠ (p + k) % n := by
        intro he
        have := eq_of_mod_eq (a := p) (by omega) (by omega) (by omega) (by omega) he
        omega
      rw [Function.update_of_ne hne]
      exact ih (by omega) hlt
    · rw [Function.update_self]

/-- Stores right behind a window make it longer. -/
theorem window_put (cell : ℕ → β) (p : ℕ) {k j : ℕ} (v : ℕ → β) (h : k + j ≤ n) :
    window n (put n cell (p + k) v j) p (k + j) = window n cell p k ++ (List.range j).map v := by
  rw [window_append]
  congr 1
  · refine window_congr fun i hi => put_off fun d hd he => ?_
    have := eq_of_mod_eq (a := p) (by omega) (by omega) (by omega) (by omega) he
    omega
  · apply List.map_congr_left
    intro i hi
    exact put_at _ _ v (by omega) (List.mem_range.mp hi)

end CircularWindow
