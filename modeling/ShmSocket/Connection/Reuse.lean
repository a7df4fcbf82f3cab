import ShmSocket.Connection.RingsInv
import ShmSocket.Lib.StepMachine

/-! Reuse of rings. `close` gives the index of a pair back without looking at its ring,
and `rb_init` resets a ring only when nobody has attached it: the next owner of the index
reads the old bytes exactly when some were left or when someone writes through an old
handle. -/
namespace ShmSocket.Reuse
open StepMachine

/-- `written k` are the bytes accepted by `rb_write` for the pair that owns index `k`,
`got k` those returned by `rb_read` from its ring, both since `k` was handed out. -/
structure Sys where
  rings : Rings
  written : ℕ → List Byte
  got : ℕ → List Byte

/-- Calls of any processes, one at a time. `rbWrite p pair k buf` is a write for `pair`
through the handle of `p` for index `k`. -/
inductive Act where
  | getIdx (p : Pid) (pair : Pair)
  | rbGet (p : Pid) (k : ℕ)
  | rbWrite (p : Pid) (pair : Pair) (k : ℕ) (buf : List Byte)
  | rbRead (p : Pid) (k len : ℕ)
  | close (p : Pid) (pair : Pair)

namespace Sys

/-- A new owner of `k` has not written or read anything. -/
def handOut (s : Sys) (k : ℕ) : Sys :=
  { s with written := Function.update s.written k [], got := Function.update s.got k [] }

/-- `rb_get` is called with an index of the pool, `rb_write` and `rb_read` through a
handle. -/
def step (s : Sys) : Act → Option Sys
  | .getIdx p pair =>
      (s.rings.getIdx p pair).map fun (k, rings) =>
        if s.rings.tables.table (cell p pair) = 0 then { s.handOut k with rings }
        else { s with rings }
  | .rbGet p k =>
      if 1 ≤ k ∧ k ≤ channelSize then some { s with rings := s.rings.rbGet p k } else none
  | .rbWrite p pair k buf =>
      if s.rings.memo (p, k) then
        (s.rings.write p k buf).map fun (ret, rings) =>
          if s.rings.tables.table (cell p pair) = k then
            { s with
              rings
              written := Function.update s.written k (s.written k ++ buf.take ret.toNat) }
          else { s with rings }
      else none
  | .rbRead p k len =>
      if s.rings.memo (p, k) then
        let (bytes, rings) := s.rings.read p k len
        some { s with rings, got := Function.update s.got k (s.got k ++ bytes) }
      else none
  | .close p pair => (s.rings.closeRing p pair).map fun rings => { s with rings }

end Sys

/-- Empty tables, a pool of one channel, and segments that nobody has attached. -/
def machine : StepMachine Sys Act where
  init s := (∃ a : Address, s.rings.tables = ⟨[a.init], fun _ => 0⟩) ∧
    (∀ seg, s.rings.nattch seg = 0) ∧ (∀ h, s.rings.memo h = false) ∧
    (∀ k, s.written k = []) ∧ ∀ k, s.got k = []
  step := Sys.step

/-- `close` finds no unread bytes, and a write for a pair goes to the ring that the pair
has now. -/
def Tidy (s : Sys) : Act → Prop
  | .close p pair => s.rings.pending (cell p pair) = []
  | .rbWrite p pair k _ => s.rings.tables.table (cell p pair) = k
  | _ => True

/-- What was read from the ring of a pair was written for that pair, since it got the
ring. -/
def OwnBytes (s : Sys) : Prop :=
  ∀ c, s.rings.tables.table c ≠ 0 →
    s.got (s.rings.tables.table c) <+: s.written (s.rings.tables.table c)

/-- The unread bytes of a pair are the bytes written for it and not yet read. -/
def Balanced (s : Sys) : Prop :=
  ∀ c, s.rings.tables.table c ≠ 0 →
    s.got (s.rings.tables.table c) ++ s.rings.unread (s.rings.tables.table c) =
      s.written (s.rings.tables.table c)

variable {s s' : Sys} {ls : List (List ℕ)} {p : Pid} {pair : Pair} {k len : ℕ} {buf : List Byte}

/-- A step on the ring of one index. -/
theorem Balanced.of_index (h : Balanced s)
    (htable : s'.rings.tables.table = s.rings.tables.table)
    (hself : s.got k ++ s.rings.unread k = s.written k →
      s'.got k ++ s'.rings.unread k = s'.written k)
    (hother : ∀ j ≠ k, s'.got j = s.got j ∧ s'.rings.unread j = s.rings.unread j ∧
      s'.written j = s.written j) : Balanced s' := by
  intro c hc
  rw [htable] at hc ⊢
  by_cases hk : s.rings.tables.table c = k
  · have hbal := h c hc
    rw [hk] at hbal ⊢
    exact hself hbal
  · obtain ⟨hgot, hunread, hwritten⟩ := hother _ hk
    rw [hgot, hunread, hwritten]
    exact h c hc

/-- A known index is found, or a free one is handed out, whose ring is empty. -/
theorem Balanced.getIdx (h : Balanced s) (hi : RingsInv s.rings ls)
    (hs : s.step (.getIdx p pair) = some s') : (∃ ls', RingsInv s'.rings ls') ∧ Balanced s' := by
  obtain ⟨⟨k, rings⟩, hget, rfl⟩ := Option.map_eq_some_iff.mp hs
  obtain ⟨ls', hi', hk, htable, hcase, hring, hnattch, -⟩ := hi.getIdx hget
  have hk0 := hk.ne_zero
  have hunread := RingsInv.unread_congr hring hnattch
  rcases hcase with hold | ⟨hz, hfree⟩
  · have hne : s.rings.tables.table (cell p pair) ≠ 0 := hold.trans_ne hk0
    have hsame : rings.tables.table = s.rings.tables.table := by
      rw [htable, ← hold, Function.update_eq_self]
    simp only [if_neg hne]
    refine ⟨⟨ls', hi'⟩, h.of_index (k := k) hsame (fun hbal => ?_) fun j _ => ?_⟩
    · rw [← hunread] at hbal
      exact hbal
    · exact ⟨rfl, hunread j, rfl⟩
  · simp only [if_pos hz]
    refine ⟨⟨ls', hi'⟩, fun c hc => ?_⟩
    change rings.tables.table c ≠ 0 at hc
    change Function.update s.got k [] (rings.tables.table c) ++
      rings.unread (rings.tables.table c) = Function.update s.written k [] (rings.tables.table c)
    by_cases hcell : c = cell p pair
    · have hck : rings.tables.table c = k := by rw [hcell, htable, Function.update_self]
      rw [hck, Function.update_self, Function.update_self, hunread, hi.idle k hfree]
      rfl
    · have hck : rings.tables.table c = s.rings.tables.table c := by
        rw [htable, Function.update_of_ne hcell]
      have hother : s.rings.tables.table c ≠ k := fun he => hi.not_free (he ▸ hfree)
      rw [hck] at hc ⊢
      rw [Function.update_of_ne hother, Function.update_of_ne hother, hunread]
      exact h c hc

/-- A write through the handle of the ring that the pair has. -/
theorem Balanced.rbWrite (h : Balanced s) (hi : RingsInv s.rings ls)
    (htidy : s.rings.tables.table (cell p pair) = k)
    (hs : s.step (.rbWrite p pair k buf) = some s') :
    (∃ ls', RingsInv s'.rings ls') ∧ Balanced s' := by
  simp only [Sys.step] at hs
  split at hs
  · next hmemo =>
    have hnot : k ∉ freeFrom 0 ls := htidy ▸ hi.not_free
    obtain ⟨rings, hwrite, hi', htables, -, hself, hother⟩ := hi.write hmemo hnot buf
    rw [hwrite, Option.map_some, Option.some.injEq] at hs
    subst hs
    refine ⟨⟨ls, hi'⟩, h.of_index (k := k) (by rw [← htables]) (fun hbal => ?_) fun j hj => ?_⟩
    · change s.got k ++ rings.unread k = Function.update s.written k _ k
      rw [hself, ← List.append_assoc, hbal, Function.update_self, Int.toNat_natCast,
        Nat.min_comm, ← List.take_take, List.take_length]
    · exact ⟨rfl, hother j hj, Function.update_of_ne hj _ _⟩
  · cases hs

/-- A read moves bytes from the ring to what has been read. -/
theorem Balanced.rbRead (h : Balanced s) (hi : RingsInv s.rings ls)
    (hs : s.step (.rbRead p k len) = some s') :
    (∃ ls', RingsInv s'.rings ls') ∧ Balanced s' := by
  simp only [Sys.step] at hs
  split at hs
  · next hmemo =>
    obtain ⟨rings, hread, hi', htables, -, hself, hother⟩ := hi.read hmemo len
    rw [hread, Option.some.injEq] at hs
    subst hs
    refine ⟨⟨ls, hi'⟩, h.of_index (k := k) (by rw [← htables]) (fun hbal => ?_) fun j hj => ?_⟩
    · change Function.update s.got k _ k ++ rings.unread k = s.written k
      rw [Function.update_self, hself, List.append_assoc, List.take_append_drop]
      exact hbal
    · exact ⟨Function.update_of_ne hj _ _, hother j hj, rfl⟩
  · cases hs

/-- A close of a pair without unread bytes. -/
theorem Balanced.close (h : Balanced s) (hi : RingsInv s.rings ls)
    (htidy : s.rings.pending (cell p pair) = []) (hs : s.step (.close p pair) = some s') :
    (∃ ls', RingsInv s'.rings ls') ∧ Balanced s' := by
  obtain ⟨rings, hclose, rfl⟩ := Option.map_eq_some_iff.mp hs
  obtain ⟨ls', hi', htable, hpending⟩ := hi.closeRing hclose htidy
  refine ⟨⟨ls', hi'⟩, fun c hc => ?_⟩
  have hcell : c ≠ cell p pair := by
    rintro rfl
    change rings.tables.table (cell p pair) ≠ 0 at hc
    rw [htable, Function.update_self] at hc
    exact hc rfl
  have hck : rings.tables.table c = s.rings.tables.table c := by
    rw [htable, Function.update_of_ne hcell]
  change rings.tables.table c ≠ 0 at hc
  change s.got (rings.tables.table c) ++ rings.unread (rings.tables.table c) =
    s.written (rings.tables.table c)
  have hunread := hpending c
  rw [Rings.pending, Rings.pending, if_neg hc, hck] at hunread
  rw [hck] at hc ⊢
  rw [if_neg hc] at hunread
  rw [hunread]
  exact h c hc

theorem Balanced.step {a : Act} (h : Balanced s) (hi : RingsInv s.rings ls) (htidy : Tidy s a)
    (hs : s.step a = some s') : (∃ ls', RingsInv s'.rings ls') ∧ Balanced s' := by
  cases a with
  | getIdx p pair => exact h.getIdx hi hs
  | rbWrite p pair k buf => exact h.rbWrite hi htidy hs
  | rbRead p k len => exact h.rbRead hi hs
  | close p pair => exact h.close hi htidy hs
  | rbGet p k =>
    simp only [Sys.step] at hs
    split at hs
    · next hk =>
      cases hs
      obtain ⟨hi', -, htables, hunread⟩ := hi.rbGet (p := p) (k := k) hk
      refine ⟨⟨ls, hi'⟩, h.of_index (k := k) (by rw [← htables]) (fun hbal => ?_) fun j _ => ?_⟩
      · rw [← hunread] at hbal
        exact hbal
      · exact ⟨rfl, hunread j, rfl⟩
    · cases hs

/-- A pair reads only its own bytes as long as every `close` finds its ring empty and
every write goes to the ring that its pair has. -/
theorem own_bytes {s : Sys} (h : machine.Reachable Tidy s) : OwnBytes s := by
  have hinv : (∃ ls, RingsInv s.rings ls) ∧ Balanced s := by
    refine h.invariant (P := fun s => (∃ ls, RingsInv s.rings ls) ∧ Balanced s) ?_ ?_
    · rintro s ⟨⟨a, htables⟩, hnattch, hmemo, -⟩
      refine ⟨⟨_, .start htables hnattch hmemo⟩, fun c hc => ?_⟩
      rw [htables] at hc
      exact absurd rfl hc
    · rintro s a s' ⟨⟨ls, hi⟩, hbal⟩ htidy hs
      exact hbal.step hi htidy hs
  exact fun c hc => ⟨_, hinv.2 c hc⟩

/-- Nothing is used yet. -/
def unused : Sys where
  rings := ⟨⟨[freshChannel], fun _ => 0⟩, fun _ => Ring.zero, fun _ => 0, fun _ => false⟩
  written := fun _ => []
  got := fun _ => []

theorem unused_init : machine.init unused :=
  ⟨⟨fun _ => 0, rfl⟩, fun _ => rfl, fun _ => rfl, fun _ => rfl, fun _ => rfl⟩

/-- Pair (1, 2) writes and reads a byte and closes, and pair (3, 4) gets the index. -/
theorem own_bytes_reuse : ∃ s, s.got 1 = [] ∧ s.rings.tables.table (cell 8 (3, 4)) = 1 ∧
    OwnBytes s := by
  have h0 : machine.Reachable Tidy unused := .init unused_init
  have h1 := h0.step (a := Act.getIdx 7 (1, 2)) trivial rfl
  have h2 := h1.step (a := Act.rbGet 7 1) trivial rfl
  have h3 := h2.step (a := Act.rbWrite 7 (1, 2) 1 [7]) rfl rfl
  have h4 := h3.step (a := Act.rbRead 7 1 1) trivial rfl
  have h5 := h4.step (a := Act.close 7 (1, 2)) rfl rfl
  have h6 := h5.step (a := Act.getIdx 8 (3, 4)) trivial rfl
  exact ⟨_, rfl, rfl, own_bytes h6⟩

/-- Pair (1, 2) writes a byte and closes, and pair (3, 4) gets the index and reads. -/
def leftover : List Act :=
  [.getIdx 7 (1, 2), .rbGet 7 1, .rbWrite 7 (1, 2) 1 [7], .close 7 (1, 2), .getIdx 8 (3, 4),
    .rbGet 8 1, .rbRead 8 1 1]

/-- The ring still holds the byte of pair (1, 2), and pair (3, 4) reads it. -/
theorem foreign_byte : ¬ ∀ s, machine.Reachable Any s → OwnBytes s := by
  intro hall
  have hrun : machine.run unused leftover = some _ := rfl
  have hown := hall _ ⟨unused, unused_init, steps_of_run hrun fun _ _ _ => trivial⟩
  have hpre : [7] <+: ([] : List Byte) := hown (cell 8 (3, 4)) (by decide)
  exact absurd (List.prefix_nil.mp hpre) (List.cons_ne_nil 7 [])

end ShmSocket.Reuse
