import ShmSocket.IndexTable.Table
import ShmSocket.Lib.StepMachine
import Mathlib.Data.Finset.Insert

/-! Any number of calls of `get_idx`: the load of the entry, the call of `pool_get` and
the store are separate steps. Calls on one pair agree exactly as long as none of them
loads the entry while another is between its load of 0 and its store. -/
namespace ShmSocket.GetIdx
open StepMachine

abbrev Tid := ℕ

/-- Where a call of `get_idx` by process `p` is. -/
inductive Thread where
  | idle
  | load (p : Pid) (pair : Pair)
  | alloc (p : Pid) (pair : Pair)
  | store (p : Pid) (pair : Pair) (ret : ℕ)

/-- `inUse` are the indices the pool has given out. `taken` and `returned` record, for
each pair, what its calls got from the pool and what they returned. -/
structure Sys where
  entry : Cell → ℕ
  inUse : Finset ℕ
  thread : Tid → Thread
  taken : Pair → List ℕ
  returned : Pair → List ℕ

/-- `poolGet t k` is the call of `pool_get` by thread `t`, which returns `k`. Other parts
of the program release indices and clear entries. -/
inductive Act where
  | getIdx (t : Tid) (p : Pid) (pair : Pair)
  | exec (t : Tid)
  | poolGet (t : Tid) (k : ℕ)
  | poolRelease (k : ℕ)
  | clearIdx (p : Pid) (pair : Pair)

namespace Sys

def setThread (s : Sys) (t : Tid) (th : Thread) : Sys :=
  { s with thread := Function.update s.thread t th }

/-- Return `k` from a call on `pair`. -/
def ret (s : Sys) (t : Tid) (pair : Pair) (k : ℕ) : Sys where
  entry := s.entry
  inUse := s.inUse
  thread := Function.update s.thread t .idle
  taken := s.taken
  returned := Function.update s.returned pair (s.returned pair ++ [k])

/-- `pool_get` returns an index `k`. -/
def took (s : Sys) (t : Tid) (p : Pid) (pair : Pair) (k : ℕ) : Sys where
  entry := s.entry
  inUse := insert k s.inUse
  thread := Function.update s.thread t (.store p pair k)
  taken := Function.update s.taken pair (s.taken pair ++ [k])
  returned := s.returned

def setEntry (s : Sys) (c : Cell) (k : ℕ) : Sys :=
  { s with entry := Function.update s.entry c k }

/-- `pool_get` is correct: it returns a positive index that is not in use. -/
def step (s : Sys) : Act → Option Sys
  | .getIdx t p pair =>
      match s.thread t with
      | .idle => some (s.setThread t (.load p pair))
      | _ => none
  | .exec t =>
      match s.thread t with
      | .load p pair =>
          if s.entry (cell p pair) = 0 then some (s.setThread t (.alloc p pair))
          else some (s.ret t pair (s.entry (cell p pair)))
      | .store p pair k => some ((s.setEntry (cell p pair) k).ret t pair k)
      | _ => none
  | .poolGet t k =>
      match s.thread t with
      | .alloc p pair => if k ≠ 0 ∧ k ∉ s.inUse then some (s.took t p pair k) else none
      | _ => none
  | .poolRelease k => some { s with inUse := s.inUse.erase k }
  | .clearIdx p pair => some (s.setEntry (cell p pair) 0)

end Sys

/-- No call is in progress and the entry `c` is 0; other entries may hold anything. -/
def machine (c : Cell) : StepMachine Sys Act where
  init s := s.entry c = 0 ∧ (∀ t, s.thread t = .idle) ∧ (∀ pair, s.taken pair = []) ∧
    ∀ pair, s.returned pair = []
  step := Sys.step

/-- Nobody clears the entry of the pair. -/
def NoClear (pair : Pair) : Act → Prop
  | .clearIdx _ pair' => pair' ≠ pair
  | _ => True

/-- The calls on the pair see the table that process `p₀` sees. For a source port other
than 0 they all do. -/
def OneTable (p₀ : Pid) (pair : Pair) : Act → Prop
  | .getIdx _ p pair' => pair' = pair → cell p pair = cell p₀ pair
  | _ => True

/-- A call on the pair between its load of 0 and its store. -/
def Thread.Inside (pair : Pair) : Thread → Prop
  | .alloc _ pair' | .store _ pair' _ => pair' = pair
  | _ => False

/-- When a call on the pair loads its entry, no other one is between load and store. -/
def Alone (pair : Pair) (s : Sys) : Act → Prop
  | .exec t => ∀ p, s.thread t = .load p pair → ∀ t', ¬ (s.thread t').Inside pair
  | _ => True

/-- Nobody clears the entry, and the calls on the pair that share a table do not overlap
between load and store. -/
def Orderly (p₀ : Pid) (pair : Pair) (s : Sys) (a : Act) : Prop :=
  NoClear pair a ∧ OneTable p₀ pair a ∧ Alone pair s a

/-- All finished calls on the pair returned the index that the entry now holds, and it is
the only index that calls on the pair took from the pool. -/
structure Agreement (p₀ : Pid) (pair : Pair) (s : Sys) : Prop where
  same : ∀ k ∈ s.returned pair, ∀ k' ∈ s.returned pair, k = k'
  held : ∀ k ∈ s.returned pair, s.entry (cell p₀ pair) = k
  consumed : (s.taken pair).length ≤ 1
  exact : ∀ k ∈ s.returned pair, s.taken pair = [k]

/-- What a call on the pair has seen. -/
def ThreadOk (p₀ : Pid) (pair : Pair) (s : Sys) : Thread → Prop
  | .load p pair' | .alloc p pair' => pair' = pair → cell p pair = cell p₀ pair
  | .store p pair' k => pair' = pair → cell p pair = cell p₀ pair ∧ k ≠ 0 ∧ s.taken pair = [k]
  | .idle => True

structure Inv (p₀ : Pid) (pair : Pair) (s : Sys) : Prop where
  threads : ∀ t, ThreadOk p₀ pair s (s.thread t)
  alone : ∀ t t', (s.thread t).Inside pair → (s.thread t').Inside pair → t = t'
  stored : s.entry (cell p₀ pair) ≠ 0 → (∀ t, ¬ (s.thread t).Inside pair) ∧
    s.taken pair = [s.entry (cell p₀ pair)] ∧
    ∀ k ∈ s.returned pair, k = s.entry (cell p₀ pair)
  empty : s.entry (cell p₀ pair) = 0 → s.returned pair = [] ∧
    ((∀ t p k, s.thread t ≠ .store p pair k) → s.taken pair = [])

variable {c : Cell} {p₀ p : Pid} {pair pair' : Pair} {s s' : Sys} {a : Act} {t : Tid} {k : ℕ}

/-- What a call outside has seen stays true. -/
theorem ThreadOk.outside {th : Thread} (h : ThreadOk p₀ pair s th) (hout : ¬ th.Inside pair) :
    ThreadOk p₀ pair s' th := by
  cases th with
  | idle => trivial
  | load p pair' => exact h
  | alloc p pair' => exact fun hp => absurd hp hout
  | store p pair' k => exact fun hp => absurd hp hout

/-- What a call has seen depends on the state only through `taken`. -/
theorem ThreadOk.of_taken {th : Thread} (h : ThreadOk p₀ pair s th)
    (htaken : s'.taken pair = s.taken pair) : ThreadOk p₀ pair s' th := by
  cases th with
  | idle => trivial
  | load p pair' => exact h
  | alloc p pair' => exact h
  | store p pair' k =>
    intro hp
    rw [htaken]
    exact h hp

namespace Inv

theorem start (h : (machine (cell p₀ pair)).init s) : Inv p₀ pair s := by
  obtain ⟨hentry, hidle, htaken, hret⟩ := h
  constructor
  · intro t
    rw [hidle t]
    trivial
  · intro t _ ht
    rw [hidle t] at ht
    exact ht.elim
  · exact fun hne => absurd hentry hne
  · exact fun _ => ⟨hret pair, fun _ => htaken pair⟩

/-- A step that leaves the entry, the history of the pair and all calls alone. -/
theorem of_frame (h : Inv p₀ pair s) (hthread : s'.thread = s.thread)
    (hentry : s'.entry (cell p₀ pair) = s.entry (cell p₀ pair)) (htaken : s'.taken = s.taken)
    (hret : s'.returned = s.returned) : Inv p₀ pair s' := by
  constructor
  · intro t
    rw [hthread]
    exact (h.threads t).of_taken (by rw [htaken])
  · rw [hthread]
    exact h.alone
  · rw [hentry, hthread, htaken, hret]
    exact h.stored
  · rw [hentry, hthread, htaken, hret]
    exact h.empty

/-- A step that leaves the entry and the history of the pair alone, and whose thread is
outside before and after it. -/
theorem of_outside (h : Inv p₀ pair s) {th : Thread}
    (hth : s'.thread = Function.update s.thread t th)
    (hentry : s'.entry (cell p₀ pair) = s.entry (cell p₀ pair))
    (htaken : s'.taken pair = s.taken pair) (hret : s'.returned pair = s.returned pair)
    (hold : ¬ (s.thread t).Inside pair) (hnew : ¬ th.Inside pair) (hok : ThreadOk p₀ pair s' th) :
    Inv p₀ pair s' := by
  have hself : s'.thread t = th := by rw [hth, Function.update_self]
  have hother : ∀ {u}, u ≠ t → s'.thread u = s.thread u := fun hu => by
    rw [hth, Function.update_of_ne hu]
  have hinside : ∀ {u}, (s'.thread u).Inside pair → (s.thread u).Inside pair := by
    intro u hu
    by_cases he : u = t
    · rw [he, hself] at hu
      exact absurd hu hnew
    · rwa [hother he] at hu
  constructor
  · rw [hth]
    exact (Function.forall_update_iff s.thread fun _ => ThreadOk p₀ pair s').mpr
      ⟨hok, fun u _ => (h.threads u).of_taken htaken⟩
  · exact fun u u' hu hu' => h.alone u u' (hinside hu) (hinside hu')
  · rw [hentry, htaken, hret]
    intro hne
    obtain ⟨hout, hrest⟩ := h.stored hne
    exact ⟨fun u hu => hout u (hinside hu), hrest⟩
  · rw [hentry, htaken, hret]
    intro hz
    obtain ⟨hnone, hno⟩ := h.empty hz
    refine ⟨hnone, fun hstore => hno fun u p k hu => ?_⟩
    by_cases he : u = t
    · rw [← he, hu] at hold
      exact hold rfl
    · exact hstore u p k ((hother he).trans hu)

/-- A call loads 0 while no other is inside. -/
theorem load_zero (h : Inv p₀ pair s) (hcell : cell p pair = cell p₀ pair)
    (hz : s.entry (cell p₀ pair) = 0) (hout : ∀ u, ¬ (s.thread u).Inside pair) :
    Inv p₀ pair (s.setThread t (.alloc p pair)) := by
  have hother : ∀ {u}, u ≠ t → (s.setThread t (.alloc p pair)).thread u = s.thread u :=
    fun hu => Function.update_of_ne hu _ _
  have honly : ∀ {u}, ((s.setThread t (.alloc p pair)).thread u).Inside pair → u = t := by
    intro u hu
    by_contra he
    rw [hother he] at hu
    exact hout u hu
  constructor
  · exact (Function.forall_update_iff s.thread fun _ => ThreadOk p₀ pair s).mpr
      ⟨fun _ => hcell, fun u _ => h.threads u⟩
  · exact fun u u' hu hu' => (honly hu).trans (honly hu').symm
  · exact fun hne => absurd hz hne
  · intro _
    obtain ⟨hnone, hno⟩ := h.empty hz
    refine ⟨hnone, fun _ => hno fun u p' k hu => ?_⟩
    exact hout u (by rw [hu]; rfl)

/-- Nothing is stored while a call is inside. -/
theorem entry_of_inside (h : Inv p₀ pair s) (hin : (s.thread t).Inside pair) :
    s.entry (cell p₀ pair) = 0 := by
  by_contra hne
  exact (h.stored hne).1 t hin

/-- The one call inside gets an index from the pool. -/
theorem took (h : Inv p₀ pair s) (ht : s.thread t = .alloc p pair) (hk : k ≠ 0) :
    Inv p₀ pair (s.took t p pair k) := by
  have hin : (s.thread t).Inside pair := by
    rw [ht]
    rfl
  have hcell : cell p pair = cell p₀ pair := by
    have hok := h.threads t
    rw [ht] at hok
    exact hok rfl
  have hz := h.entry_of_inside hin
  have hnil : s.taken pair = [] := by
    refine (h.empty hz).2 fun u p' k' hu => ?_
    have hut := h.alone u t (by rw [hu]; rfl) hin
    rw [hut, ht] at hu
    cases hu
  have htaken : (s.took t p pair k).taken pair = [k] := by
    change Function.update s.taken pair (s.taken pair ++ [k]) pair = [k]
    rw [Function.update_self, hnil, List.nil_append]
  have hself : (s.took t p pair k).thread t = .store p pair k := Function.update_self _ _ _
  have hother : ∀ {u}, u ≠ t → (s.took t p pair k).thread u = s.thread u :=
    fun hu => Function.update_of_ne hu _ _
  have honly : ∀ {u}, ((s.took t p pair k).thread u).Inside pair → u = t := by
    intro u hu
    by_contra he
    rw [hother he] at hu
    exact he (h.alone u t hu hin)
  constructor
  · intro u
    by_cases he : u = t
    · rw [he, hself]
      exact fun _ => ⟨hcell, hk, htaken⟩
    · rw [hother he]
      exact (h.threads u).outside fun hu => he (h.alone u t hu hin)
  · exact fun u u' hu hu' => (honly hu).trans (honly hu').symm
  · exact fun hne => absurd hz hne
  · intro _
    exact ⟨(h.empty hz).1, fun hstore => absurd hself (hstore t p k)⟩

/-- The one call inside stores its index and returns it. -/
theorem store (h : Inv p₀ pair s) (ht : s.thread t = .store p pair k) :
    Inv p₀ pair ((s.setEntry (cell p pair) k).ret t pair k) := by
  have hin : (s.thread t).Inside pair := by
    rw [ht]
    rfl
  have hok := h.threads t
  rw [ht] at hok
  obtain ⟨hcell, hk, htaken⟩ := hok rfl
  have hz := h.entry_of_inside hin
  obtain ⟨hnone, -⟩ := h.empty hz
  generalize hs' : (s.setEntry (cell p pair) k).ret t pair k = s'
  have hentry : s'.entry (cell p₀ pair) = k := by
    subst hs'
    change Function.update s.entry (cell p pair) k (cell p₀ pair) = k
    rw [hcell, Function.update_self]
  have htaken' : s'.taken pair = [k] := by
    subst hs'
    exact htaken
  have hret : s'.returned pair = [k] := by
    subst hs'
    change Function.update s.returned pair (s.returned pair ++ [k]) pair = [k]
    rw [Function.update_self, hnone, List.nil_append]
  have hself : s'.thread t = .idle := by
    subst hs'
    exact Function.update_self _ _ _
  have hother : ∀ {u}, u ≠ t → s'.thread u = s.thread u := fun hu => by
    subst hs'
    exact Function.update_of_ne hu _ _
  have hout : ∀ u, ¬ (s'.thread u).Inside pair := by
    intro u hu
    by_cases he : u = t
    · rw [he, hself] at hu
      exact hu
    · rw [hother he] at hu
      exact he (h.alone u t hu hin)
  constructor
  · intro u
    by_cases he : u = t
    · rw [he, hself]
      trivial
    · rw [hother he]
      exact (h.threads u).outside fun hu => he (h.alone u t hu hin)
  · exact fun u _ hu => absurd hu (hout u)
  · rw [hentry, htaken', hret]
    exact fun _ => ⟨hout, rfl, fun _ => List.mem_singleton.mp⟩
  · rw [hentry]
    exact fun he => absurd he hk

/-- A call loads an index and returns it. -/
theorem load_found (h : Inv p₀ pair s) (hk : s.entry (cell p₀ pair) ≠ 0) :
    Inv p₀ pair (s.ret t pair (s.entry (cell p₀ pair))) := by
  obtain ⟨hout, htaken, hret⟩ := h.stored hk
  generalize hs' : s.ret t pair (s.entry (cell p₀ pair)) = s'
  have hentry : s'.entry = s.entry := by rw [← hs', Sys.ret]
  have hthread : s'.thread = Function.update s.thread t .idle := by rw [← hs', Sys.ret]
  have htaken' : s'.taken = s.taken := by rw [← hs', Sys.ret]
  have hret' : s'.returned pair = s.returned pair ++ [s.entry (cell p₀ pair)] := by
    rw [← hs', Sys.ret]
    exact Function.update_self _ _ _
  have hout' : ∀ u, ¬ (s'.thread u).Inside pair := by
    rw [hthread]
    exact (Function.forall_update_iff s.thread fun _ th => ¬ th.Inside pair).mpr
      ⟨id, fun u _ => hout u⟩
  constructor
  · rw [hthread]
    exact (Function.forall_update_iff s.thread fun _ => ThreadOk p₀ pair s').mpr
      ⟨trivial, fun u _ => (h.threads u).outside (hout u)⟩
  · exact fun u _ hu => absurd hu (hout' u)
  · rw [hentry, htaken', hret']
    intro _
    refine ⟨hout', htaken, fun k' hk' => ?_⟩
    rcases List.mem_append.mp hk' with hk' | hk'
    · exact hret k' hk'
    · exact List.mem_singleton.mp hk'
  · rw [hentry]
    exact fun hz => absurd hz hk

theorem step (h : Inv p₀ pair s) (hclear : NoClear pair a) (htable : OneTable p₀ pair a)
    (halone : Alone pair s a) (hs : s.step a = some s') : Inv p₀ pair s' := by
  cases a with
  | getIdx t p pair' =>
    cases ht : s.thread t <;> simp only [Sys.step, ht, Option.some.injEq, reduceCtorEq] at hs
    subst hs
    refine h.of_outside rfl rfl rfl rfl ?_ id ?_
    · rw [ht]
      exact id
    · exact htable
  | exec t =>
    cases ht : s.thread t with
    | idle => simp [Sys.step, ht] at hs
    | alloc p pair' => simp [Sys.step, ht] at hs
    | load p pair' =>
      simp only [Sys.step, ht] at hs
      by_cases hp : pair' = pair
      · subst hp
        have hcell : cell p pair' = cell p₀ pair' := by
          have hok := h.threads t
          rw [ht] at hok
          exact hok rfl
        rw [hcell] at hs
        split at hs
        · next hz =>
          cases hs
          exact h.load_zero hcell hz (halone p ht)
        · next hne =>
          cases hs
          exact h.load_found hne
      · have hold : ¬ (s.thread t).Inside pair := by
          rw [ht]
          exact id
        split at hs
        · cases hs
          exact h.of_outside rfl rfl rfl rfl hold hp fun he => absurd he hp
        · cases hs
          have hret := Function.update_of_ne (Ne.symm hp)
            (s.returned pair' ++ [s.entry (cell p pair')]) s.returned
          exact h.of_outside rfl rfl rfl hret hold id trivial
    | store p pair' k =>
      simp only [Sys.step, ht, Option.some.injEq] at hs
      subst hs
      by_cases hp : pair' = pair
      · subst hp
        exact h.store ht
      · have hcell : cell p₀ pair ≠ cell p pair' := fun he => hp (cell_pair he).symm
        have hold : ¬ (s.thread t).Inside pair := by
          rw [ht]
          exact hp
        have hentry := Function.update_of_ne hcell k s.entry
        have hret := Function.update_of_ne (Ne.symm hp) (s.returned pair' ++ [k]) s.returned
        exact h.of_outside rfl hentry rfl hret hold id trivial
  | poolGet t k =>
    cases ht : s.thread t with
    | idle => simp [Sys.step, ht] at hs
    | load p pair' => simp [Sys.step, ht] at hs
    | store p pair' k => simp [Sys.step, ht] at hs
    | alloc p pair' =>
      obtain ⟨⟨hk, -⟩, rfl⟩ : (k ≠ 0 ∧ k ∉ s.inUse) ∧ s.took t p pair' k = s' := by
        simpa [Sys.step, ht] using hs
      by_cases hp : pair' = pair
      · subst hp
        exact h.took ht hk
      · have hold : ¬ (s.thread t).Inside pair := by
          rw [ht]
          exact hp
        have htaken := Function.update_of_ne (Ne.symm hp) (s.taken pair' ++ [k]) s.taken
        exact h.of_outside rfl rfl htaken rfl hold hp fun he => absurd he hp
  | poolRelease k =>
    cases hs
    exact h.of_frame rfl rfl rfl rfl
  | clearIdx p pair' =>
    cases hs
    have hcell : cell p₀ pair ≠ cell p pair' := fun he => hclear (cell_pair he).symm
    exact h.of_frame rfl (Function.update_of_ne hcell 0 s.entry) rfl rfl

/-- What the invariant says about finished calls. -/
theorem agreement (h : Inv p₀ pair s) : Agreement p₀ pair s := by
  have hheld : ∀ k ∈ s.returned pair, s.entry (cell p₀ pair) = k ∧ s.taken pair = [k] := by
    intro k hk
    by_cases hz : s.entry (cell p₀ pair) = 0
    · rw [(h.empty hz).1] at hk
      exact absurd hk List.not_mem_nil
    · obtain ⟨-, htaken, hret⟩ := h.stored hz
      exact ⟨(hret k hk).symm, by rw [htaken, hret k hk]⟩
  constructor
  · exact fun k hk k' hk' => (hheld k hk).1.symm.trans (hheld k' hk').1
  · exact fun k hk => (hheld k hk).1
  · by_cases hz : s.entry (cell p₀ pair) = 0
    · by_cases hstore : ∃ t p k, s.thread t = .store p pair k
      · obtain ⟨t, p, k, ht⟩ := hstore
        have hok := h.threads t
        rw [ht] at hok
        rw [(hok rfl).2.2, List.length_singleton]
      · rw [(h.empty hz).2 fun t p k ht => hstore ⟨t, p, k, ht⟩]
        exact Nat.zero_le 1
    · rw [(h.stored hz).2.1, List.length_singleton]
  · exact fun k hk => (hheld k hk).2

end Inv

/-- All calls on a pair get one index as long as none loads the entry while another is
between its load of 0 and its store. -/
theorem agreement_of_orderly {p₀ : Pid} {pair : Pair} {s : Sys}
    (h : (machine (cell p₀ pair)).Reachable (Orderly p₀ pair) s) : Agreement p₀ pair s := by
  have hinv : Inv p₀ pair s := by
    refine h.invariant (fun s hi => .start hi) ?_
    rintro s a s' hi ⟨hclear, htable, halone⟩ hs
    exact hi.step hclear htable halone hs
  exact hinv.agreement

theorem orderly_exec (h : ∀ u ≠ t, s.thread u = .idle) : Orderly p₀ pair s (.exec t) := by
  refine ⟨trivial, trivial, fun p ht u hu => ?_⟩
  by_cases he : u = t
  · rw [he, ht] at hu
    exact hu
  · rw [h u he] at hu
    exact hu

/-- A call begins. -/
theorem solo_call (hcell : cell p pair = cell p₀ pair) (ht : s.thread t = .idle) :
    (machine c).Steps (Orderly p₀ pair) s (s.setThread t (.load p pair)) := by
  refine Steps.single (a := .getIdx t p pair) ⟨trivial, fun _ => hcell, trivial⟩ ?_
  simp only [machine, Sys.step, ht]

theorem update_idle (hidle : ∀ u, s.thread u = .idle) (th : Thread) :
    ∀ u ≠ t, Function.update s.thread t th u = .idle :=
  fun u hu => (Function.update_of_ne hu th s.thread).trans (hidle u)

/-- A first call that runs alone takes an index and stores it. -/
theorem solo_alloc (hcell : cell p pair = cell p₀ pair) (hidle : ∀ u, s.thread u = .idle)
    (hz : s.entry (cell p pair) = 0) (hk : k ≠ 0 ∧ k ∉ s.inUse) (t : Tid) :
    (machine c).Steps (Orderly p₀ pair) s
      (((s.took t p pair k).setEntry (cell p pair) k).ret t pair k) := by
  have h1 : (machine c).Steps (Orderly p₀ pair) s (s.setThread t (.load p pair)) :=
    solo_call hcell (hidle t)
  have h2 : (machine c).Steps (Orderly p₀ pair) (s.setThread t (.load p pair))
      (s.setThread t (.alloc p pair)) := by
    refine Steps.single (a := .exec t) (orderly_exec (update_idle hidle _)) ?_
    simp only [machine, Sys.step, Sys.setThread, Function.update_self, Function.update_idem]
    exact if_pos hz
  have h3 : (machine c).Steps (Orderly p₀ pair) (s.setThread t (.alloc p pair))
      (s.took t p pair k) := by
    refine Steps.single (a := .poolGet t k) ⟨trivial, trivial, trivial⟩ ?_
    simp only [machine, Sys.step, Sys.setThread, Sys.took, Function.update_self,
      Function.update_idem]
    exact if_pos hk
  refine h1.trans (h2.trans (h3.trans
    (Steps.single (a := .exec t) (orderly_exec (update_idle hidle _)) ?_)))
  simp only [machine, Sys.step, Sys.took, Function.update_self]

/-- A later call that runs alone returns what the entry holds. -/
theorem solo_found (hcell : cell p pair = cell p₀ pair) (hidle : ∀ u, s.thread u = .idle)
    (hne : s.entry (cell p pair) ≠ 0) (t : Tid) :
    (machine c).Steps (Orderly p₀ pair) s (s.ret t pair (s.entry (cell p pair))) := by
  have h1 : (machine c).Steps (Orderly p₀ pair) s (s.setThread t (.load p pair)) :=
    solo_call hcell (hidle t)
  refine h1.trans (Steps.single (a := .exec t) (orderly_exec (update_idle hidle _)) ?_)
  simp only [machine, Sys.step, Sys.setThread, Sys.ret, Function.update_self, Function.update_idem]
  exact if_neg hne

/-- Empty tables and an unused pool. -/
def fresh : Sys := ⟨fun _ => 0, ∅, fun _ => .idle, fun _ => [], fun _ => []⟩

/-- Processes 10 and 11 call `get_idx(1, 2)` one after the other. -/
def oneAfterOther : Sys :=
  (((fresh.took 0 10 (1, 2) 1).setEntry (cell 10 (1, 2)) 1).ret 0 (1, 2) 1).ret 1 (1, 2) 1

theorem agreement_oneAfterOther :
    oneAfterOther.returned (1, 2) = [1, 1] ∧ Agreement 10 (1, 2) oneAfterOther := by
  let s1 := ((fresh.took 0 10 (1, 2) 1).setEntry (cell 10 (1, 2)) 1).ret 0 (1, 2) 1
  have hidle : ∀ u, s1.thread u = .idle := by
    intro u
    by_cases hu : u = 0
    · rw [hu]
      rfl
    · change Function.update (Function.update fresh.thread 0 _) 0 _ u = _
      rw [Function.update_of_ne hu, Function.update_of_ne hu]
      rfl
  have h1 : (machine (cell 10 (1, 2))).Steps (Orderly 10 (1, 2)) fresh s1 :=
    solo_alloc rfl (fun _ => rfl) rfl (by decide) 0
  have h2 : (machine (cell 10 (1, 2))).Steps (Orderly 10 (1, 2)) s1 oneAfterOther :=
    solo_found (p := 11) (cell_shared 11 10 (by decide)) hidle (by decide) 1
  refine ⟨rfl, agreement_of_orderly ⟨fresh, ?_, h1.trans h2⟩⟩
  exact ⟨rfl, fun _ => rfl, fun _ => rfl, fun _ => rfl⟩

/-- Two first calls that both load 0 before either stores. -/
def overlap : List Act :=
  [.getIdx 0 10 (1, 2), .getIdx 1 11 (1, 2), .exec 0, .exec 1, .poolGet 0 1, .poolGet 1 2,
    .exec 0, .exec 1]

/-- Both calls load 0, each takes an index, and the second store replaces the first: the
calls return 1 and 2. -/
theorem disagreement : ¬ ∀ p₀ pair s,
    (machine (cell p₀ pair)).Reachable (fun _ a => NoClear pair a) s → Agreement p₀ pair s := by
  intro hall
  have hrun : (machine (cell 10 (1, 2))).run fresh overlap = some _ := rfl
  have hclear : ∀ a ∈ overlap, ∀ _ : Sys, NoClear (1, 2) a := by
    simp [overlap, NoClear]
  have hagree := hall 10 (1, 2) _
    ⟨fresh, ⟨rfl, fun _ => rfl, fun _ => rfl, fun _ => rfl⟩, steps_of_run hrun hclear⟩
  have hsame : 1 = 2 := hagree.same 1 (by decide) 2 (by decide)
  cases hsame

end ShmSocket.GetIdx
