import ShmSocket.Pool.Progress
import ShmSocket.Pool.Growth

/-! `Pool::get` and `Pool::release` in any number of processes at the same time: the loads,
stores and compare-and-swaps on all channels in any order. A process makes or attaches a
channel in one step. -/
namespace ShmSocket.Allocation
open StepMachine
open Channel (Call)
open Processes

/-- Where a process is in a call of its pool; `pre` is `prefix`. -/
inductive Walk where
  | idle
  /-- In `current->get()` of its `n`-th channel object. -/
  | get (n pre : ℕ)
  /-- That returned 0. -/
  | next (n pre : ℕ)
  | release (index : ℕ) (g : ChannelSeg)
  deriving DecidableEq

/-- `held g p` are the slots of the channel on `g` that `p` is to put back. -/
structure Sys where
  mem : Mem
  chain : Pid → List ChannelSeg
  walk : Pid → Walk
  call : ChannelSeg → Pid → Call
  held : ChannelSeg → Pid → Finset ℕ

/-- `construct` makes the `Pool` of a process. `exec` is the next load, store or swap of a
call, `next` takes `Pool::get` to the next channel; `key` is what the members `key` of the
objects hold. With `hand` another process gets to know an index, to put it back. -/
inductive Act where
  | construct (p : Pid) (fuel : ℕ)
  | get (p : Pid)
  | release (p : Pid) (index : ℕ)
  | exec (p : Pid)
  | next (p : Pid) (key : ℕ → ℤ) (fuel : ℕ)
  | hand (p q : Pid) (index : ℕ)

/-- What a step shows: a call that returns, a channel that `Pool::get` has passed, a call of
`allocNextChannel`. -/
inductive Event where
  | quiet
  | got (p : Pid) (index : ℕ)
  | passed (p : Pid) (n : ℕ)
  | grew (p : Pid)
  | put (p : Pid) (index : ℕ)
  | handed (p q : Pid) (index : ℕ)
  deriving DecidableEq

/-- The local `ret` of a `Channel::get` at its swap. -/
def ret : Call → ℕ
  | .getSwap ret _ => ret
  | _ => 0

/-- The loop of `Pool::release`: the channel and the index there. -/
def seek (index : ℕ) : List ChannelSeg → Option (ChannelSeg × ℕ)
  | [] => none
  | g :: gs => if channelSize < index then seek (index - channelSize) gs else some (g, index)

/-- A slot changes hands. -/
def handed (c : Channel.Sys) (p q : Pid) (i : ℕ) : Channel.Sys :=
  let held := Function.update c.held p ((c.held p).erase i)
  { c with held := Function.update held q (insert i (held q)) }

namespace Sys

/-- The channel on a segment with the calls of all processes on it. -/
def on (s : Sys) (g : ChannelSeg) : Channel.Sys := ⟨s.mem.content g, s.call g, s.held g⟩

def store (s : Sys) (g : ChannelSeg) (c : Channel.Sys) : Sys :=
  { s with
    mem := s.mem.store g c.address
    call := Function.update s.call g c.call
    held := Function.update s.held g c.held }

def setWalk (s : Sys) (p : Pid) (w : Walk) : Sys :=
  { s with walk := Function.update s.walk p w }

/-- `current->get()` begins. -/
def enter (s : Sys) (p : Pid) (n pre : ℕ) : Option Sys :=
  (s.chain p)[n]?.bind fun g =>
    ((s.on g).step (.get p)).map fun c => (s.store g c).setWalk p (.get n pre)

def exec (s : Sys) (p : Pid) : Option (Event × Sys) :=
  match s.walk p with
  | .get n pre =>
      (s.chain p)[n]?.bind fun g =>
        ((s.on g).step (.exec p)).map fun c =>
          if c.call p = .idle then
            let r := ret (s.call g p)
            if 0 < r then (.got p (pre + r), (s.store g c).setWalk p .idle)
            else (.passed p n, (s.store g c).setWalk p (.next n (pre + channelSize)))
          else (.quiet, s.store g c)
  | .release index g =>
      ((s.on g).step (.exec p)).map fun c =>
        if c.call p = .idle then (.put p index, (s.store g c).setWalk p .idle)
        else (.quiet, s.store g c)
  | .idle | .next _ _ => none

/-- `if (!current->next) current->allocNextChannel(); current = current->next;` -/
def next (s : Sys) (p : Pid) (key : ℕ → ℤ) (fuel : ℕ) : Option (Event × Sys) :=
  match s.walk p with
  | .next n pre =>
      if (s.chain p).length = n + 1 then
        (s.chain p)[n]?.bind fun g =>
          (grow p fuel n (key n) g s.mem).bind fun x =>
            let s := { s with mem := x.2, chain := Function.update s.chain p (s.chain p ++ x.1) }
            (s.enter p (n + 1) pre).map (.grew p, ·)
      else (s.enter p (n + 1) pre).map (.quiet, ·)
  | _ => none

/-- A step with what it shows. -/
def act (s : Sys) : Act → Option (Event × Sys)
  | .construct p fuel =>
      if s.chain p = [] then
        (construct p fuel 0 poolShmKey s.mem).map fun x =>
          (.grew p, { s with mem := x.2, chain := Function.update s.chain p x.1 })
      else none
  | .get p => if s.walk p = .idle then (s.enter p 0 0).map (.quiet, ·) else none
  | .release p index =>
      if s.walk p = .idle then
        (seek index (s.chain p)).bind fun (g, slot) =>
          ((s.on g).step (.release p slot)).map fun c =>
            (.quiet, (s.store g c).setWalk p (.release index g))
      else none
  | .exec p => s.exec p
  | .next p key fuel => s.next p key fuel
  | .hand p q index =>
      (seek index (s.chain p)).bind fun (g, slot) =>
        if slot ∈ s.held g p ∧ (s.call g p).releasing ≠ some slot then
          some (.handed p q index, s.store g (handed (s.on g) p q slot))
        else none

def shows (s : Sys) (a : Act) : Event := ((s.act a).map Prod.fst).getD .quiet

end Sys

/-- No process has a pool yet. -/
def Sys.start (content : ChannelSeg → Address) : Sys :=
  ⟨⟨content, fun _ => []⟩, fun _ => [], fun _ => .idle, fun _ _ => .idle, fun _ _ => ∅⟩

def machine : StepMachine Sys Act where
  init s := ∃ content, s = .start content
  step s a := (s.act a).map Prod.snd

/-- When a `Channel::get` swaps, the link of the head index is the one it loaded, and the
members `key` that `allocNextChannel` reads hold the keys their constructors were given. -/
def Orderly (s : Sys) : Act → Prop
  | .exec p => ∀ g ∈ s.chain p, Channel.LinkCurrent (s.on g) (.exec p)
  | .next p key _ => (∃ n pre, s.walk p = .next n pre ∧ (s.chain p).length = n + 1) →
      (∀ n, key n = (poolShmKey + n : ℕ)) ∧
        ∀ q, ((s.chain q).length + 1) * channelSize < 2 ^ 31
  | _ => True

variable {s : Sys} {p q : Pid} {g : ChannelSeg}

theorem on_store (s : Sys) (g : ChannelSeg) (c : Channel.Sys) : (s.store g c).on g = c := by
  simp [Sys.store, Sys.on]

theorem on_store_of_ne {g' : ChannelSeg} (h : g' ≠ g) (c : Channel.Sys) :
    (s.store g c).on g' = s.on g' := by
  simp [Sys.store, Sys.on, Function.update_of_ne h, Mem.store_of_ne _ _ h]

theorem call_here (s : Sys) (g : ChannelSeg) (c : Channel.Sys) (w : Walk) :
    ((s.store g c).setWalk p w).call g q = c.call q := by
  simp [Sys.store, Sys.setWalk]

theorem call_other {g' : ChannelSeg} (h : g' ≠ g) (c : Channel.Sys) (w : Walk) :
    ((s.store g c).setWalk p w).call g' q = s.call g' q := by
  simp [Sys.store, Sys.setWalk, Function.update_of_ne h]

theorem setWalk_self (s : Sys) (p : Pid) : s.setWalk p (s.walk p) = s := by
  unfold Sys.setWalk
  rw [Function.update_eq_self]

/-- A step of a call on a channel keeps it busy, or is a swap that ends it. -/
theorem exec_channel {c c' : Channel.Sys} (hs : c.step (.exec p) = some c') :
    (c'.call p ≠ .idle ∧ (c'.call p).releasing = (c.call p).releasing ∧ c'.held = c.held) ∨
    (∃ r newNext, c.call p = .getSwap r newNext ∧ c.address 0 = r ∧ c' = c.got p r newNext) ∨
    ∃ i old, c.call p = .releaseSwap i old ∧ c.address 0 = old ∧ c' = c.released p i := by
  cases Channel.step_cases hs with
  | start ha => cases ha
  | @next _ d hp hd hleft hrel =>
    rw [Channel.setCall_call]
    exact .inl ⟨hd, hrel, rfl⟩
  | @store _ i old hp =>
    have hcall : (c.stored p i old).call p = .releaseSwap i old := Function.update_self _ _ _
    rw [hcall, hp]
    exact .inl ⟨by simp, rfl, rfl⟩
  | got hp hhead => exact .inr (.inl ⟨_, _, hp, hhead, rfl⟩)
  | released hp hhead => exact .inr (.inr ⟨_, _, hp, hhead, rfl⟩)

/-- The loop of `Pool::release` divides by the size of a channel. -/
theorem seek_eq {index : ℕ} {gs : List ChannelSeg} (hpos : 0 < index) :
    seek index gs = locate gs index := by
  induction gs generalizing index with
  | nil => rfl
  | cons g gs ih =>
    rw [seek]
    split_ifs with hnext
    · obtain ⟨hchannel, hslot⟩ := channelOf_next hnext
      rw [ih (by omega), locate, locate, hchannel, hslot, List.getElem?_cons_succ]
    · obtain ⟨hchannel, hslot⟩ := channelOf_first hpos (Nat.le_of_not_lt hnext)
      rw [locate, hchannel, hslot, List.getElem?_cons_zero]
      rfl

/-- Index 0 has slot 0 of the first channel. -/
theorem seek_zero {gs : List ChannelSeg} {i : ℕ} (h : seek 0 gs = some (g, i)) :
    gs[0]? = some g ∧ i = 0 := by
  cases gs with
  | nil => cases h
  | cons g' gs =>
    rw [seek, if_neg (Nat.not_lt_zero _)] at h
    obtain ⟨rfl, rfl⟩ := Prod.mk.inj (Option.some.inj h)
    exact ⟨rfl, rfl⟩

/-- The holders after a slot changed hands. -/
theorem mem_handed (c : Channel.Sys) {r : Pid} {i j : ℕ} :
    j ∈ (handed c p q i).held r ↔ (j ∈ c.held r ∧ ¬ (r = p ∧ j = i)) ∨ r = q ∧ j = i := by
  have herase : j ∈ Function.update c.held p ((c.held p).erase i) r ↔
      j ∈ c.held r ∧ ¬ (r = p ∧ j = i) := by
    by_cases hr : r = p
    · subst hr
      rw [Function.update_self, Finset.mem_erase]
      tauto
    · rw [Function.update_of_ne hr]
      tauto
  rw [← herase]
  change j ∈ Function.update (Function.update c.held p ((c.held p).erase i)) q
    (insert i (Function.update c.held p ((c.held p).erase i) q)) r ↔ _
  by_cases hr : r = q
  · subst hr
    rw [Function.update_self, Finset.mem_insert]
    tauto
  · rw [Function.update_of_ne hr]
    tauto

end ShmSocket.Allocation
