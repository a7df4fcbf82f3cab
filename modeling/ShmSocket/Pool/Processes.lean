import ShmSocket.CInt
import ShmSocket.Pool.Pool

/-! The pools of several processes. Each process has its own chain of `Channel` objects,
built from the next-channel words when it starts and by `allocNextChannel` when it finds
its channels empty; the segments are shared. The calls run one at a time. -/
namespace ShmSocket.Processes

/-- Segments of channels by key. Key 0 is `IPC_PRIVATE`: the `n`-th object of a process
then makes a segment of its own. -/
inductive ChannelSeg where
  | shared (key : ℤ)
  | own (p : Pid) (n : ℕ)
  deriving DecidableEq

def channelSeg (p : Pid) (n : ℕ) (key : ℤ) : ChannelSeg :=
  if key = 0 then .own p n else .shared key

def poolShmKey : ℕ := 0x3f3f3f3f

/-- `attached g` has a process once for each of its attachments of `g`; its length is
`shm_nattch`. -/
structure Mem where
  content : ChannelSeg → Address
  attached : ChannelSeg → List Pid

namespace Mem

def store (m : Mem) (g : ChannelSeg) (a : Address) : Mem :=
  { m with content := Function.update m.content g a }

def shmat (m : Mem) (g : ChannelSeg) (p : Pid) : Mem :=
  { m with attached := Function.update m.attached g (p :: m.attached g) }

@[simp] theorem store_attached (m : Mem) (g : ChannelSeg) (a : Address) :
    (m.store g a).attached = m.attached := rfl

@[simp] theorem shmat_content (m : Mem) (g : ChannelSeg) (p : Pid) :
    (m.shmat g p).content = m.content := rfl

@[simp] theorem store_here (m : Mem) (g : ChannelSeg) (a : Address) :
    (m.store g a).content g = a := Function.update_self _ _ _

theorem store_of_ne {g g' : ChannelSeg} (m : Mem) (a : Address) (h : g' ≠ g) :
    (m.store g a).content g' = m.content g' := Function.update_of_ne h _ _

@[simp] theorem store_self (m : Mem) (g : ChannelSeg) : m.store g (m.content g) = m := by
  unfold store
  rw [Function.update_eq_self]

/-- `shmdt` and the rest of `Channel::~Channel`: the last one to leave removes the segment,
and the next `shmget` gives a zero-filled one. -/
def detach (m : Mem) (g : ChannelSeg) (p : Pid) : Mem :=
  let left := (m.attached g).erase p
  { content := if left = [] then Function.update m.content g fun _ => 0 else m.content
    attached := Function.update m.attached g left }

end Mem

/-- `Channel::Channel` with key `k` for the `n`-th channel object of process `p`: the
segments of the object and of those behind its `next`. -/
def construct (p : Pid) : ℕ → ℕ → ℤ → Mem → Option (List ChannelSeg × Mem)
  | 0, _, _, _ => none
  | fuel + 1, n, k, m =>
      let g := channelSeg p n k
      let word := m.content g nextChannelIndex
      if (m.attached g).length = 0 then
        some ([g], (m.shmat g p).store g (m.content g).init)
      else if word = 0 then some ([g], m.shmat g p)
      else
        (construct p fuel (n + 1) (i32 word) (m.shmat g p)).map fun x => (g :: x.1, x.2)

/-- `Channel::allocNextChannel` of the `n`-th object, on segment `g`. `key` is what the
member `key` of the object holds. -/
def grow (p : Pid) (fuel n : ℕ) (key : ℤ) (g : ChannelSeg) (m : Mem) :
    Option (List ChannelSeg × Mem) :=
  (construct p fuel (n + 1) (i32 (u32 (key + 1))) m).map fun x =>
    (x.1, x.2.store g (allocNextChannel (x.2.content g) (u32 (key + 1))))

/-- The loop of `Pool::get` at the `n`-th object, `pre` indices into the pool. No
constructor sets the members `key`, so they may hold anything. -/
def getFrom (p : Pid) (key : ℕ → ℤ) :
    ℕ → ℕ → ℕ → List ChannelSeg → Mem → Option (ℕ × List ChannelSeg × Mem)
  | 0, _, _, _, _ => none
  | _ + 1, _, _, [], _ => none
  | fuel + 1, n, pre, g :: gs, m =>
      let (r, a) := channelGet (m.content g)
      let m := m.store g a
      if 0 < r then some (pre + r, g :: gs, m)
      else
        (if gs = [] then grow p fuel n (key n) g m else some (gs, m)).bind fun x =>
          (getFrom p key fuel (n + 1) (pre + channelSize) x.1 x.2).map fun y =>
            (y.1, g :: y.2.1, y.2.2)

/-- `Pool::release`; behind the last object is a null pointer. -/
def release (index : ℕ) : List ChannelSeg → Mem → Option Mem
  | [], _ => none
  | g :: gs, m =>
      if channelSize < index then release (index - channelSize) gs m
      else some (m.store g (channelRelease (m.content g) index))

/-- `~Pool` when the process exits. -/
def destroy (p : Pid) : List ChannelSeg → Mem → Mem
  | [], m => m
  | g :: gs, m => destroy p gs (m.detach g p)

section fuel
variable {p : Pid} {key : ℕ → ℤ} {fuel fuel' n pre : ℕ} {k : ℤ} {m : Mem} {gs : List ChannelSeg}

/-- A call that returns does so with any more fuel. -/
theorem construct_mono {x : List ChannelSeg × Mem} (h : construct p fuel n k m = some x)
    (hle : fuel ≤ fuel') : construct p fuel' n k m = some x := by
  induction fuel generalizing fuel' n k m x with
  | zero => cases h
  | succ fuel ih =>
    obtain ⟨fuel', rfl⟩ := Nat.exists_eq_add_of_le' (Nat.lt_of_lt_of_le (Nat.succ_pos _) hle)
    simp only [construct] at h ⊢
    split_ifs at h ⊢ with hnone hword
    · exact h
    · exact h
    · obtain ⟨y, hy, rfl⟩ := Option.map_eq_some_iff.mp h
      rw [ih hy (Nat.le_of_succ_le_succ hle)]
      rfl

theorem grow_mono {g : ChannelSeg} {x : List ChannelSeg × Mem}
    (h : grow p fuel n k g m = some x) (hle : fuel ≤ fuel') : grow p fuel' n k g m = some x := by
  obtain ⟨y, hy, rfl⟩ := Option.map_eq_some_iff.mp h
  rw [grow, construct_mono hy hle]
  rfl

theorem getFrom_mono {x : ℕ × List ChannelSeg × Mem}
    (h : getFrom p key fuel n pre gs m = some x) (hle : fuel ≤ fuel') :
    getFrom p key fuel' n pre gs m = some x := by
  induction fuel generalizing fuel' n pre gs m x with
  | zero => cases h
  | succ fuel ih =>
    obtain ⟨fuel', rfl⟩ := Nat.exists_eq_add_of_le' (Nat.lt_of_lt_of_le (Nat.succ_pos _) hle)
    have hle := Nat.le_of_succ_le_succ hle
    cases gs with
    | nil => cases h
    | cons g gs =>
      simp only [getFrom] at h ⊢
      split_ifs at h ⊢ with hr hgs
      · exact h
      · obtain ⟨y, hy, h⟩ := Option.bind_eq_some_iff.mp h
        obtain ⟨z, hz, rfl⟩ := Option.map_eq_some_iff.mp h
        rw [grow_mono hy hle, Option.bind_some, ih hz hle]
        rfl
      · rw [Option.bind_some] at h ⊢
        obtain ⟨z, hz, rfl⟩ := Option.map_eq_some_iff.mp h
        rw [ih hz hle]
        rfl

/-- The result does not depend on the fuel. -/
theorem construct_unique {x y : List ChannelSeg × Mem} (h : construct p fuel n k m = some x)
    (h' : construct p fuel' n k m = some y) : x = y :=
  Option.some.inj ((construct_mono h (le_max_left fuel fuel')).symm.trans
    (construct_mono h' (le_max_right fuel fuel')))

theorem getFrom_unique {x y : ℕ × List ChannelSeg × Mem}
    (h : getFrom p key fuel n pre gs m = some x) (h' : getFrom p key fuel' n pre gs m = some y) :
    x = y :=
  Option.some.inj ((getFrom_mono h (le_max_left fuel fuel')).symm.trans
    (getFrom_mono h' (le_max_right fuel fuel')))

end fuel

end ShmSocket.Processes
