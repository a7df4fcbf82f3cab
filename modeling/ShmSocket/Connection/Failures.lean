import ShmSocket.Connection.Calls

/-! What `connect` and `close` leave behind when they do not get their ring: `get_dst_block`
may have no block and `rb_init` no memory. -/
namespace ShmSocket
open PortTable Indices

/-- What a call finds when it asks for memory: whether `get_dst_block` returns a block and
`malloc` a handle. `key` is the key of a channel that `pool_get` may have to make. -/
structure Supply where
  block : Bool
  malloc : Bool
  key : ℕ

namespace Rings

/-- `rb_get(get_idx(..))` when it may fail: the index of the handle, if any. -/
def tryRing (s : Rings) (p : Pid) (pair : Pair) (a : Supply) : Option ℕ × Rings :=
  if a.block then
    let (k, tables) := Indices.getIdx a.key s.tables (cell p pair)
    if s.memo (p, k) ∨ a.malloc then (some k, { s with tables }.rbGet p k)
    else (none, { s with tables })
  else (none, s)

/-- There is a block, and the handle of the index is there or gets its memory. -/
def Obtains (s : Rings) (p : Pid) (pair : Pair) (a : Supply) : Prop :=
  a.block ∧ (s.memo (p, (Indices.getIdx a.key s.tables (cell p pair)).1) ∨ a.malloc)

/-- The indices of the pool that are on no free list. -/
def allocated (s : Rings) : Set ℕ :=
  {k | 1 ≤ k ∧ k ≤ channelSize * s.tables.pool.length ∧
    ∀ ls, List.Forall₂ FreeList s.tables.pool ls → k ∉ freeFrom 0 ls}

theorem tryRing_isSome (s : Rings) (p : Pid) (pair : Pair) (a : Supply) :
    (s.tryRing p pair a).1.isSome ↔ s.Obtains p pair a := by
  unfold tryRing Obtains
  by_cases hblock : a.block
  · simp only [hblock, if_true, true_and]
    split_ifs with hhandle
    · exact iff_of_true rfl hhandle
    · exact iff_of_false Bool.false_ne_true hhandle
  · simp only [if_neg hblock]
    exact iff_of_false Bool.false_ne_true fun h => hblock h.1

/-- With all it asks for, and as long as the pool need not grow, the attempt is that of
`openRing`. -/
theorem tryRing_of_open {s s' : Rings} {p : Pid} {pair : Pair} {k : ℕ}
    (h : s.openRing p pair = some (k, s')) : s.tryRing p pair ⟨true, true, 0⟩ = (some k, s') := by
  obtain ⟨⟨k₁, s₁⟩, hget, he⟩ := Option.map_eq_some_iff.mp h
  obtain ⟨rfl, rfl⟩ := Prod.mk.inj he
  unfold getIdx at hget
  unfold tryRing
  split at hget
  next k₂ tables hidx =>
    split_ifs at hget with hlength
    cases hget
    simp only [hidx, if_true, or_true]

end Rings

namespace World

/-- `connect` with what its attempt to obtain the ring finds. -/
def tryConnect (w : World) (p : Pid) (fd serverPort : ℕ) (a : Supply) : ℤ × World :=
  let pid := u32 (w.portTable serverPort)
  if 2 ^ maxPidBits ≤ pid then (-1, w)
  else if pid = 0 then (-2, w)
  else
    let clientPort := getFreePort w.portTable
    if clientPort = 0 then (-1, w)
    else
      let table := Function.update w.portTable clientPort (fd2port p fd)
      if table serverPort = i32 pid then
        let table := Function.update table serverPort (taken clientPort)
        let idx := packPorts serverPort clientPort
        let (ring, rings) := w.rings.tryRing p (remotePort idx, localPort idx) a
        (if ring.isSome then 0 else -3, {
          rings
          portTable := Function.update table clientPort (-1)
          clientFdToIdx := Function.update w.clientFdToIdx (p, fd) idx })
      else (-1, { w with portTable := Function.update table clientPort 0 })

/-- `close` with what its attempt to obtain the ring finds. -/
def tryClose (w : World) (p : Pid) (fd : ℤ) (a : Supply) : Option (ℤ × World) :=
  let fd := w.portsOf p fd
  let portTable := Function.update w.portTable (localPort fd) 0
  let pair := (remotePort fd, localPort fd)
  match w.rings.tryRing p pair a with
  | (none, rings) => some (-1, { w with rings, portTable })
  | (some k, rings) =>
      let tables := clearIdx rings.tables (cell p pair)
      (poolRelease k tables.pool).map fun pool =>
        (0, { w with rings := { rings with tables := { tables with pool } }, portTable })

variable {w w' : World} {p : Pid} {fd serverPort : ℕ} {a : Supply} {ret : ℤ}

/-- The calls of the other modules are those that get all they ask for. -/
theorem tryConnect_of_connect (h : w.connect p fd serverPort = some (ret, w')) :
    w.tryConnect p fd serverPort ⟨true, true, 0⟩ = (ret, w') := by
  simp only [connect] at h
  rw [tryConnect]
  split at h
  · next htaken =>
    rw [if_pos htaken]
    exact Option.some.inj h
  · next htaken =>
    rw [if_neg htaken]
    split at h
    · next hnone =>
      rw [if_pos hnone]
      exact Option.some.inj h
    · next hnone =>
      rw [if_neg hnone]
      split at h
      · next hport =>
        rw [if_pos hport]
        exact Option.some.inj h
      · next hport =>
        rw [if_neg hport]
        split at h
        · next hswap =>
          obtain ⟨⟨k, rings⟩, hopen, he⟩ := Option.map_eq_some_iff.mp h
          simp only [if_pos hswap, Rings.tryRing_of_open hopen]
          exact he
        · next hswap =>
          simp only [if_neg hswap]
          exact Option.some.inj h

theorem tryClose_of_close {fd : ℤ} (h : w.close p fd = some (ret, w')) :
    w.tryClose p fd ⟨true, true, 0⟩ = some (ret, w') := by
  obtain ⟨rings, hclose, he⟩ := Option.map_eq_some_iff.mp h
  obtain ⟨⟨k, s⟩, hopen, hrelease⟩ := Option.bind_eq_some_iff.mp hclose
  obtain ⟨pool, hpool, rfl⟩ := Option.map_eq_some_iff.mp hrelease
  simp only [tryClose, Rings.tryRing_of_open hopen, hpool, Option.map_some]
  exact congrArg some he

/-- The state that other calls see is as before. -/
structure Unchanged (w w' : World) : Prop where
  portTable : w'.portTable = w.portTable
  clientFdToIdx : w'.clientFdToIdx = w.clientFdToIdx
  allocated : w'.rings.allocated = w.rings.allocated

theorem Unchanged.refl (w : World) : Unchanged w w := ⟨rfl, rfl, rfl⟩

/-- A process listens on the server port and there is a port for the client. -/
def Accepts (w : World) (serverPort : ℕ) : Prop :=
  0 < w.portTable serverPort ∧ w.portTable serverPort < 2 ^ maxPidBits ∧
    getFreePort w.portTable ≠ 0

/-- The pair whose ring `connect` asks for. -/
def pairFor (w : World) (serverPort : ℕ) : Pair :=
  let idx := packPorts serverPort (getFreePort w.portTable)
  (remotePort idx, localPort idx)

/-- What `connect` has stored when it asks for its ring. -/
def asked (w : World) (p : Pid) (fd serverPort : ℕ) (rings : Rings) : World where
  rings
  portTable := Function.update (Function.update w.portTable serverPort
    (taken (getFreePort w.portTable))) (getFreePort w.portTable) (-1)
  clientFdToIdx := Function.update w.clientFdToIdx (p, fd)
    (packPorts serverPort (getFreePort w.portTable))

theorem listening_iff (word : ℤ) : 0 < word ∧ word < 2 ^ maxPidBits ↔
    ¬2 ^ maxPidBits ≤ u32 word ∧ u32 word ≠ 0 ∧ word = i32 (u32 word) := by
  unfold maxPidBits u32
  constructor
  · rintro ⟨hpos, hlt⟩
    have hword : (word % 2 ^ 32).toNat = word.toNat := by omega
    rw [hword, i32_of_lt (by omega)]
    omega
  · rintro ⟨hlt, hpos, hword⟩
    rw [i32_of_lt (by omega)] at hword
    omega

/-- `connect` undoes all it has done until it asks for its ring. -/
theorem tryConnect_cases (w : World) (p : Pid) (fd serverPort : ℕ) (a : Supply) :
    (¬w.Accepts serverPort ∧ ∃ ret < 0, w.tryConnect p fd serverPort a = (ret, w)) ∨
      (w.Accepts serverPort ∧ w.tryConnect p fd serverPort a =
        (if (w.rings.tryRing p (w.pairFor serverPort) a).1.isSome then 0 else -3,
          w.asked p fd serverPort (w.rings.tryRing p (w.pairFor serverPort) a).2)) := by
  have hlistening := listening_iff (w.portTable serverPort)
  rw [tryConnect, Accepts, ← and_assoc, hlistening]
  by_cases htaken : 2 ^ maxPidBits ≤ u32 (w.portTable serverPort)
  · rw [if_pos htaken]
    exact .inl ⟨fun h => h.1.1 htaken, -1, by decide, rfl⟩
  rw [if_neg htaken]
  by_cases hnone : u32 (w.portTable serverPort) = 0
  · rw [if_pos hnone]
    exact .inl ⟨fun h => h.1.2.1 hnone, -2, by decide, rfl⟩
  rw [if_neg hnone]
  by_cases hport : getFreePort w.portTable = 0
  · simp only [if_pos hport]
    exact .inl ⟨fun h => h.2 hport, -1, by decide, rfl⟩
  obtain ⟨hfree, -⟩ := getFreePort_free hport
  have hserver : serverPort ≠ getFreePort w.portTable := by
    intro he
    rw [← he] at hfree
    rw [hfree] at hnone
    exact hnone rfl
  simp only [if_neg hport, Function.update_of_ne hserver]
  by_cases hswap : w.portTable serverPort = i32 (u32 (w.portTable serverPort))
  · simp only [if_pos hswap, update_overwritten]
    exact .inr ⟨⟨⟨htaken, hnone, hswap⟩, hport⟩, rfl⟩
  · simp only [if_neg hswap]
    refine .inl ⟨fun h => hswap h.1.2.2, -1, by decide, ?_⟩
    rw [Function.update_idem, ← hfree, Function.update_eq_self]

/-- `connect` loses its way back once it has the server port. -/
theorem asked_changed {rings : Rings} (h : w.Accepts serverPort) :
    ¬Unchanged w (w.asked p fd serverPort rings) := by
  intro hsame
  obtain ⟨hpos, hlt, hport⟩ := h
  obtain ⟨hfree, -⟩ := getFreePort_free hport
  have hserver : serverPort ≠ getFreePort w.portTable := by
    intro he
    rw [← he] at hfree
    exact hpos.ne' hfree
  have hword : Function.update (Function.update w.portTable serverPort
      (taken (getFreePort w.portTable) : ℤ)) (getFreePort w.portTable) (-1) serverPort =
        w.portTable serverPort := congrFun hsame.portTable serverPort
  rw [Function.update_of_ne hserver, Function.update_self] at hword
  have hge := taken_ge (getFreePort w.portTable)
  unfold maxPidBits at hlt hge
  omega

theorem connect_undone (w : World) (p : Pid) (fd serverPort : ℕ) (a : Supply) :
    ((w.tryConnect p fd serverPort a).1 < 0 →
      Unchanged w (w.tryConnect p fd serverPort a).2) ↔
    (w.Accepts serverPort → w.rings.Obtains p (w.pairFor serverPort) a) := by
  rw [← Rings.tryRing_isSome]
  rcases w.tryConnect_cases p fd serverPort a with ⟨hno, ret, -, heq⟩ | ⟨hyes, heq⟩
  · rw [heq]
    exact iff_of_true (fun _ => .refl w) fun h => absurd h hno
  · rw [heq]
    by_cases hring : (w.rings.tryRing p (w.pairFor serverPort) a).1.isSome
    · rw [if_pos hring]
      exact iff_of_true (fun h => absurd h (lt_irrefl 0)) fun _ => hring
    · rw [if_neg hring]
      have hneg : (-3 : ℤ) < 0 := by decide
      exact iff_of_false (fun h => asked_changed hyes (h hneg)) fun h => hring (h hyes)

/-- What `close` leaves without its ring. -/
theorem tryClose_lost {fd : ℤ} (h : ¬w.rings.Obtains p
    (remotePort (w.portsOf p fd), localPort (w.portsOf p fd)) a) :
    ∃ rings, w.tryClose p fd a = some (-1, { w with
      rings, portTable := Function.update w.portTable (localPort (w.portsOf p fd)) 0 }) := by
  rw [← Rings.tryRing_isSome] at h
  rw [tryClose]
  rcases hring : w.rings.tryRing p (remotePort (w.portsOf p fd), localPort (w.portsOf p fd)) a with
    ⟨ring, rings⟩
  rw [hring] at h
  cases ring with
  | some k => exact absurd rfl h
  | none => exact ⟨rings, rfl⟩

/-- `close` frees its port first. -/
theorem close_undone (w : World) (p : Pid) (fd : ℤ) (a : Supply) :
    (∀ w', w.tryClose p fd a = some (-1, w') → w'.portTable = w.portTable) ↔
      w.rings.Obtains p (remotePort (w.portsOf p fd), localPort (w.portsOf p fd)) a ∨
        w.portTable (localPort (w.portsOf p fd)) = 0 := by
  by_cases hring : w.rings.Obtains p (remotePort (w.portsOf p fd), localPort (w.portsOf p fd)) a
  · refine iff_of_true (fun w' h => ?_) (.inl hring)
    rw [← Rings.tryRing_isSome] at hring
    obtain ⟨k, hk⟩ := Option.isSome_iff_exists.mp hring
    simp only [tryClose] at h
    split at h
    · next heq =>
      rw [heq] at hk
      cases hk
    · obtain ⟨pool, -, he⟩ := Option.map_eq_some_iff.mp h
      cases congrArg Prod.fst he
  · obtain ⟨rings, hclose⟩ := tryClose_lost hring
    constructor
    · intro h
      have hword : Function.update w.portTable (localPort (w.portsOf p fd)) 0
          (localPort (w.portsOf p fd)) = w.portTable (localPort (w.portsOf p fd)) :=
        congrFun (h _ hclose) _
      rw [Function.update_self] at hword
      exact .inr hword.symm
    · rintro (h | hzero) w' hw'
      · exact absurd h hring
      · rw [hclose] at hw'
        cases hw'
        change Function.update w.portTable (localPort (w.portsOf p fd)) 0 = w.portTable
        rw [← hzero, Function.update_eq_self]

/-- A failed `connect` and a failed `close` leave the state as it was exactly when they get
their ring, or have done nothing before they ask for it. -/
theorem failures_undone_iff (w : World) (p : Pid) (fd serverPort : ℕ) (a : Supply) :
    (((w.tryConnect p fd serverPort a).1 < 0 →
        Unchanged w (w.tryConnect p fd serverPort a).2) ↔
      (w.Accepts serverPort → w.rings.Obtains p (w.pairFor serverPort) a)) ∧
    ((∀ w', w.tryClose p fd a = some (-1, w') → w'.portTable = w.portTable) ↔
      w.rings.Obtains p (remotePort (w.portsOf p fd), localPort (w.portsOf p fd)) a ∨
        w.portTable (localPort (w.portsOf p fd)) = 0) :=
  ⟨connect_undone w p fd serverPort a, close_undone w p fd a⟩

/-- Process 7 listens on port 80, and nobody has done anything else. -/
def listening80 : World where
  rings := ⟨⟨[freshChannel], fun _ => 0⟩, fun _ => Ring.zero, fun _ => 0, fun _ => false⟩
  portTable := fun port => if port = 80 then 7 else 0
  clientFdToIdx := fun _ => 0

/-- Without memory for the handle `connect` returns -3, and the server port stays taken, the
client port in use and an index out; `close` then returns -1 and has freed the client port. -/
theorem failures_kept : ∃ w w', listening80.tryConnect 9 3 80 ⟨true, false, 0⟩ = (-3, w) ∧
    w.portTable 80 = taken 1 ∧ w.portTable 1 = -1 ∧ w.clientFdToIdx (9, 3) = packPorts 80 1 ∧
    w.rings.tables.table (cell 9 (80, 1)) = 1 ∧
    w.tryClose 9 3 ⟨true, false, 0⟩ = some (-1, w') ∧ w'.portTable 1 = 0 ∧
    ¬(∀ w p fd serverPort a, ((tryConnect w p fd serverPort a).1 < 0 →
        Unchanged w (tryConnect w p fd serverPort a).2) ∧
      ∀ w', tryClose w p fd a = some (-1, w') → w'.portTable = w.portTable) := by
  have hport : getFreePort listening80.portTable = 1 := rfl
  have hpair : listening80.pairFor 80 = (80, 1) := by
    rw [pairFor, hport, remotePort_pack (by decide) (by decide),
      localPort_pack (by decide) (by decide)]
  have hconnect : listening80.tryConnect 9 3 80 ⟨true, false, 0⟩ = (-3, listening80.asked 9 3 80
      (listening80.rings.tryRing 9 (80, 1) ⟨true, false, 0⟩).2) := by
    rcases listening80.tryConnect_cases 9 3 80 ⟨true, false, 0⟩ with ⟨hno, -⟩ | ⟨-, hasked⟩
    · exact absurd ⟨by decide, by decide, hport.trans_ne one_ne_zero⟩ hno
    · rw [hasked, hpair]
      rfl
  set w := listening80.asked 9 3 80 (listening80.rings.tryRing 9 (80, 1) ⟨true, false, 0⟩).2
    with hw
  have hidx : w.clientFdToIdx (9, 3) = packPorts 80 1 := by
    rw [hw, asked, hport]
    exact Function.update_self (9, 3) (packPorts 80 1) listening80.clientFdToIdx
  have hlocal : localPort (w.portsOf 9 3) = 1 := by
    change localPort (w.clientFdToIdx (9, 3)) = 1
    rw [hidx, localPort_pack (by decide) (by decide)]
  have hring : ¬w.rings.Obtains 9 (remotePort (w.portsOf 9 3), localPort (w.portsOf 9 3))
      ⟨true, false, 0⟩ := by
    rintro ⟨-, hmemo | hmalloc⟩
    · cases hmemo
    · cases hmalloc
  obtain ⟨rings, hclose⟩ := tryClose_lost hring
  rw [hlocal] at hclose
  have hfreed : Function.update w.portTable 1 0 1 = 0 := Function.update_self _ _ _
  refine ⟨w, _, hconnect, ?_, ?_, hidx, rfl, hclose, hfreed, fun hall => ?_⟩
  · rw [hw, asked, hport]
    rfl
  · rw [hw, asked, hport]
    rfl
  · have hneg : (listening80.tryConnect 9 3 80 ⟨true, false, 0⟩).1 < 0 := by
      rw [hconnect]
      decide
    have hsame := (hall listening80 9 3 80 ⟨true, false, 0⟩).1 hneg
    rw [hconnect] at hsame
    exact asked_changed ⟨by decide, by decide, hport.trans_ne one_ne_zero⟩ hsame

end World

end ShmSocket
