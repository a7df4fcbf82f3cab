import ShmSocket.CInt
import ShmSocket.Lib.StepMachine

/-! The table of connections of `workspace/io.cpp`. Its entries live in one block that
`realloc` enlarges, `ConnectionMap` points into it, and the entries of closed connections
wait in `idle_list`. -/
namespace ShmSocket.ConnectionPool
open StepMachine

/-- A `Connection_t *`: an entry of a block. Every block that `malloc` or `realloc` returns
has a number of its own. -/
structure Entry where
  block : ℕ
  idx : ℕ
  deriving DecidableEq

/-- `Pool_t`, with the `idle` flags of the entries. -/
structure Pool where
  connections : ℕ
  size : ℕ
  capacity : ℕ
  idleList : List ℕ
  idle : ℕ → Bool

structure Sys where
  pool : Pool
  connectionMap : ℤ → Option Entry

def init (size : ℕ) : Pool where
  connections := 0
  size := 0
  capacity := size
  idleList := []
  idle i := decide (i < size)

/-- `expandPool`, where `realloc` moves the block or not. The loop counts in `int`. -/
def expandPool (moves : Bool) (pool : Pool) : Option Pool :=
  let newSize := u32 (pool.capacity * 2)
  if newSize < 2 ^ 31 then
    some { pool with
      connections := if moves then pool.connections + 1 else pool.connections
      idle := fun i => if pool.size ≤ i ∧ i < newSize then true else pool.idle i
      capacity := newSize }
  else none

/-- The index that `addConnection` takes, and what it leaves of `idle_list`. -/
def nextSlot (pool : Pool) : ℕ × List ℕ :=
  match pool.idleList with
  | [] => (pool.size, [])
  | idx :: rest => (idx, rest)

/-- `addConnection`. An access outside the block is undefined. -/
def addConnection (moves : Bool) (pool : Pool) : Option (Entry × Pool) :=
  (if pool.size = pool.capacity then expandPool moves pool else some pool).bind fun pool' =>
    let (idx, idleList) := nextSlot pool
    if idx < pool'.capacity then
      some (⟨pool'.connections, idx⟩, { pool' with idleList, size := u32 (pool'.size + 1) })
    else none

/-- `get_idx`, as the `int` that is the key of `ConnectionMap`. -/
def getIdx (srcPort destPort : ℕ) : ℤ := i32 (u32 (srcPort * 65536 + destPort))

def openConnection (moves : Bool) (srcPort destPort : ℕ) (s : Sys) : Option (ℤ × Sys) :=
  let idx := getIdx srcPort destPort
  if (s.connectionMap idx).isSome then some (-1, s)
  else (addConnection moves s.pool).map fun (conn, pool) =>
    (0, { pool := { pool with idle := Function.update pool.idle conn.idx false }
          connectionMap := Function.update s.connectionMap idx (some conn) })

/-- `closeConnection`. A pointer into a block that has been moved is not to be used. -/
def closeConnection (srcPort destPort : ℕ) (s : Sys) : Option (ℤ × Sys) :=
  let idx := getIdx srcPort destPort
  match s.connectionMap idx with
  | none => some (-1, s)
  | some conn =>
      if conn.block = s.pool.connections then
        some (0, {
          pool := { s.pool with
            idle := Function.update s.pool.idle conn.idx true
            idleList := s.pool.idleList ++ [conn.idx] }
          connectionMap := Function.update s.connectionMap idx none })
      else none

inductive Act where
  | openConnection (srcPort destPort : ℕ) (moves : Bool)
  | closeConnection (srcPort destPort : ℕ)

/-- The tables and what has happened: the calls of `openConnection` and `closeConnection`
that returned 0, how many of the former found an entry in `idle_list`, the pairs that are
connected because the last such call for them was an `openConnection`, and of which of them
the block has moved since. -/
structure History where
  sys : Sys
  opened : ℕ
  closed : ℕ
  reused : ℕ
  connected : List (ℕ × ℕ)
  moved : ℕ × ℕ → Bool

namespace History

/-- After an `openConnection` that returned 0. -/
def afterOpen (h : History) (srcPort destPort : ℕ) (moves : Bool) (sys : Sys) : History where
  sys := sys
  opened := h.opened + 1
  closed := h.closed
  reused := if h.sys.pool.idleList = [] then h.reused else h.reused + 1
  connected := (srcPort, destPort) :: h.connected
  moved := Function.update
    (fun pair => h.moved pair || (moves && decide (h.sys.pool.size = h.sys.pool.capacity)))
    (srcPort, destPort) false

/-- After a `closeConnection` that returned 0. -/
def afterClose (h : History) (srcPort destPort : ℕ) (sys : Sys) : History where
  sys := sys
  opened := h.opened
  closed := h.closed + 1
  reused := h.reused
  connected := h.connected.filter (· ≠ (srcPort, destPort))
  moved := h.moved

def step (h : History) : Act → Option History
  | .openConnection srcPort destPort moves =>
      (openConnection moves srcPort destPort h.sys).map fun (ret, sys) =>
        if ret = 0 then h.afterOpen srcPort destPort moves sys else { h with sys }
  | .closeConnection srcPort destPort =>
      (closeConnection srcPort destPort h.sys).map fun (ret, sys) =>
        if ret = 0 then h.afterClose srcPort destPort sys else { h with sys }

end History

/-- From `init(size)` with an empty `ConnectionMap`. -/
def machine (size : ℕ) : StepMachine History Act where
  init h := h = ⟨⟨init size, fun _ => none⟩, 0, 0, 0, [], fun _ => false⟩
  step := History.step

/-- A pair of 16-bit ports. -/
def IsPair (pair : ℕ × ℕ) : Prop := pair.1 < 2 ^ 16 ∧ pair.2 < 2 ^ 16

def Act.pair : Act → ℕ × ℕ
  | .openConnection srcPort destPort _ | .closeConnection srcPort destPort => (srcPort, destPort)

/-- Fewer than `2 ^ 30` connections have been opened, so that no counter overflows, and the
ports have 16 bits, so that no two pairs have one key. -/
def Few (h : History) (a : Act) : Prop := h.opened < 2 ^ 30 ∧ IsPair a.pair

instance (h : History) (a : Act) : Decidable (Few h a) := by
  unfold Few IsPair
  infer_instance

/-- The pairs of 16-bit ports have different keys. -/
theorem getIdx_inj {pair pair' : ℕ × ℕ} (hpair : IsPair pair) (hpair' : IsPair pair')
    (h : getIdx pair.1 pair.2 = getIdx pair'.1 pair'.2) : pair = pair' := by
  obtain ⟨hsrc, hdest⟩ := hpair
  obtain ⟨hsrc', hdest'⟩ := hpair'
  have hkey {p : ℕ × ℕ} (hp : IsPair p) :
      u32 (getIdx p.1 p.2) = p.1 * 65536 + p.2 := by
    obtain ⟨h1, h2⟩ := hp
    have hword : u32 ((p.1 : ℤ) * 65536 + p.2) = p.1 * 65536 + p.2 := by
      unfold u32
      omega
    rw [getIdx, hword, u32_i32 (by omega)]
  have hsame := (hkey ⟨hsrc, hdest⟩).symm.trans ((congrArg u32 h).trans (hkey ⟨hsrc', hdest'⟩))
  exact Prod.ext (by omega) (by omega)

/-- The capacity after `addConnection`. -/
def grown (pool : Pool) : ℕ :=
  if pool.size = pool.capacity then pool.capacity * 2 else pool.capacity

/-- The block after `addConnection`. -/
def placed (moves : Bool) (pool : Pool) : ℕ :=
  if moves ∧ pool.size = pool.capacity then pool.connections + 1 else pool.connections

/-- `openConnection` of a pair that is not connected. -/
structure Opened (moves : Bool) (idx : ℤ) (s s' : Sys) : Prop where
  absent : s.connectionMap idx = none
  connections : s'.pool.connections = placed moves s.pool
  size : s'.pool.size = s.pool.size + 1
  capacity : s'.pool.capacity = grown s.pool
  idleList : s'.pool.idleList = (nextSlot s.pool).2
  room : (nextSlot s.pool).1 < grown s.pool
  idle : ∀ i < grown s.pool, s'.pool.idle i = if i = (nextSlot s.pool).1 then false
    else if s.pool.size = s.pool.capacity ∧ s.pool.size ≤ i then true else s.pool.idle i
  connectionMap : s'.connectionMap = Function.update s.connectionMap idx
    (some ⟨placed moves s.pool, (nextSlot s.pool).1⟩)

/-- `closeConnection` of a pair whose entry has not been moved. -/
structure Closed (idx : ℤ) (s s' : Sys) : Prop where
  entry : ∃ conn, s.connectionMap idx = some conn ∧ conn.block = s.pool.connections ∧
    s'.pool = { s.pool with
      idle := Function.update s.pool.idle conn.idx true
      idleList := s.pool.idleList ++ [conn.idx] }
  connectionMap : s'.connectionMap = Function.update s.connectionMap idx none

section calls
variable {s s' : Sys} {moves : Bool} {srcPort destPort : ℕ} {ret x : ℤ} {e : Entry}

/-- A connection after `openConnection` is the new one or was there before. -/
theorem Opened.lookup (ho : Opened moves (getIdx srcPort destPort) s s')
    (hx : s'.connectionMap x = some e) :
    x = getIdx srcPort destPort ∧ e = ⟨placed moves s.pool, (nextSlot s.pool).1⟩ ∨
      x ≠ getIdx srcPort destPort ∧ s.connectionMap x = some e := by
  rw [ho.connectionMap] at hx
  by_cases he : x = getIdx srcPort destPort
  · rw [he, Function.update_self] at hx
    cases hx
    exact .inl ⟨he, rfl⟩
  · rw [Function.update_of_ne he] at hx
    exact .inr ⟨he, hx⟩

theorem Opened.kept (ho : Opened moves (getIdx srcPort destPort) s s')
    (hx : s.connectionMap x = some e) : s'.connectionMap x = some e := by
  have hne : x ≠ getIdx srcPort destPort := fun he => by
    rw [he, ho.absent] at hx
    cases hx
  rw [ho.connectionMap, Function.update_of_ne hne, hx]

/-- A connection after `closeConnection` was there before and is another one. -/
theorem Closed.lookup (hc : Closed (getIdx srcPort destPort) s s')
    (hx : s'.connectionMap x = some e) :
    x ≠ getIdx srcPort destPort ∧ s.connectionMap x = some e := by
  rw [hc.connectionMap] at hx
  by_cases he : x = getIdx srcPort destPort
  · rw [he, Function.update_self] at hx
    cases hx
  · rw [Function.update_of_ne he] at hx
    exact ⟨he, hx⟩

theorem Closed.kept (hc : Closed (getIdx srcPort destPort) s s')
    (hne : x ≠ getIdx srcPort destPort) (hx : s.connectionMap x = some e) :
    s'.connectionMap x = some e := by
  rw [hc.connectionMap, Function.update_of_ne hne, hx]

theorem expandPool_eq {pool : Pool} (h : pool.capacity < 2 ^ 30) :
    expandPool moves pool = some { pool with
      connections := if moves then pool.connections + 1 else pool.connections
      idle := fun i => if pool.size ≤ i ∧ i < pool.capacity * 2 then true else pool.idle i
      capacity := pool.capacity * 2 } := by
  have hsize : u32 ((pool.capacity : ℤ) * 2) = pool.capacity * 2 := by
    unfold u32
    omega
  simp only [expandPool, hsize]
  exact if_pos (by omega)

/-- `openConnection` never fails while there are few connections. -/
theorem openConnection_absent (moves : Bool)
    (habsent : s.connectionMap (getIdx srcPort destPort) = none)
    (hsize : s.pool.size < 2 ^ 30) (hle : s.pool.size ≤ s.pool.capacity)
    (hpos : 0 < s.pool.capacity) (hidle : ∀ i ∈ s.pool.idleList, i < s.pool.size) :
    ∃ s', openConnection moves srcPort destPort s = some (0, s') ∧
      Opened moves (getIdx srcPort destPort) s s' := by
  have hnext : (nextSlot s.pool).1 < grown s.pool := by
    unfold nextSlot grown
    cases hl : s.pool.idleList with
    | nil =>
      change s.pool.size < _
      split_ifs <;> omega
    | cons idx rest =>
      have hidx := hidle idx (hl ▸ List.mem_cons_self)
      change idx < _
      split_ifs <;> omega
  have hcount : u32 ((s.pool.size + 1 : ℕ) : ℤ) = s.pool.size + 1 := u32_natCast (by omega)
  simp only [openConnection, habsent, Option.isSome_none, Bool.false_eq_true, if_false]
  by_cases hfull : s.pool.size = s.pool.capacity
  · have hgrown : grown s.pool = s.pool.capacity * 2 := if_pos hfull
    rw [addConnection, if_pos hfull, expandPool_eq (by omega), Option.bind_some]
    simp only [if_pos (hgrown ▸ hnext), Option.map_some]
    refine ⟨_, rfl, habsent, ?_, hcount, hgrown.symm, rfl, hnext, fun i hi => ?_, ?_⟩
    · cases moves <;> simp [placed, hfull]
    · rw [hgrown] at hi
      simp only [Function.update_apply, hfull, hi, and_true, true_and]
    · cases moves <;> simp [placed, hfull]
  · have hgrown : grown s.pool = s.pool.capacity := if_neg hfull
    rw [addConnection, if_neg hfull, Option.bind_some]
    simp only [if_pos (hgrown ▸ hnext), Option.map_some]
    refine ⟨_, rfl, habsent, ?_, hcount, hgrown.symm, rfl, hnext, fun i _ => ?_, ?_⟩
    · simp [placed, hfull]
    · simp only [Function.update_apply, hfull, false_and, if_false]
    · simp [placed, hfull]

theorem openConnection_present {conn : Entry}
    (h : s.connectionMap (getIdx srcPort destPort) = some conn) :
    openConnection moves srcPort destPort s = some (-1, s) := by
  simp only [openConnection, h, Option.isSome_some, if_true]

theorem closeConnection_none : closeConnection srcPort destPort s = none ↔
    ∃ conn, s.connectionMap (getIdx srcPort destPort) = some conn ∧
      conn.block ≠ s.pool.connections := by
  cases hc : s.connectionMap (getIdx srcPort destPort) with
  | none => simp [closeConnection, hc]
  | some conn => simp [closeConnection, hc]

theorem closeConnection_cases (h : closeConnection srcPort destPort s = some (ret, s')) :
    ret = -1 ∧ s' = s ∧ s.connectionMap (getIdx srcPort destPort) = none ∨
      ret = 0 ∧ Closed (getIdx srcPort destPort) s s' := by
  cases hc : s.connectionMap (getIdx srcPort destPort) with
  | none =>
    simp only [closeConnection, hc] at h
    cases h
    exact .inl ⟨rfl, rfl, rfl⟩
  | some conn =>
    simp only [closeConnection, hc] at h
    obtain ⟨hblock, he⟩ := Option.ite_none_right_eq_some.mp h
    cases he
    exact .inr ⟨rfl, ⟨conn, hc, hblock, rfl⟩, rfl⟩

end calls

theorem nextSlot_cases (pool : Pool) :
    pool.idleList = [] ∧ nextSlot pool = (pool.size, []) ∨
      ∃ idx rest, pool.idleList = idx :: rest ∧ nextSlot pool = (idx, rest) := by
  unfold nextSlot
  cases hl : pool.idleList with
  | nil => exact .inl ⟨rfl, rfl⟩
  | cons idx rest => exact .inr ⟨idx, rest, rfl, rfl⟩

/-- The entries over a run from `init(n)`. `size` counts all connections that were ever
opened, so the capacity does too, whatever has been closed; an entry from `idle_list` costs
the index that `size` passes over. -/
structure History.Slots (n : ℕ) (h : History) : Prop where
  size : h.sys.pool.size = h.opened
  closed : h.sys.pool.idleList.length + h.reused = h.closed
  fits : h.opened ≤ h.sys.pool.capacity
  doubled : ∃ k, h.sys.pool.capacity = n * 2 ^ k ∧ (k = 0 ∨ h.sys.pool.capacity < 2 * h.opened)
  /-- No two connections share an entry. -/
  distinct : ∀ {x y e e'}, h.sys.connectionMap x = some e → h.sys.connectionMap y = some e' →
    e.idx = e'.idx → x = y
  used : ∀ {x e}, h.sys.connectionMap x = some e → e.idx < h.opened ∧ e.idx ∉ h.sys.pool.idleList
  free : ∀ i ∈ h.sys.pool.idleList, i < h.opened
  nodup : h.sys.pool.idleList.Nodup
  /-- The flag of an entry tells whether a connection has it. -/
  flag : ∀ i < h.sys.pool.capacity,
    h.sys.pool.idle i = false ↔ ∃ x e, h.sys.connectionMap x = some e ∧ e.idx = i

/-- The keys of `ConnectionMap` are those of the connected pairs. -/
structure History.Keyed (h : History) : Prop where
  pairs : ∀ pair ∈ h.connected, IsPair pair
  keys : ∀ x, (h.sys.connectionMap x).isSome ↔ ∃ pair ∈ h.connected, getIdx pair.1 pair.2 = x

/-- Which entries are in blocks that have been moved. -/
structure History.Placed (h : History) : Prop where
  le : ∀ {x e}, h.sys.connectionMap x = some e → e.block ≤ h.sys.pool.connections
  moved : ∀ pair ∈ h.connected, ∀ {e}, h.sys.connectionMap (getIdx pair.1 pair.2) = some e →
    (e.block ≠ h.sys.pool.connections ↔ h.moved pair = true)

namespace History
variable {n : ℕ} {h h' : History}

theorem Slots.capacity_pos (hs : h.Slots n) (hn : 0 < n) : 0 < h.sys.pool.capacity := by
  obtain ⟨k, hcap, -⟩ := hs.doubled
  rw [hcap]
  exact Nat.mul_pos hn (by positivity)

/-- What a call may do to the tables. -/
theorem Slots.step_cases (hs : h.Slots n) (hn : 0 < n) {a : Act} (hfew : Few h a)
    (ha : h.step a = some h') : h' = h ∨
      (∃ srcPort destPort moves s', IsPair (srcPort, destPort) ∧
        Opened moves (getIdx srcPort destPort) h.sys s' ∧
        h' = h.afterOpen srcPort destPort moves s') ∨
      ∃ srcPort destPort s', IsPair (srcPort, destPort) ∧
        Closed (getIdx srcPort destPort) h.sys s' ∧ h' = h.afterClose srcPort destPort s' := by
  obtain ⟨hopened, hpair⟩ := hfew
  cases a with
  | openConnection srcPort destPort moves =>
    obtain ⟨⟨ret, s'⟩, hopen, rfl⟩ := Option.map_eq_some_iff.mp ha
    cases hc : h.sys.connectionMap (getIdx srcPort destPort) with
    | some conn =>
      rw [openConnection_present hc] at hopen
      cases hopen
      exact .inl rfl
    | none =>
      obtain ⟨s'', hopen', hspec⟩ := openConnection_absent moves hc
        (hs.size ▸ hopened) (hs.size ▸ hs.fits) (hs.capacity_pos hn) (hs.size ▸ hs.free)
      rw [hopen'] at hopen
      cases hopen
      exact .inr (.inl ⟨srcPort, destPort, moves, s', hpair, hspec, rfl⟩)
  | closeConnection srcPort destPort =>
    obtain ⟨⟨ret, s'⟩, hclose, rfl⟩ := Option.map_eq_some_iff.mp ha
    rcases closeConnection_cases hclose with ⟨rfl, rfl, -⟩ | ⟨rfl, hclosed⟩
    · exact .inl rfl
    · exact .inr (.inr ⟨srcPort, destPort, s', hpair, hclosed, rfl⟩)

theorem Slots.start (hi : (machine n).init h) : h.Slots n := by
  cases hi
  refine ⟨rfl, rfl, Nat.zero_le _, ⟨0, (Nat.mul_one n).symm, .inl rfl⟩, ?_, ?_, ?_, List.nodup_nil,
    fun i hi => ?_⟩
  · intro x y e e' hx
    cases hx
  · intro x e hx
    cases hx
  · intro i hi
    cases hi
  · have hidle : (init n).idle i = true := decide_eq_true hi
    change (init n).idle i = false ↔ _
    rw [hidle]
    refine iff_of_false Bool.noConfusion ?_
    rintro ⟨x, e, hx, -⟩
    cases hx

/-- The index that the next connection gets is nobody's. -/
theorem Slots.nextSlot (hs : h.Slots n) :
    (nextSlot h.sys.pool).1 < h.opened + 1 ∧
      (∀ {x e}, h.sys.connectionMap x = some e → e.idx ≠ (ConnectionPool.nextSlot h.sys.pool).1) ∧
      (ConnectionPool.nextSlot h.sys.pool).1 ∉ (ConnectionPool.nextSlot h.sys.pool).2 ∧
      (ConnectionPool.nextSlot h.sys.pool).2.Nodup ∧
      (∀ i ∈ (ConnectionPool.nextSlot h.sys.pool).2, i ∈ h.sys.pool.idleList) := by
  rcases nextSlot_cases h.sys.pool with ⟨-, he⟩ | ⟨idx, rest, hl, he⟩
  · rw [he]
    refine ⟨hs.size ▸ Nat.lt_succ_self _, fun hx heq => ?_, List.not_mem_nil, List.nodup_nil,
      fun i hi => (List.not_mem_nil hi).elim⟩
    have hlt := (hs.used hx).1
    rw [heq, hs.size] at hlt
    exact lt_irrefl _ hlt
  · rw [he]
    have hmem : idx ∈ h.sys.pool.idleList := hl ▸ List.mem_cons_self
    have hnodup := List.nodup_cons.mp (hl ▸ hs.nodup)
    refine ⟨Nat.lt_succ_of_lt (hs.free idx hmem), fun hx heq => ?_, hnodup.1, hnodup.2,
      fun i hi => hl ▸ List.mem_cons_of_mem _ hi⟩
    exact (hs.used hx).2 (heq ▸ hmem)

/-- The new connection's entry is marked, the entries of a doubled block are not. -/
theorem Slots.open_flag (hs : h.Slots n) {srcPort destPort : ℕ} {moves : Bool} {s' : Sys}
    (ho : Opened moves (getIdx srcPort destPort) h.sys s') {i : ℕ} (hi : i < grown h.sys.pool) :
    s'.pool.idle i = false ↔ ∃ x e, s'.connectionMap x = some e ∧ e.idx = i := by
  rw [ho.idle i hi]
  by_cases hslot : i = (ConnectionPool.nextSlot h.sys.pool).1
  · rw [if_pos hslot]
    refine iff_of_true rfl ⟨getIdx srcPort destPort,
      ⟨placed moves h.sys.pool, (ConnectionPool.nextSlot h.sys.pool).1⟩, ?_, hslot.symm⟩
    rw [ho.connectionMap, Function.update_self]
  · rw [if_neg hslot]
    have hold : (∃ x e, s'.connectionMap x = some e ∧ e.idx = i) ↔
        ∃ x e, h.sys.connectionMap x = some e ∧ e.idx = i := by
      constructor
      · rintro ⟨x, e, hx, he⟩
        rcases ho.lookup hx with ⟨-, hnew⟩ | ⟨-, hx⟩
        · exact absurd (he.symm.trans (congrArg Entry.idx hnew)) hslot
        · exact ⟨x, e, hx, he⟩
      · rintro ⟨x, e, hx, he⟩
        exact ⟨x, e, ho.kept hx, he⟩
    rw [hold]
    rw [grown] at hi
    by_cases hnew : h.sys.pool.size = h.sys.pool.capacity ∧ h.sys.pool.size ≤ i
    · rw [if_pos hnew]
      refine iff_of_false Bool.noConfusion ?_
      rintro ⟨x, e, hx, he⟩
      have hlt := (hs.used hx).1
      rw [he, ← hs.size] at hlt
      exact absurd hlt (not_lt.mpr hnew.2)
    · rw [if_neg hnew]
      refine hs.flag i ?_
      split_ifs at hi with hfull
      · exact hfull ▸ not_le.mp fun hle => hnew ⟨hfull, hle⟩
      · exact hi

theorem Slots.open (hs : h.Slots n) {srcPort destPort : ℕ} {moves : Bool} {s' : Sys}
    (ho : Opened moves (getIdx srcPort destPort) h.sys s') :
    (h.afterOpen srcPort destPort moves s').Slots n := by
  obtain ⟨hlt, hfresh, hnotin, hnodup, hsub⟩ := hs.nextSlot
  refine ⟨ho.size.trans (congrArg (· + 1) hs.size), ?_, ?_, ?_, ?_, ?_, ?_, ?_, ?_⟩
  · have hclosed := hs.closed
    change s'.pool.idleList.length + (if _ then _ else _) = h.closed
    rw [ho.idleList, ← hclosed]
    rcases nextSlot_cases h.sys.pool with ⟨hl, he⟩ | ⟨idx, rest, hl, he⟩
    · rw [if_pos hl, he, hl]
    · rw [if_neg (by rw [hl]; exact List.cons_ne_nil _ _), he, hl, List.length_cons]
      exact (Nat.add_right_comm _ 1 _).symm
  · change h.opened + 1 ≤ s'.pool.capacity
    have hfits := hs.fits
    have hsize := hs.size
    rw [ho.capacity, grown]
    have hroom := ho.room
    rw [grown] at hroom
    split_ifs at hroom ⊢ <;> omega
  · obtain ⟨k, hcap, hk⟩ := hs.doubled
    change ∃ k, s'.pool.capacity = n * 2 ^ k ∧ (k = 0 ∨ s'.pool.capacity < 2 * (h.opened + 1))
    rw [ho.capacity, grown]
    split_ifs with hfull
    · refine ⟨k + 1, by rw [hcap, pow_succ, Nat.mul_assoc], .inr ?_⟩
      rw [← hfull, hs.size]
      omega
    · exact ⟨k, hcap, hk.imp_right fun hlt => by omega⟩
  · intro x y e e' hx hy he
    rcases ho.lookup hx with ⟨hx', hex⟩ | ⟨-, hx⟩ <;>
      rcases ho.lookup hy with ⟨hy', hey⟩ | ⟨-, hy⟩
    · exact hx'.trans hy'.symm
    · exact absurd (he.symm.trans (congrArg Entry.idx hex)) (hfresh hy)
    · exact absurd (he.trans (congrArg Entry.idx hey)) (hfresh hx)
    · exact hs.distinct hx hy he
  · intro x e hx
    change e.idx < h.opened + 1 ∧ e.idx ∉ s'.pool.idleList
    rw [ho.idleList]
    rcases ho.lookup hx with ⟨-, rfl⟩ | ⟨-, hx⟩
    · exact ⟨hlt, hnotin⟩
    · exact ⟨Nat.lt_succ_of_lt (hs.used hx).1, fun hi => (hs.used hx).2 (hsub _ hi)⟩
  · intro i hi
    rw [show (h.afterOpen srcPort destPort moves s').sys.pool.idleList = _ from ho.idleList] at hi
    exact Nat.lt_succ_of_lt (hs.free i (hsub i hi))
  · change s'.pool.idleList.Nodup
    rw [ho.idleList]
    exact hnodup
  · intro i hi
    rw [show (h.afterOpen srcPort destPort moves s').sys.pool.capacity = _ from ho.capacity] at hi
    change s'.pool.idle i = false ↔ ∃ x e, s'.connectionMap x = some e ∧ e.idx = i
    exact hs.open_flag ho hi

theorem Slots.close (hs : h.Slots n) {srcPort destPort : ℕ} {s' : Sys}
    (hc : Closed (getIdx srcPort destPort) h.sys s') :
    (h.afterClose srcPort destPort s').Slots n := by
  obtain ⟨conn, hconn, -, hpool⟩ := hc.entry
  obtain ⟨hlt, hnot⟩ := hs.used hconn
  have hother : ∀ {x e}, s'.connectionMap x = some e → e.idx ≠ conn.idx := fun hx he =>
    (hc.lookup hx).1 (hs.distinct (hc.lookup hx).2 hconn he)
  obtain ⟨pool, connectionMap⟩ := s'
  obtain rfl : pool = _ := hpool
  refine ⟨hs.size, ?_, hs.fits, hs.doubled,
    fun hx hy => hs.distinct (hc.lookup hx).2 (hc.lookup hy).2,
    fun hx => ⟨(hs.used (hc.lookup hx).2).1, ?_⟩, fun i hi => ?_, ?_, fun i hi => ?_⟩
  · have hclosed := hs.closed
    change (h.sys.pool.idleList ++ [conn.idx]).length + h.reused = h.closed + 1
    rw [List.length_append, List.length_singleton]
    omega
  · intro hi
    rcases List.mem_append.mp hi with hi | hi
    · exact (hs.used (hc.lookup hx).2).2 hi
    · exact hother hx (List.mem_singleton.mp hi)
  · rcases List.mem_append.mp hi with hi | hi
    · exact hs.free i hi
    · exact (List.mem_singleton.mp hi) ▸ hlt
  · change (h.sys.pool.idleList ++ [conn.idx]).Nodup
    rw [← List.concat_eq_append]
    exact hs.nodup.concat hnot
  · change Function.update h.sys.pool.idle conn.idx true i = false ↔
      ∃ x e, connectionMap x = some e ∧ e.idx = i
    by_cases he : i = conn.idx
    · rw [he, Function.update_self]
      refine iff_of_false Bool.noConfusion ?_
      rintro ⟨x, e, hx, hidx⟩
      exact hother hx hidx
    · rw [Function.update_of_ne he, hs.flag i hi]
      constructor
      · rintro ⟨x, e, hx, rfl⟩
        have hne : x ≠ getIdx srcPort destPort := fun heq => by
          rw [heq, hconn] at hx
          cases hx
          exact he rfl
        exact ⟨x, e, hc.kept hne hx, rfl⟩
      · rintro ⟨x, e, hx, hidx⟩
        exact ⟨x, e, (hc.lookup hx).2, hidx⟩

theorem Slots.step (hs : h.Slots n) (hn : 0 < n) {a : Act} (hfew : Few h a)
    (ha : h.step a = some h') : h'.Slots n := by
  rcases hs.step_cases hn hfew ha with rfl | ⟨_, _, _, _, -, ho, rfl⟩ | ⟨_, _, _, -, hc, rfl⟩
  · exact hs
  · exact hs.open ho
  · exact hs.close hc

theorem slots_of_reachable (hn : 0 < n) (hr : (machine n).Reachable Few h) : h.Slots n := by
  have hstart : ∀ h, (machine n).init h → h.Slots n := fun _ => Slots.start
  exact hr.invariant hstart fun h a h' hs hfew ha => hs.step hn hfew ha

theorem Keyed.start (hi : (machine n).init h) : h.Keyed := by
  cases hi
  refine ⟨nofun, fun x => iff_of_false Bool.noConfusion ?_⟩
  rintro ⟨pair, hpair, -⟩
  cases hpair

theorem Keyed.open (hk : h.Keyed) {srcPort destPort : ℕ} {moves : Bool} {s' : Sys}
    (hpair : IsPair (srcPort, destPort)) (ho : Opened moves (getIdx srcPort destPort) h.sys s') :
    (h.afterOpen srcPort destPort moves s').Keyed := by
  refine ⟨List.forall_mem_cons.mpr ⟨hpair, hk.pairs⟩, fun x => ?_⟩
  change (s'.connectionMap x).isSome ↔ ∃ pair ∈ (srcPort, destPort) :: h.connected, _
  rw [ho.connectionMap, List.exists_mem_cons_iff]
  by_cases hx : x = getIdx srcPort destPort
  · rw [hx, Function.update_self]
    exact iff_of_true rfl (.inl rfl)
  · rw [Function.update_of_ne hx, hk.keys]
    exact (or_iff_right (Ne.symm hx)).symm

theorem Keyed.close (hk : h.Keyed) {srcPort destPort : ℕ} {s' : Sys}
    (hpair : IsPair (srcPort, destPort)) (hc : Closed (getIdx srcPort destPort) h.sys s') :
    (h.afterClose srcPort destPort s').Keyed := by
  refine ⟨fun pair hmem => hk.pairs pair (List.mem_of_mem_filter hmem), fun x => ?_⟩
  change (s'.connectionMap x).isSome ↔
    ∃ pair ∈ h.connected.filter (· ≠ (srcPort, destPort)), getIdx pair.1 pair.2 = x
  rw [hc.connectionMap]
  simp only [List.mem_filter, decide_eq_true_eq]
  by_cases hx : x = getIdx srcPort destPort
  · rw [hx, Function.update_self]
    refine iff_of_false Bool.noConfusion ?_
    rintro ⟨pair, ⟨hmem, hne⟩, he⟩
    exact hne (getIdx_inj (hk.pairs pair hmem) hpair he)
  · rw [Function.update_of_ne hx, hk.keys]
    constructor
    · rintro ⟨pair, hmem, rfl⟩
      exact ⟨pair, ⟨hmem, fun he => hx (by rw [he])⟩, rfl⟩
    · rintro ⟨pair, ⟨hmem, -⟩, he⟩
      exact ⟨pair, hmem, he⟩

theorem Keyed.mem_iff (hk : h.Keyed) {srcPort destPort : ℕ} (hpair : IsPair (srcPort, destPort)) :
    (srcPort, destPort) ∈ h.connected ↔ (h.sys.connectionMap (getIdx srcPort destPort)).isSome := by
  rw [hk.keys]
  constructor
  · exact fun hmem => ⟨_, hmem, rfl⟩
  · rintro ⟨pair, hmem, he⟩
    exact getIdx_inj (hk.pairs pair hmem) hpair he ▸ hmem

theorem Placed.start (hi : (machine n).init h) : h.Placed := by
  cases hi
  exact ⟨nofun, nofun⟩

theorem Placed.open (hp : h.Placed) (hk : h.Keyed) {srcPort destPort : ℕ} {moves : Bool}
    {s' : Sys} (hpair : IsPair (srcPort, destPort))
    (ho : Opened moves (getIdx srcPort destPort) h.sys s') :
    (h.afterOpen srcPort destPort moves s').Placed := by
  have hblock : (h.afterOpen srcPort destPort moves s').sys.pool.connections =
      placed moves h.sys.pool := ho.connections
  refine ⟨fun {x e} hx => ?_, fun pair hmem {e} hx => ?_⟩
  · rw [hblock]
    rcases ho.lookup hx with ⟨-, rfl⟩ | ⟨-, hx⟩
    · exact le_rfl
    · have hle := hp.le hx
      unfold placed
      split_ifs <;> omega
  · rw [hblock]
    have hnew := List.forall_mem_cons.mpr ⟨hpair, hk.pairs⟩ pair hmem
    rcases ho.lookup hx with ⟨hx', rfl⟩ | ⟨hne, hx⟩
    · refine iff_of_false (not_not.mpr rfl) ?_
      simp only [getIdx_inj hnew hpair hx', afterOpen, Function.update_self]
      exact Bool.noConfusion
    · have hpne : pair ≠ (srcPort, destPort) := fun he => hne (by rw [he])
      have hle := hp.le hx
      have hmoved := hp.moved pair (List.mem_of_ne_of_mem hpne hmem) hx
      simp only [afterOpen, Function.update_of_ne hpne, Bool.or_eq_true, Bool.and_eq_true,
        decide_eq_true_eq, ← hmoved, placed]
      split_ifs with hfull
      · exact iff_of_true (by omega) (.inr hfull)
      · exact (or_iff_left hfull).symm

theorem Placed.close (hp : h.Placed) {srcPort destPort : ℕ} {s' : Sys}
    (hc : Closed (getIdx srcPort destPort) h.sys s') :
    (h.afterClose srcPort destPort s').Placed := by
  obtain ⟨conn, -, -, hpool⟩ := hc.entry
  have hblock : s'.pool.connections = h.sys.pool.connections := by rw [hpool]
  refine ⟨fun hx => ?_, fun pair hmem {e} hx => ?_⟩
  · exact (hp.le (hc.lookup hx).2).trans_eq hblock.symm
  · change (_ ≠ s'.pool.connections ↔ _)
    rw [hblock]
    exact hp.moved pair (List.mem_of_mem_filter hmem) (hc.lookup hx).2

theorem records_of_reachable (hn : 0 < n) (hr : (machine n).Reachable Few h) :
    h.Keyed ∧ h.Placed := by
  have hstart : ∀ h, (machine n).init h → h.Slots n ∧ h.Keyed ∧ h.Placed := fun _ hi =>
    ⟨.start hi, .start hi, .start hi⟩
  refine (hr.invariant hstart fun h a h' hs hfew ha => ⟨hs.1.step hn hfew ha, ?_⟩).2
  rcases hs.1.step_cases hn hfew ha with rfl | ⟨_, _, _, _, hpair, ho, rfl⟩ |
    ⟨_, _, _, hpair, hc, rfl⟩
  · exact hs.2
  · exact ⟨hs.2.1.open hpair ho, hs.2.2.open hs.2.1 hpair ho⟩
  · exact ⟨hs.2.1.close hpair hc, hs.2.2.close hc⟩

end History

/-- A connection whose block has been moved. -/
def Stranded (x : ℤ) (s : Sys) : Prop :=
  ∃ e, s.connectionMap x = some e ∧ e.block < s.pool.connections

variable {n : ℕ} {h h' : History}

theorem Stranded.step {x : ℤ} (hx : Stranded x h.sys) (hs : h.Slots n) (hn : 0 < n) {a : Act}
    (hfew : Few h a) (ha : h.step a = some h') : Stranded x h'.sys := by
  obtain ⟨e, he, hlt⟩ := hx
  rcases hs.step_cases hn hfew ha with rfl | ⟨_, _, moves, s', -, ho, rfl⟩ |
    ⟨srcPort, destPort, s', -, hc, rfl⟩
  · exact ⟨e, he, hlt⟩
  · refine ⟨e, ho.kept he, hlt.trans_le ?_⟩
    change _ ≤ s'.pool.connections
    rw [ho.connections, placed]
    split_ifs <;> omega
  · obtain ⟨conn, hconn, hblock, hpool⟩ := hc.entry
    have hne : x ≠ getIdx srcPort destPort := fun heq => by
      rw [heq, hconn] at he
      cases he
      exact absurd hblock hlt.ne
    refine ⟨e, hc.kept hne he, ?_⟩
    change _ < s'.pool.connections
    rw [hpool]
    exact hlt

/-- In every run of fewer than `2 ^ 30` opens from a pool that is not empty, the accesses of
`openConnection` are all inside the block, it returns -1 exactly for a pair that is
connected, connections have entries of their own, and `idle_list` holds no entry in use. The
capacity is the first doubling that holds all connections ever opened. -/
theorem entries_of_opens (hn : 0 < n) (hr : (machine n).Reachable Few h) :
    h.Slots n ∧ h.Keyed ∧ ∀ srcPort destPort moves,
      Few h (.openConnection srcPort destPort moves) →
      ∃ s', openConnection moves srcPort destPort h.sys =
        some (if (srcPort, destPort) ∈ h.connected then -1 else 0, s') := by
  have hs := History.slots_of_reachable hn hr
  obtain ⟨hkeyed, -⟩ := History.records_of_reachable hn hr
  refine ⟨hs, hkeyed, fun srcPort destPort moves ⟨hfew, hpair⟩ => ?_⟩
  simp only [hkeyed.mem_iff hpair]
  cases hc : h.sys.connectionMap (getIdx srcPort destPort) with
  | some conn => exact ⟨h.sys, openConnection_present hc⟩
  | none =>
    obtain ⟨s', hopen, -⟩ := openConnection_absent moves hc (hs.size ▸ hfew)
      (hs.size ▸ hs.fits) (hs.capacity_pos hn) (hs.size ▸ hs.free)
    exact ⟨s', hopen⟩

/-- The history of a schedule from `init(1)` with a test of where it ends. -/
theorem reachable_of_schedule {l : List Act} {P : History → Bool}
    (hP : (((machine 1).guarded fun h a => decide (Few h a)).run
      ⟨⟨init 1, fun _ => none⟩, 0, 0, 0, [], fun _ => false⟩ l).any P = true) :
    ∃ h, (machine 1).Reachable Few h ∧ P h = true :=
  reachable_of_guarded (C := Few) (fun _ _ => of_decide_eq_true) rfl hP

/-- A pair that is closed and opened again doubles the table, and only it is connected. -/
theorem entries_of_opens_reopened : ∃ h : History, (h.opened = 2 ∧ h.closed = 1 ∧
    h.sys.pool.capacity = 2 ∧ h.sys.pool.idleList = []) ∧ h.Slots 1 ∧
    ∃ s s', openConnection true 1 2 h.sys = some (-1, s) ∧
      openConnection true 2 1 h.sys = some (0, s') := by
  obtain ⟨h, hr, hP⟩ := reachable_of_schedule
    (l := [.openConnection 1 2 true, .closeConnection 1 2, .openConnection 1 2 true])
    (P := fun h => decide ((h.opened = 2 ∧ h.closed = 1 ∧ h.sys.pool.capacity = 2 ∧
      h.sys.pool.idleList = []) ∧ h.connected = [(1, 2)])) (by decide +kernel)
  obtain ⟨hcounts, hconnected⟩ := of_decide_eq_true hP
  obtain ⟨hs, -, hopens⟩ := entries_of_opens Nat.one_pos hr
  have hfew : h.opened < 2 ^ 30 := by rw [hcounts.1]; decide
  obtain ⟨s, hs₁⟩ := hopens 1 2 true ⟨hfew, by decide, by decide⟩
  obtain ⟨s', hs₂⟩ := hopens 2 1 true ⟨hfew, by decide, by decide⟩
  simp only [hconnected] at hs₁ hs₂
  exact ⟨h, hcounts, hs, s, s', hs₁, hs₂⟩

/-- `closeConnection` follows a dangling pointer exactly for the connections of which the
block was moved after they were opened, and for these in every later state as well; until
then `openConnection` returns -1 for them. -/
theorem close_dangles (hn : 0 < n) (hr : (machine n).Reachable Few h) {srcPort destPort : ℕ}
    (hpair : IsPair (srcPort, destPort)) :
    (closeConnection srcPort destPort h.sys = none ↔
      (srcPort, destPort) ∈ h.connected ∧ h.moved (srcPort, destPort) = true) ∧
    (closeConnection srcPort destPort h.sys = none → ∀ h', (machine n).Steps Few h h' →
      closeConnection srcPort destPort h'.sys = none ∧
        ∀ moves, openConnection moves srcPort destPort h'.sys = some (-1, h'.sys)) := by
  obtain ⟨hkeyed, hp⟩ := History.records_of_reachable hn hr
  refine ⟨?_, fun hnone h' hsteps => ?_⟩
  · rw [closeConnection_none]
    constructor
    · rintro ⟨conn, hconn, hblock⟩
      have hmem := (hkeyed.mem_iff hpair).mpr (Option.isSome_of_eq_some hconn)
      exact ⟨hmem, (hp.moved _ hmem hconn).mp hblock⟩
    · rintro ⟨hmem, hmoved⟩
      obtain ⟨conn, hconn⟩ := Option.isSome_iff_exists.mp ((hkeyed.mem_iff hpair).mp hmem)
      exact ⟨conn, hconn, (hp.moved _ hmem hconn).mpr hmoved⟩
  · obtain ⟨conn, hconn, hblock⟩ := closeConnection_none.mp hnone
    have hstranded : Stranded (getIdx srcPort destPort) h.sys :=
      ⟨conn, hconn, lt_of_le_of_ne (hp.le hconn) hblock⟩
    have hlater : h'.Slots n ∧ Stranded (getIdx srcPort destPort) h'.sys := by
      refine hsteps.preserves
        (P := fun h => h.Slots n ∧ Stranded (getIdx srcPort destPort) h.sys) ?_
        ⟨History.slots_of_reachable hn hr, hstranded⟩
      rintro h a h' ⟨hs, hx⟩ hfew ha
      exact ⟨hs.step hn hfew ha, hx.step hs hn hfew ha⟩
    obtain ⟨e, he, hlt⟩ := hlater.2
    exact ⟨closeConnection_none.mpr ⟨e, he, hlt.ne⟩, fun moves => openConnection_present he⟩

/-- The second connection moves the block of the first. -/
theorem close_dangles_second : ∃ h, (machine 1).Reachable Few h ∧
    ∀ h', (machine 1).Steps Few h h' → closeConnection 1 2 h'.sys = none := by
  obtain ⟨h, hr, hP⟩ := reachable_of_schedule
    (l := [.openConnection 1 2 true, .openConnection 3 4 true])
    (P := fun h => decide ((1, 2) ∈ h.connected ∧ h.moved (1, 2) = true)) (by decide +kernel)
  have hpair : IsPair (1, 2) := ⟨by decide, by decide⟩
  have hdangles := close_dangles Nat.one_pos hr hpair
  have hnone := hdangles.1.mpr (of_decide_eq_true hP)
  exact ⟨h, hr, fun h' hsteps => (hdangles.2 hnone h' hsteps).1⟩

end ShmSocket.ConnectionPool
