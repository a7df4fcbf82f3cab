import ShmSocket.IndexTable.Table
import ShmSocket.Pool.Partition
import ShmSocket.RingBuffer.Sequential

/-! The rings of all port pairs: the index tables and the pool hand out indices, an
index names a shared memory segment, and every process keeps the segments it has
attached. The functions of `RingBuffer.cpp` run one at a time. -/
namespace ShmSocket
open Indices

/-- The key that `rb_init` gives to `shmget`, `idx << 16` in an `int`. -/
def ringKey (idx : ℕ) : ℤ := i32 (idx * 2 ^ 16 % 2 ^ 32)

/-- Segments by key. Key 0 is `IPC_PRIVATE`; the handle a process keeps for its index is
the only way to such a segment. -/
inductive Segment where
  | shared (key : ℤ)
  | own (p : Pid) (idx : ℕ)
  deriving DecidableEq

/-- The segment that process `p` attaches for an index. -/
def segmentOf (p : Pid) (idx : ℕ) : Segment :=
  if ringKey idx = 0 then .own p idx else .shared (ringKey idx)

/-- `nattch` counts the attachments of a segment, `memo` are the keys of `rb_memo`. -/
structure Rings where
  tables : Tables Cell
  ring : Segment → Ring
  nattch : Segment → ℕ
  memo : Pid × ℕ → Bool

namespace Rings

/-- `none` when the pool would have to grow: the key of the next channel is computed from
the member `key`, which nothing initializes. -/
def getIdx (s : Rings) (p : Pid) (pair : Pair) : Option (ℕ × Rings) :=
  let (k, tables) := Indices.getIdx 0 s.tables (cell p pair)
  if tables.pool.length = s.tables.pool.length then some (k, { s with tables }) else none

/-- Attach the segment of an index; the first one to attach it resets the header. -/
def rbInit (s : Rings) (p : Pid) (idx : ℕ) : Rings :=
  let seg := segmentOf p idx
  { s with
    ring :=
      if s.nattch seg = 0 then
        Function.update s.ring seg { s.ring seg with head := 0, tail := 0, oldtail := 0 }
      else s.ring
    nattch := Function.update s.nattch seg (s.nattch seg + 1) }

/-- `rb_get(k)`, which finds or makes the handle of process `p` for `k`. -/
def rbGet (s : Rings) (p : Pid) (k : ℕ) : Rings :=
  if s.memo (p, k) then s
  else { s.rbInit p k with memo := Function.update s.memo (p, k) true }

/-- `rb_write` through the handle of process `p` for `k`. -/
def write (s : Rings) (p : Pid) (k : ℕ) (buf : List Byte) : Option (ℤ × Rings) :=
  (rbWrite (s.ring (segmentOf p k)) buf.length fun i => buf.getD i 0).map fun (ret, r) =>
    (ret, { s with ring := Function.update s.ring (segmentOf p k) r })

/-- `rb_read` through the handle of process `p` for `k`: the bytes it returns. -/
def read (s : Rings) (p : Pid) (k len : ℕ) : List Byte × Rings :=
  let (ret, r, output) := rbRead (s.ring (segmentOf p k)) len fun _ => 0
  ((List.range ret.toNat).map output,
    { s with ring := Function.update s.ring (segmentOf p k) r })

/-- `rb_get(get_idx(..))`, as every socket call does first. -/
def openRing (s : Rings) (p : Pid) (pair : Pair) : Option (ℕ × Rings) :=
  (s.getIdx p pair).map fun (k, s) => (k, s.rbGet p k)

/-- What `close` does with the ring of a pair: `rb_get(get_idx(..))`, `clear_idx`,
`rb_destroy`. -/
def closeRing (s : Rings) (p : Pid) (pair : Pair) : Option Rings :=
  (s.openRing p pair).bind fun (k, s) =>
    let tables := clearIdx s.tables (cell p pair)
    (poolRelease k tables.pool).map fun pool => { s with tables := { tables with pool } }

end Rings

end ShmSocket
