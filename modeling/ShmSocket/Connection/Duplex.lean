import ShmSocket.Connection.RingsInv
import ShmSocket.Connection.Objects
import ShmSocket.Segment.Keys

/-! `Connection` objects with their rings, in a pool that grows. As long as no destructor
runs, all objects of one direction of a pair share a queue, and `read` and `write` never
fail. -/
namespace ShmSocket.Duplex
open StepMachine Indices
open Objects (Connection)

/-- `sent c` are the bytes that calls of `write` got accepted for the entry `c`, and
`received c` those that calls of `read` returned from it. -/
structure Sys where
  rings : Rings
  live : ℕ → Option Connection
  sent : Cell → List Byte
  received : Cell → List Byte

/-- `key` and `key'` are the keys of the channels that the two `pool_get` may have to make. -/
inductive Act where
  | construct (o : ℕ) (p : Pid) (src dst key key' : ℕ)
  | write (o : ℕ) (buf : List Byte)
  | read (o : ℕ) (len : ℕ)

namespace Sys

/-- `rb_init(get_idx(..))`. An index from 2^16 on has no step: `rb_init` shifts its high bits
out of the key, so that its segment is that of another index. -/
def initRing (r : Rings) (p : Pid) (key : ℕ) (pair : Pair) : Option (ℕ × Rings) :=
  let (k, tables) := Indices.getIdx key r.tables (cell p pair)
  if k < 2 ^ 16 then some (k, Rings.rbInit { r with tables } p k) else none

/-- `Connection::Connection` -/
def construct (r : Rings) (p : Pid) (src dst key key' : ℕ) : Option (Connection × Rings) :=
  (initRing r p key (src, dst)).bind fun (readRB, r) =>
    (initRing r p key' (dst, src)).map fun (writeRB, r) => (⟨p, src, dst, readRB, writeRB⟩, r)

def step (s : Sys) : Act → Option Sys
  | .construct o p src dst key key' =>
      if s.live o = none ∧ src < 65536 ∧ dst < 65536 then
        (construct s.rings p src dst key key').map fun (c, rings) =>
          { s with rings, live := Function.update s.live o (some c) }
      else none
  | .write o buf =>
      (s.live o).bind fun c => (s.rings.write c.p c.writeRB buf).map fun (ret, rings) =>
        { s with
          rings
          sent := Function.update s.sent c.writeCell
            (s.sent c.writeCell ++ buf.take ret.toNat) }
  | .read o len =>
      (s.live o).map fun c =>
        let (bytes, rings) := s.rings.read c.p c.readRB len
        { s with
          rings
          received := Function.update s.received c.readCell (s.received c.readCell ++ bytes) }

end Sys

/-- Empty tables, a pool of one channel, no attached rings, no objects. -/
def machine : StepMachine Sys Act where
  init s := (∃ a : Address, s.rings.tables = ⟨[a.init], fun _ => 0⟩) ∧
    (∀ seg, s.rings.nattch seg = 0) ∧ (∀ h, s.rings.memo h = false) ∧
    (∀ o, s.live o = none) ∧ (∀ c, s.sent c = []) ∧ ∀ c, s.received c = []
  step := Sys.step

/-- An index that `rb_init` shifts no bit of out of the key. -/
def InKey (k : ℕ) : Prop := 0 < k ∧ k < 2 ^ 16

/-- The segment of an index. -/
def segment (k : ℕ) : Segment := .shared (ringKey k)

section rings
variable {r r' : Rings} {p : Pid} {pair : Pair} {c c' : Cell} {key k : ℕ}

/-- All processes attach the same segment for an index. -/
theorem segmentOf_segment (p : Pid) (h : InKey k) : segmentOf p k = segment k := by
  obtain ⟨hpos, hlt⟩ := h
  have hne : ringKey k ≠ 0 := by
    rw [Ne, Keys.ringKey_eq_zero, Nat.mod_eq_of_lt hlt]
    exact hpos.ne'
  rw [segmentOf, if_neg hne, segment]

theorem segment_inj {j : ℕ} (hj : InKey j) (hk : InKey k) (h : segment j = segment k) : j = k := by
  have hmod := Keys.ringKey_eq_iff.mp (Segment.shared.inj h)
  rwa [Nat.mod_eq_of_lt hj.2, Nat.mod_eq_of_lt hk.2] at hmod

/-- The bytes that `rb_read` will deliver from the ring of an index. -/
def unread (r : Rings) (k : ℕ) : List Byte :=
  if r.nattch (segment k) = 0 then [] else (r.ring (segment k)).queue

/-- The bytes in the ring of a table entry. -/
def pending (r : Rings) (c : Cell) : List Byte :=
  if r.tables.table c = 0 then [] else unread r (r.tables.table c)

/-- Every index in an entry has its own segment, and only these are attached. -/
structure Sound (r : Rings) : Prop where
  indices : ∃ ls, Partitioned r.tables ls
  small : ∀ c, r.tables.table c < 2 ^ 16
  settled : ∀ seg, r.nattch seg ≠ 0 → (r.ring seg).Settled
  owned : ∀ k, InKey k → r.nattch (segment k) ≠ 0 → ∃ c, r.tables.table c = k

theorem Sound.inKey (h : Sound r) (hc : r.tables.table c ≠ 0) : InKey (r.tables.table c) :=
  ⟨Nat.pos_of_ne_zero hc, h.small c⟩

theorem Sound.entry_unique (h : Sound r) (hc : r.tables.table c ≠ 0)
    (he : r.tables.table c = r.tables.table c') : c = c' := by
  obtain ⟨ls, hls⟩ := h.indices
  exact hls.distinct c c' hc he

theorem Sound.pending_lt (h : Sound r) (c : Cell) : (pending r c).length < shmDataSize := by
  unfold pending unread
  split_ifs with hc hn
  · exact shmDataSize_pos
  · exact shmDataSize_pos
  · exact (h.settled _ hn).queue_lt

theorem getIdx_other (hc : c' ≠ c) :
    (Indices.getIdx key r.tables c).2.table c' = r.tables.table c' := by
  unfold Indices.getIdx
  split_ifs
  · exact Function.update_of_ne hc _ _
  · rfl

/-- What `get_idx` leaves. An index that it takes from the pool, which may have grown for it,
has no bytes: nobody has attached its segment. -/
theorem Sound.getIdx (h : Sound r) (key : ℕ) (c : Cell)
    (hk : (Indices.getIdx key r.tables c).1 < 2 ^ 16) :
    Sound { r with tables := (Indices.getIdx key r.tables c).2 } ∧
      InKey (Indices.getIdx key r.tables c).1 ∧
      (Indices.getIdx key r.tables c).2.table c = (Indices.getIdx key r.tables c).1 ∧
      pending { r with tables := (Indices.getIdx key r.tables c).2 } = pending r := by
  obtain ⟨ls, hls⟩ := h.indices
  obtain ⟨ls', hls', hentry, hne⟩ := hls.getIdx key c
  have hkeeps : ∀ c', r.tables.table c' ≠ 0 →
      (Indices.getIdx key r.tables c).2.table c' = r.tables.table c' := fun c' =>
    Objects.getIdx_keeps key
  have hother : ∀ c', c' ≠ c →
      (Indices.getIdx key r.tables c).2.table c' = r.tables.table c' := fun c' =>
    getIdx_other
  generalize Indices.getIdx key r.tables c = x at hk hls' hentry hne hkeeps hother
  refine ⟨⟨⟨ls', hls'⟩, fun c' => ?_, h.settled, fun j hj hn => ?_⟩,
    ⟨Nat.pos_of_ne_zero hne, hk⟩, hentry, funext fun c' => ?_⟩
  · by_cases hc : c' = c
    · rw [hc]
      exact hentry.trans_lt hk
    · exact (hother c' hc).trans_lt (h.small c')
  · obtain ⟨c', rfl⟩ := h.owned j hj hn
    exact ⟨c', hkeeps c' hj.1.ne'⟩
  · unfold pending
    by_cases hold : r.tables.table c' = 0
    · rw [if_pos hold]
      by_cases hc : c' = c
      · -- a new index, which no entry had before
        have hnone : r.nattch (segment x.1) = 0 := by
          by_contra hn
          obtain ⟨d, hd⟩ := h.owned x.1 ⟨Nat.pos_of_ne_zero hne, hk⟩ hn
          have hd' := (hkeeps d (hd.trans_ne hne)).trans hd
          obtain rfl := hls'.distinct d c (hd'.trans_ne hne) (hd'.trans hentry.symm)
          exact hne (hd.symm.trans (hc ▸ hold))
        simp only [hc, hentry, if_neg hne]
        exact if_pos hnone
      · rw [if_pos ((hother c' hc).trans hold)]
    · simp only [hkeeps c' hold]
      rfl

/-- What `rb_init` leaves: only a ring that nobody has attached is reset. -/
theorem Sound.rbInit (h : Sound r) (hk : InKey k) (hc : r.tables.table c = k) (p : Pid) :
    Sound (r.rbInit p k) ∧ (r.rbInit p k).nattch (segment k) ≠ 0 ∧
      (∀ seg, r.nattch seg ≠ 0 → (r.rbInit p k).nattch seg ≠ 0) ∧
      pending (r.rbInit p k) = pending r := by
  have hseg := segmentOf_segment p hk
  have hself : (r.rbInit p k).nattch (segment k) = r.nattch (segment k) + 1 := by
    simp only [Rings.rbInit, hseg, Function.update_self]
  have hother : ∀ seg, seg ≠ segment k → (r.rbInit p k).nattch seg = r.nattch seg ∧
      (r.rbInit p k).ring seg = r.ring seg := by
    intro seg hne
    simp only [Rings.rbInit, hseg]
    refine ⟨Function.update_of_ne hne _ _, ?_⟩
    split_ifs
    · exact Function.update_of_ne hne _ _
    · rfl
  have hring : (r.rbInit p k).ring (segment k) = if r.nattch (segment k) = 0 then
      { r.ring (segment k) with head := 0, tail := 0, oldtail := 0 }
      else r.ring (segment k) := by
    simp only [Rings.rbInit, hseg]
    split_ifs
    · exact Function.update_self _ _ _
    · rfl
  have htables : (r.rbInit p k).tables = r.tables := rfl
  generalize r.rbInit p k = r' at hself hother hring htables
  have hunread : ∀ j, unread r' j = unread r j := by
    intro j
    unfold unread
    by_cases hj : segment j = segment k
    · rw [hj, hself, if_neg (Nat.succ_ne_zero _), hring]
      split_ifs
      · rfl
      · rfl
    · rw [(hother _ hj).1, (hother _ hj).2]
  refine ⟨⟨htables ▸ h.indices, htables ▸ h.small, fun seg hn => ?_, fun j hj hn => ?_⟩, ?_,
    fun seg hn => ?_, ?_⟩
  · by_cases he : seg = segment k
    · rw [he, hring]
      split_ifs with hz
      · exact RingsInv.reset_settled _
      · exact h.settled _ hz
    · rw [(hother seg he).1] at hn
      rw [(hother seg he).2]
      exact h.settled seg hn
  · rw [htables]
    by_cases he : segment j = segment k
    · exact ⟨c, hc.trans (segment_inj hj hk he).symm⟩
    · rw [(hother _ he).1] at hn
      exact h.owned j hj hn
  · rw [hself]
    exact Nat.succ_ne_zero _
  · by_cases he : seg = segment k
    · rw [he, hself]
      exact Nat.succ_ne_zero _
    · rwa [(hother seg he).1]
  · funext c'
    unfold pending
    rw [htables, hunread]

/-- A store to the ring of an entry that leaves it settled. -/
theorem Sound.setRing {ring : Ring} (h : Sound r) (hc : r.tables.table c = k) (hk : InKey k)
    (hn : r.nattch (segment k) ≠ 0) (hring : ring.Settled) :
    Sound { r with ring := Function.update r.ring (segment k) ring } ∧
      pending { r with ring := Function.update r.ring (segment k) ring } =
        Function.update (pending r) c ring.queue := by
  refine ⟨⟨h.indices, h.small, fun seg hseg => ?_, h.owned⟩, funext fun c' => ?_⟩
  · by_cases he : seg = segment k
    · simp only [he, Function.update_self]
      exact hring
    · simp only [Function.update_of_ne he]
      exact h.settled seg hseg
  · by_cases he : c' = c
    · rw [he, Function.update_self]
      simp only [pending, unread, hc, if_neg hk.1.ne', if_neg hn, Function.update_self]
    · rw [Function.update_of_ne he]
      unfold pending unread
      by_cases hz : r.tables.table c' = 0
      · rw [if_pos hz, if_pos hz]
      · have hne : segment (r.tables.table c') ≠ segment k := fun hs =>
          he (h.entry_unique hz ((segment_inj (h.inKey hz) hk hs).trans hc.symm))
        simp only [if_neg hz, Function.update_of_ne hne]

/-- The entry names the index of a handle, whose segment is attached. -/
structure Handle (r : Rings) (c : Cell) (k : ℕ) : Prop where
  entry : r.tables.table c = k
  index : InKey k
  attached : r.nattch (segment k) ≠ 0

theorem Handle.kept (h : Handle r c k) (htables : r'.tables = r.tables)
    (hnattch : r'.nattch = r.nattch) : Handle r' c k :=
  ⟨htables ▸ h.entry, h.index, hnattch ▸ h.attached⟩

theorem Handle.pending_eq (h : Handle r c k) : pending r c = (r.ring (segment k)).queue := by
  rw [pending, h.entry, if_neg h.index.1.ne', unread, if_neg h.attached]

/-- `rb_write` through the handle of an object. -/
theorem Handle.write (h : Handle r c k) (hr : Sound r) (p : Pid) (buf : List Byte) :
    ∃ r', r.write p k buf = some
        (((min buf.length (shmDataSize - 1 - (pending r c).length) : ℕ) : ℤ), r') ∧
      Sound r' ∧ r'.tables = r.tables ∧ r'.nattch = r.nattch ∧
      pending r' = Function.update (pending r) c
        (pending r c ++ buf.take (shmDataSize - 1 - (pending r c).length)) := by
  have hsettled := hr.settled _ h.attached
  have hlt := hsettled.queue_lt
  rw [h.pending_eq]
  generalize hn : min buf.length (shmDataSize - 1 - (r.ring (segment k)).queue.length) = n
  have hfit : (r.ring (segment k)).queue.length + n < shmDataSize := by omega
  have hbytes : (List.range n).map (fun i => buf.getD i 0) =
      buf.take (shmDataSize - 1 - (r.ring (segment k)).queue.length) := by
    rw [← hn]
    exact RingsInv.map_getD_range buf _
  have hpushed := hsettled.pushed_queue hfit fun i => buf.getD i 0
  rw [hbytes] at hpushed
  obtain ⟨hsound, hpending⟩ := hr.setRing h.entry h.index h.attached
    (hsettled.pushed_settled hfit fun i => buf.getD i 0)
  rw [hpushed] at hpending
  refine ⟨_, ?_, hsound, rfl, rfl, hpending⟩
  rw [Rings.write, segmentOf_segment p h.index, rbWrite_eq hsettled, hn]
  rfl

/-- `rb_read` through the handle of an object. -/
theorem Handle.read (h : Handle r c k) (hr : Sound r) (p : Pid) (len : ℕ) :
    ∃ r', r.read p k len = ((pending r c).take len, r') ∧
      Sound r' ∧ r'.tables = r.tables ∧ r'.nattch = r.nattch ∧
      pending r' = Function.update (pending r) c ((pending r c).drop len) := by
  have hsettled := hr.settled _ h.attached
  have hmin := Nat.min_le_right len (r.ring (segment k)).queue.length
  obtain ⟨out, hread, hout⟩ := rbRead_eq hsettled len fun _ => 0
  obtain ⟨hsound, hpending⟩ := hr.setRing h.entry h.index h.attached
    (hsettled.popped_settled hmin)
  rw [hsettled.popped_queue hmin, ← List.drop_eq_drop_min] at hpending
  rw [h.pending_eq]
  refine ⟨_, ?_, hsound, rfl, rfl, hpending⟩
  rw [Rings.read, segmentOf_segment p h.index, hread]
  simp only [Int.toNat_natCast, hout, ← List.take_eq_take_min]

/-- What `rb_init(get_idx(..))` leaves. -/
theorem Sound.initRing (h : Sound r) (hs : Sys.initRing r p key pair = some (k, r')) :
    Sound r' ∧ Handle r' (cell p pair) k ∧ (∀ c k, Handle r c k → Handle r' c k) ∧
      pending r' = pending r := by
  simp only [Sys.initRing] at hs
  split_ifs at hs with hlt
  obtain ⟨rfl, rfl⟩ := Prod.mk.inj (Option.some.inj hs)
  obtain ⟨hsound, hk, hentry, hpending⟩ := h.getIdx key (cell p pair) hlt
  obtain ⟨hsound', hself, hkeep, hpending'⟩ := hsound.rbInit hk hentry p
  refine ⟨hsound', ⟨hentry, hk, hself⟩, fun c k hc => ?_, hpending'.trans hpending⟩
  have hold := Objects.getIdx_keeps (j := cell p pair) key (hc.entry.trans_ne hc.index.1.ne')
  exact ⟨hold.trans hc.entry, hc.index, hkeep _ hc.attached⟩

/-- The handles of a new object, and that those of the others stay. -/
theorem Sound.construct {src dst key' : ℕ} {o : Connection} (h : Sound r)
    (hs : Sys.construct r p src dst key key' = some (o, r')) :
    Sound r' ∧ Handle r' o.readCell o.readRB ∧ Handle r' o.writeCell o.writeRB ∧
      (∀ c k, Handle r c k → Handle r' c k) ∧ pending r' = pending r := by
  obtain ⟨⟨readRB, r₁⟩, hread, hrest⟩ := Option.bind_eq_some_iff.mp hs
  obtain ⟨⟨writeRB, r₂⟩, hwrite, he⟩ := Option.map_eq_some_iff.mp hrest
  obtain ⟨rfl, rfl⟩ := Prod.mk.inj he
  obtain ⟨hsound₁, hnew₁, hkept₁, hpending₁⟩ := h.initRing hread
  obtain ⟨hsound₂, hnew₂, hkept₂, hpending₂⟩ := hsound₁.initRing hwrite
  exact ⟨hsound₂, hkept₂ _ _ hnew₁, hnew₂, fun c k hc => hkept₂ c k (hkept₁ c k hc),
    hpending₂.trans hpending₁⟩

end rings

structure Inv (s : Sys) : Prop where
  rings : Sound s.rings
  handles : ∀ o c, s.live o = some c →
    Handle s.rings c.readCell c.readRB ∧ Handle s.rings c.writeCell c.writeRB
  flow : ∀ c, s.sent c = s.received c ++ pending s.rings c

variable {s s' : Sys} {a : Act} {o : ℕ} {c : Connection}

namespace Inv

theorem start (h : machine.init s) : Inv s := by
  obtain ⟨⟨a, htables⟩, hnattch, hmemo, hlive, hsent, hreceived⟩ := h
  have hzero : ∀ c, s.rings.tables.table c = 0 := fun c => by rw [htables]
  have hsound : Sound s.rings := by
    refine ⟨⟨[List.range' 1 channelSize], ?_⟩, fun c => ?_, fun seg hn => ?_, fun k _ hn => ?_⟩
    · rw [htables]
      exact .start a
    · rw [hzero]
      decide
    · exact absurd (hnattch seg) hn
    · exact absurd (hnattch _) hn
  refine ⟨hsound, fun o c hc => ?_, fun c => ?_⟩
  · rw [hlive] at hc
    cases hc
  · have hempty : pending s.rings c = [] := if_pos (hzero c)
    rw [hsent, hreceived, hempty, List.append_nil]

/-- `write` accepts what fits. -/
theorem write (h : Inv s) (hc : s.live o = some c) (buf : List Byte) :
    ∃ s', s.step (.write o buf) = some s' ∧ Inv s' ∧
      s'.sent = Function.update s.sent c.writeCell (s.sent c.writeCell ++
        buf.take (shmDataSize - 1 - (pending s.rings c.writeCell).length)) := by
  obtain ⟨r', hwrite, hsound, htables, hnattch, hpending⟩ :=
    (h.handles o c hc).2.write h.rings c.p buf
  have htake : buf.take (((min buf.length (shmDataSize - 1 -
      (pending s.rings c.writeCell).length) : ℕ) : ℤ)).toNat =
        buf.take (shmDataSize - 1 - (pending s.rings c.writeCell).length) := by
    rw [Int.toNat_natCast, Nat.min_comm, ← List.take_eq_take_min]
  have hstep : s.step (.write o buf) = some { s with
      rings := r'
      sent := Function.update s.sent c.writeCell (s.sent c.writeCell ++
        buf.take (shmDataSize - 1 - (pending s.rings c.writeCell).length)) } := by
    simp only [Sys.step, hc, Option.bind_some, hwrite, Option.map_some, htake]
  refine ⟨_, hstep, ⟨hsound, fun o' c' hc' => ?_, fun i => ?_⟩, rfl⟩
  · exact (h.handles o' c' hc').imp (fun hk => hk.kept htables hnattch)
      fun hk => hk.kept htables hnattch
  · change Function.update s.sent c.writeCell _ i = s.received i ++ pending r' i
    rw [hpending]
    by_cases hi : i = c.writeCell
    · rw [hi, Function.update_self, Function.update_self, h.flow, List.append_assoc]
    · rw [Function.update_of_ne hi, Function.update_of_ne hi, h.flow]

/-- `read` takes the first bytes. -/
theorem read (h : Inv s) (hc : s.live o = some c) (len : ℕ) :
    ∃ s', s.step (.read o len) = some s' ∧ Inv s' ∧
      s'.received = Function.update s.received c.readCell
        (s.received c.readCell ++ (pending s.rings c.readCell).take len) := by
  obtain ⟨r', hread, hsound, htables, hnattch, hpending⟩ :=
    (h.handles o c hc).1.read h.rings c.p len
  have hstep : s.step (.read o len) = some { s with
      rings := r'
      received := Function.update s.received c.readCell
        (s.received c.readCell ++ (pending s.rings c.readCell).take len) } := by
    simp only [Sys.step, hc, Option.map_some, hread]
  refine ⟨_, hstep, ⟨hsound, fun o' c' hc' => ?_, fun i => ?_⟩, rfl⟩
  · exact (h.handles o' c' hc').imp (fun hk => hk.kept htables hnattch)
      fun hk => hk.kept htables hnattch
  · change s.sent i = Function.update s.received c.readCell _ i ++ pending r' i
    rw [hpending]
    by_cases hi : i = c.readCell
    · rw [hi, Function.update_self, Function.update_self, h.flow, List.append_assoc,
        List.take_append_drop]
    · rw [Function.update_of_ne hi, Function.update_of_ne hi, h.flow]

theorem step (h : Inv s) (hs : s.step a = some s') : Inv s' := by
  cases a with
  | construct o p src dst key key' =>
    simp only [Sys.step] at hs
    split at hs
    · obtain ⟨⟨c, r'⟩, hconstruct, rfl⟩ := Option.map_eq_some_iff.mp hs
      obtain ⟨hsound, hread, hwrite, hkept, hpending⟩ := h.rings.construct hconstruct
      refine ⟨hsound, fun o' c' hc' => ?_, fun i => ?_⟩
      · change Function.update s.live o (some c) o' = some c' at hc'
        by_cases ho : o' = o
        · rw [ho, Function.update_self] at hc'
          obtain rfl := Option.some.inj hc'
          exact ⟨hread, hwrite⟩
        · rw [Function.update_of_ne ho] at hc'
          exact (h.handles o' c' hc').imp (hkept _ _) (hkept _ _)
      · change s.sent i = s.received i ++ pending r' i
        rw [hpending, h.flow]
    · cases hs
  | write o buf =>
    obtain ⟨c, hc, -⟩ := Option.bind_eq_some_iff.mp hs
    obtain ⟨s₁, hstep, hinv, -⟩ := h.write hc buf
    obtain rfl := Option.some.inj (hstep.symm.trans hs)
    exact hinv
  | read o len =>
    obtain ⟨c, hc, -⟩ := Option.map_eq_some_iff.mp hs
    obtain ⟨s₁, hstep, hinv, -⟩ := h.read hc len
    obtain rfl := Option.some.inj (hstep.symm.trans hs)
    exact hinv

end Inv

/-- Two handles name the same segment exactly if they are of the same entry. -/
theorem Handle.segment_iff {r : Rings} {c c' : Cell} {k k' : ℕ} (hr : Sound r)
    (h : Handle r c k) (h' : Handle r c' k') (p q : Pid) :
    segmentOf p k = segmentOf q k' ↔ c = c' := by
  rw [segmentOf_segment p h.index, segmentOf_segment q h'.index]
  constructor
  · intro he
    have hentry : r.tables.table c = r.tables.table c' := by
      rw [h.entry, h'.entry, segment_inj h.index h'.index he]
    exact hr.entry_unique (h.entry.trans_ne h.index.1.ne') hentry
  · rintro rfl
    rw [← h.entry, ← h'.entry]

/-- The entry that one object reads and another writes. -/
theorem readCell_eq_writeCell {c c' : Connection} : c.readCell = c'.writeCell ↔
    c.src = c'.dst ∧ c.dst = c'.src ∧ (c.src ≠ 0 ∨ c.p = c'.p) := by
  unfold Connection.readCell Connection.writeCell
  constructor
  · intro he
    obtain ⟨hsrc, hdst⟩ := Prod.mk.inj (cell_pair he)
    exact ⟨hsrc, hdst, or_iff_not_imp_left.mpr fun hz => cell_own he (not_not.mp hz)⟩
  · rintro ⟨hsrc, hdst, hne | hp⟩
    · rw [← hsrc, ← hdst]
      exact cell_shared c.p c'.p hne
    · rw [← hsrc, ← hdst, hp]

/-- What the objects of both directions of all pairs do to each other. A ring that one object
reads and another writes is that of opposite ports. -/
structure Streams (s : Sys) : Prop where
  queue : ∀ c, s.sent c = s.received c ++ pending s.rings c ∧
    (pending s.rings c).length < shmDataSize
  opposite : ∀ o o' c c', s.live o = some c → s.live o' = some c' → c.src = c'.dst →
    c.dst = c'.src → c.src ≠ 0 ∨ c.p = c'.p → s.received c.readCell <+: s.sent c'.writeCell
  shared : ∀ o o' c c', s.live o = some c → s.live o' = some c' →
    (segmentOf c.p c.readRB = segmentOf c'.p c'.writeRB ↔
      c.src = c'.dst ∧ c.dst = c'.src ∧ (c.src ≠ 0 ∨ c.p = c'.p))
  apart : ∀ o c, s.live o = some c → c.src ≠ c.dst →
    c.readRB ≠ c.writeRB ∧ segmentOf c.p c.readRB ≠ segmentOf c.p c.writeRB
  write : ∀ o c buf, s.live o = some c → ∃ s', s.step (.write o buf) = some s' ∧
    s'.sent = Function.update s.sent c.writeCell (s.sent c.writeCell ++
      buf.take (shmDataSize - 1 - (pending s.rings c.writeCell).length))
  read : ∀ o c len, s.live o = some c → ∃ s', s.step (.read o len) = some s' ∧
    s'.received = Function.update s.received c.readCell
      (s.received c.readCell ++ (pending s.rings c.readCell).take len)

def noObjects : Sys :=
  ⟨⟨⟨[freshChannel], fun _ => 0⟩, fun _ => Ring.zero, fun _ => 0, fun _ => false⟩,
    fun _ => none, fun _ => [], fun _ => []⟩

/-- Process 7 writes through its end of the pair (1, 2), and process 8 reads at the other. -/
def writeAndRead : List Act :=
  [.construct 0 7 1 2 0 0, .write 0 [5, 6, 7], .construct 1 8 2 1 0 0, .read 1 2]

end ShmSocket.Duplex
