import ShmSocket.CInt
import ShmSocket.Lib.CircularWindow
import ShmSocket.Lib.StepMachine
import Mathlib.Data.List.GetD

/-! The ring of `workspace/io.cpp`, which has no `oldtail`: `write` swaps `tail` before it
copies, so a reader may copy a byte before the writer does. One writer and one reader, one
load, swap or byte copy at a time. -/
namespace ShmSocket.IoRing
open StepMachine CircularWindow

def shmSize : ℕ := 32
def shmDataSize : ℕ := shmSize - 2 * 4

def readSize (head tail : ℕ) : ℕ :=
  if head ≤ tail then tail - head else tail + shmDataSize - head

def writeSize (head tail : ℕ) : ℕ :=
  if tail < head then head - tail - 1 else head + shmDataSize - tail - 1

/-- `new_head` and `new_tail`. -/
def advance (pos len : ℕ) : ℕ := u32 (pos + len : ℕ) % shmDataSize

/-- The data offset of byte `k` of a transfer by one `memcpy` or two. -/
def copyOffset (pos len k : ℕ) : ℕ :=
  if u32 (pos + len : ℕ) < shmDataSize then pos + k
  else if k < shmDataSize - pos then pos + k else k - (shmDataSize - pos)

structure WriteFrame where
  input : List Byte
  len : ℕ
  head : ℕ
  tail : ℕ

/-- Where `write` is. -/
inductive Writer where
  | idle
  | loadHead (f : WriteFrame)
  | loadTail (f : WriteFrame)
  | casTail (f : WriteFrame)
  | copy (k : ℕ) (f : WriteFrame)

/-- `early` tells of each byte of `out` whether it was copied before its writer stored it. -/
structure ReadFrame where
  len : ℕ
  head : ℕ
  out : List Byte
  early : List Bool

/-- Where `read` is. -/
inductive Reader where
  | idle
  | loadHead (f : ReadFrame)
  | loadTail (f : ReadFrame)
  | copy (f : ReadFrame)
  | casHead (f : ReadFrame)

structure Sys where
  head : ℕ
  tail : ℕ
  content : ℕ → Byte
  writer : Writer
  reader : Reader
  /-- The bytes reserved by the swaps on `tail`. -/
  accepted : List Byte
  /-- How many of them have been stored. -/
  stored : ℕ
  /-- The bytes returned by `read`, and which of them were copied early. -/
  delivered : List Byte
  early : List Bool

inductive Act where
  | write (input : List Byte)
  | read (len : ℕ)
  | stepWriter
  | stepReader

namespace Sys

/-- One step of `write`. -/
def stepWriter (s : Sys) : Writer → Option Sys
  | .idle => none
  | .loadHead f => some { s with writer := .loadTail { f with head := s.head } }
  | .loadTail f =>
      let f := { f with tail := s.tail, len := min (writeSize f.head s.tail) f.len }
      some { s with writer := if f.len = 0 then .idle else .casTail f }
  | .casTail f =>
      some (if s.tail = f.tail then
        { s with
          tail := advance f.tail f.len
          accepted := s.accepted ++ f.input.take f.len
          writer := .copy 0 f }
      else { s with writer := .loadHead f }) -- goto retry
  | .copy k f =>
      some { s with
        content := Function.update s.content (copyOffset f.tail f.len k) (f.input.getD k 0)
        stored := s.stored + 1
        writer := if k + 1 < f.len then .copy (k + 1) f else .idle }

/-- One step of `read`. -/
def stepReader (s : Sys) : Reader → Option Sys
  | .idle => none
  | .loadHead f => some { s with reader := .loadTail { f with head := s.head } }
  | .loadTail f =>
      let f := { f with len := min (readSize f.head s.tail) f.len, out := [], early := [] }
      some { s with reader := if f.len = 0 then .idle else .copy f }
  | .copy f =>
      let f := { f with
        out := f.out ++ [s.content (copyOffset f.head f.len f.out.length)]
        early := f.early ++ [decide (s.stored ≤ s.delivered.length + f.out.length)] }
      some { s with reader := if f.out.length < f.len then .copy f else .casHead f }
  | .casHead f =>
      some (if s.head = f.head then
        { s with
          head := advance f.head f.len
          delivered := s.delivered ++ f.out
          early := s.early ++ f.early
          reader := .idle }
      else { s with reader := .loadHead f }) -- goto retry

def step (s : Sys) : Act → Option Sys
  | .write input =>
      match s.writer with
      | .idle => some { s with writer := .loadHead ⟨input, input.length, 0, 0⟩ }
      | _ => none
  | .read len =>
      match s.reader with
      | .idle => some { s with reader := .loadHead ⟨len, 0, [], []⟩ }
      | _ => none
  | .stepWriter => s.stepWriter s.writer
  | .stepReader => s.stepReader s.reader

def start (content : ℕ → Byte) : Sys := ⟨0, 0, content, .idle, .idle, [], 0, [], []⟩

end Sys

/-- From a new segment with any data. -/
def machine (content : ℕ → Byte) : StepMachine Sys Act where
  init s := s = Sys.start content
  step := Sys.step

/-- What the cell of position `q` holds before `q` is stored: the byte one turn earlier. -/
def before (content : ℕ → Byte) (accepted : List Byte) (q : ℕ) : Byte :=
  if q < shmDataSize then content q else accepted.getD (q - shmDataSize) 0

/-- What a copy of position `q` gets, early or not. -/
def copied (content : ℕ → Byte) (accepted : List Byte) (q : ℕ) (early : Bool) : Byte :=
  if early then before content accepted q else accepted.getD q 0

theorem shmDataSize_eq : shmDataSize = 24 := rfl

theorem advance_eq {pos len : ℕ} (h : pos + len < 2 ^ 32) :
    advance pos len = (pos + len) % shmDataSize := by
  unfold advance
  rw [u32_natCast h]

/-- Both ways of copying go round the ring from `pos`. -/
theorem copyOffset_eq {pos len k : ℕ} (hpos : pos < shmDataSize) (hlen : len < shmDataSize)
    (hk : k < len) : copyOffset pos len k = (pos + k) % shmDataSize := by
  have hN := shmDataSize_eq
  unfold copyOffset
  rw [u32_natCast (by omega)]
  exact wrap_eq hpos hlen hk

section stable
variable {content : ℕ → Byte} {accepted : List Byte} (more : List Byte) {q : ℕ}

theorem before_append (h : q < accepted.length + shmDataSize) :
    before content (accepted ++ more) q = before content accepted q := by
  unfold before
  split_ifs with hq
  · rfl
  · rw [List.getD_append _ _ _ _ (by omega)]

theorem copied_append (h : q < accepted.length) (early : Bool) :
    copied content (accepted ++ more) q early = copied content accepted q early := by
  unfold copied
  rw [before_append more (by omega), List.getD_append _ _ _ _ h]

/-- One turn later the cell of a stored position still holds its byte. -/
theorem before_turn : before content accepted (q + shmDataSize) = accepted.getD q 0 := by
  unfold before
  rw [if_neg (by omega), Nat.add_sub_cancel]

end stable

/-- The bytes `out` are what copies of the positions from `first` on got. -/
def Copies (content : ℕ → Byte) (accepted : List Byte) (first : ℕ) (out : List Byte)
    (early : List Bool) : Prop :=
  early.length = out.length ∧ ∀ i < out.length,
    out[i]? = some (copied content accepted (first + i) (early.getD i false))

/-- What a writer at a given place has done. -/
def WriterOk (s : Sys) : Writer → Prop
  | .idle => s.stored = s.accepted.length
  | .loadHead f => s.stored = s.accepted.length ∧ f.len ≤ f.input.length
  | .loadTail f => s.stored = s.accepted.length ∧ f.len ≤ f.input.length ∧
      ∃ h, f.head = h % shmDataSize ∧ h ≤ s.delivered.length ∧
        s.accepted.length < h + shmDataSize
  | .casTail f => s.stored = s.accepted.length ∧ f.len ≤ f.input.length ∧ 0 < f.len ∧
      f.tail = s.tail ∧ s.accepted.length + f.len < s.delivered.length + shmDataSize
  | .copy k f => k < f.len ∧ f.len < shmDataSize ∧ k ≤ s.stored ∧
      s.stored + f.len = s.accepted.length + k ∧
      f.tail = (s.accepted.length - f.len) % shmDataSize ∧
      ∀ i < f.len, s.accepted.getD (s.accepted.length - f.len + i) 0 = f.input.getD i 0

/-- What a reader at a given place has seen. -/
def ReaderOk (content : ℕ → Byte) (s : Sys) : Reader → Prop
  | .idle | .loadHead _ => True
  | .loadTail f => f.head = s.head
  | .copy f => f.head = s.head ∧ f.out.length < f.len ∧
      s.delivered.length + f.len ≤ s.accepted.length ∧
      Copies content s.accepted s.delivered.length f.out f.early
  | .casHead f => f.head = s.head ∧ f.out.length = f.len ∧
      s.delivered.length + f.len ≤ s.accepted.length ∧
      Copies content s.accepted s.delivered.length f.out f.early

/-- The cells hold the last turn of stored positions. -/
structure Inv (content : ℕ → Byte) (s : Sys) : Prop where
  head : s.head = s.delivered.length % shmDataSize
  tail : s.tail = s.accepted.length % shmDataSize
  consumed : s.delivered.length ≤ s.accepted.length
  room : s.accepted.length < s.delivered.length + shmDataSize
  stored_le : s.stored ≤ s.accepted.length
  pending : s.accepted.length < s.stored + shmDataSize
  cells : ∀ q, s.stored ≤ q → q < s.stored + shmDataSize →
    s.content (q % shmDataSize) = before content s.accepted q
  writer : WriterOk s s.writer
  reader : ReaderOk content s s.reader
  bytes : Copies content s.accepted 0 s.delivered s.early

section copies
variable {content : ℕ → Byte} {accepted more out out' : List Byte} {early early' : List Bool}
  {first : ℕ}

theorem Copies.nil : Copies content accepted first [] [] :=
  ⟨rfl, fun _ hi => absurd hi (Nat.not_lt_zero _)⟩

theorem Copies.grow (h : Copies content accepted first out early)
    (hle : first + out.length ≤ accepted.length) :
    Copies content (accepted ++ more) first out early :=
  ⟨h.1, fun i hi => by rw [h.2 i hi, copied_append more (by omega)]⟩

theorem Copies.append (h : Copies content accepted first out early)
    (h' : Copies content accepted (first + out.length) out' early') :
    Copies content accepted first (out ++ out') (early ++ early') := by
  refine ⟨by rw [List.length_append, List.length_append, h.1, h'.1], fun i hi => ?_⟩
  by_cases hlt : i < out.length
  · rw [List.getElem?_append_left hlt, List.getD_append _ _ _ _ (h.1 ▸ hlt), h.2 i hlt]
  · have hle := not_lt.mp hlt
    rw [List.length_append] at hi
    rw [List.getElem?_append_right hle, List.getD_append_right _ _ _ _ (h.1 ▸ hle),
      h'.2 _ (by omega), h.1, Nat.add_assoc, Nat.add_sub_cancel' hle]

theorem Copies.single {b : Byte} {e : Bool} (h : b = copied content accepted first e) :
    Copies content accepted first [b] [e] := by
  refine ⟨rfl, fun i hi => ?_⟩
  obtain rfl : i = 0 := by simpa using hi
  rw [h]
  rfl

end copies

section steps
variable {content : ℕ → Byte} {s s' : Sys} {a : Act}

/-- A byte that is copied out of the ring. -/
theorem Inv.cell (h : Inv content s) {q : ℕ} (hle : s.delivered.length ≤ q)
    (hlt : q < s.accepted.length) :
    s.content (q % shmDataSize) = copied content s.accepted q (decide (s.stored ≤ q)) := by
  have hroom := h.room
  have hpending := h.pending
  have hstored := h.stored_le
  unfold copied
  by_cases he : s.stored ≤ q
  · rw [decide_eq_true he, if_pos rfl, h.cells q he (by omega)]
  · have hturn := h.cells (q + shmDataSize) (by omega) (by omega)
    rw [Nat.add_mod_right, before_turn] at hturn
    rw [decide_eq_false he, hturn]
    rfl

/-- A step of the reader that leaves the words and the writer alone. -/
theorem Inv.reads (h : Inv content s) {r : Reader}
    (hr : ReaderOk content { s with reader := r } r) : Inv content { s with reader := r } :=
  ⟨h.head, h.tail, h.consumed, h.room, h.stored_le, h.pending, h.cells, h.writer, hr, h.bytes⟩

theorem Inv.writes (h : Inv content s) {w : Writer} (hw : WriterOk { s with writer := w } w) :
    Inv content { s with writer := w } :=
  ⟨h.head, h.tail, h.consumed, h.room, h.stored_le, h.pending, h.cells, hw, h.reader, h.bytes⟩

theorem Inv.start : Inv content (Sys.start content) where
  head := rfl
  tail := rfl
  consumed := le_rfl
  room := (show 0 < 0 + shmDataSize by decide)
  stored_le := le_rfl
  pending := (show 0 < 0 + shmDataSize by decide)
  cells := fun q _ hq => by
    have hq' : q < shmDataSize := (Nat.zero_add shmDataSize) ▸ hq
    rw [Nat.mod_eq_of_lt hq', before, if_pos hq']
    rfl
  writer := rfl
  reader := trivial
  bytes := .nil

/-- The loads of `write` find no more room than there is. -/
theorem Inv.loadTail (h : Inv content s) {f : WriteFrame} (hw : s.writer = .loadTail f) :
    let g := { f with tail := s.tail, len := min (writeSize f.head s.tail) f.len }
    Inv content { s with writer := if g.len = 0 then .idle else .casTail g } := by
  intro g
  have hok := h.writer
  rw [hw] at hok
  obtain ⟨hstored, hinput, p, hhead, hp, hlap⟩ := hok
  refine h.writes ?_
  split_ifs with hz
  · exact hstored
  · have hpos : 0 < g.len := Nat.pos_of_ne_zero hz
    have hsize : writeSize f.head s.tail = shmDataSize - 1 - (s.accepted.length - p) := by
      rw [hhead, h.tail]
      exact room_eq (hp.trans h.consumed) hlap
    have hlen : g.len ≤ shmDataSize - 1 - (s.accepted.length - p) :=
      (Nat.min_le_left _ _).trans hsize.le
    refine ⟨hstored, (Nat.min_le_right _ _).trans hinput, hpos, rfl, ?_⟩
    change s.accepted.length + g.len < s.delivered.length + shmDataSize
    omega

/-- The swap of the only writer succeeds. -/
theorem Inv.casTail (h : Inv content s) {f : WriteFrame} (hw : s.writer = .casTail f) :
    s.tail = f.tail ∧ Inv content { s with
      tail := advance f.tail f.len
      accepted := s.accepted ++ f.input.take f.len
      writer := .copy 0 f } := by
  have hok := h.writer
  rw [hw] at hok
  obtain ⟨hstored, hinput, hpos, htail, hroom⟩ := hok
  have hconsumed := h.consumed
  have hN := shmDataSize_eq
  have hlen : (s.accepted ++ f.input.take f.len).length = s.accepted.length + f.len := by
    rw [List.length_append, List.length_take, Nat.min_eq_left hinput]
  have htail' : f.tail = s.accepted.length % shmDataSize := htail.trans h.tail
  have hlt : f.tail < shmDataSize := htail' ▸ Nat.mod_lt _ (by decide)
  refine ⟨htail.symm, h.head, ?_, ?_, ?_, ?_, ?_, fun q hq hq' => ?_, ?_, ?_, ?_⟩
  · change advance f.tail f.len = (s.accepted ++ f.input.take f.len).length % shmDataSize
    rw [advance_eq (by omega), hlen, htail', Nat.mod_add_mod]
  · exact hlen ▸ hconsumed.trans (Nat.le_add_right _ _)
  · exact hlen ▸ hroom
  · exact hlen ▸ h.stored_le.trans (Nat.le_add_right _ _)
  · change (s.accepted ++ f.input.take f.len).length < s.stored + shmDataSize
    omega
  · change q < s.stored + shmDataSize at hq'
    have hcell := h.cells q hq hq'
    rwa [← before_append (f.input.take f.len) (by omega)] at hcell
  · refine ⟨hpos, by omega, Nat.zero_le _, ?_, ?_, fun i hi => ?_⟩
    · change s.stored + f.len = (s.accepted ++ f.input.take f.len).length + 0
      rw [hlen, hstored, Nat.add_zero]
    · change f.tail = ((s.accepted ++ f.input.take f.len).length - f.len) % shmDataSize
      rw [hlen, Nat.add_sub_cancel, htail']
    · change (s.accepted ++ f.input.take f.len).getD
        ((s.accepted ++ f.input.take f.len).length - f.len + i) 0 = _
      rw [hlen, Nat.add_sub_cancel, List.getD_append_right _ _ _ _ (Nat.le_add_right _ _),
        Nat.add_sub_cancel_left, List.getD_eq_getElem?_getD, List.getElem?_take_of_lt hi,
        ← List.getD_eq_getElem?_getD]
  · have hr := h.reader
    change ReaderOk content _ s.reader
    cases hreader : s.reader with
    | idle | loadHead g => trivial
    | loadTail g =>
      rw [hreader] at hr
      exact hr
    | copy g | casHead g =>
      rw [hreader] at hr
      obtain ⟨hhead, hout, hle, hcopies⟩ := hr
      exact ⟨hhead, hout, hlen ▸ hle.trans (Nat.le_add_right _ _), hcopies.grow (by omega)⟩
  · exact h.bytes.grow ((Nat.zero_add _).trans_le hconsumed)

/-- A byte is stored in the cell that its position has had all the time. -/
theorem Inv.store (h : Inv content s) {k : ℕ} {f : WriteFrame} (hw : s.writer = .copy k f) :
    Inv content { s with
      content := Function.update s.content (copyOffset f.tail f.len k) (f.input.getD k 0)
      stored := s.stored + 1
      writer := if k + 1 < f.len then .copy (k + 1) f else .idle } := by
  have hok := h.writer
  rw [hw] at hok
  obtain ⟨hk, hN, hkept, hstored, htail, hbytes⟩ := hok
  have hpos : 0 < shmDataSize := by decide
  have hoffset : copyOffset f.tail f.len k = s.stored % shmDataSize := by
    rw [copyOffset_eq (htail ▸ Nat.mod_lt _ hpos) hN hk, htail, Nat.mod_add_mod]
    congr 1
    omega
  have hbyte : f.input.getD k 0 = s.accepted.getD s.stored 0 := by
    rw [← hbytes k hk]
    congr 1
    omega
  rw [hoffset, hbyte]
  refine ⟨h.head, h.tail, h.consumed, h.room, ?_, ?_, fun q hq hq' => ?_, ?_, ?_, h.bytes⟩
  · change s.stored + 1 ≤ s.accepted.length
    omega
  · change s.accepted.length < s.stored + 1 + shmDataSize
    omega
  · change s.stored + 1 ≤ q at hq
    change q < s.stored + 1 + shmDataSize at hq'
    change Function.update s.content _ _ (q % shmDataSize) = _
    by_cases he : q = s.stored + shmDataSize
    · rw [he, Nat.add_mod_right, Function.update_self, before_turn]
    · have hne : q % shmDataSize ≠ s.stored % shmDataSize := fun hmod => by
        have := eq_of_mod_eq (a := s.stored) (by omega) (by omega) le_rfl (by omega) hmod
        omega
      rw [Function.update_of_ne hne]
      exact h.cells q (by omega) (by omega)
  · change WriterOk _ (if k + 1 < f.len then .copy (k + 1) f else .idle)
    split_ifs with hmore
    · refine ⟨hmore, hN, Nat.succ_le_succ hkept, ?_, htail, hbytes⟩
      change s.stored + 1 + f.len = s.accepted.length + (k + 1)
      omega
    · change s.stored + 1 = s.accepted.length
      omega
  · have hr := h.reader
    change ReaderOk content _ s.reader
    cases hreader : s.reader with
    | idle | loadHead g => trivial
    | loadTail g | copy g | casHead g =>
      rw [hreader] at hr
      exact hr

theorem Inv.stepWriter (h : Inv content s) (hs : s.stepWriter s.writer = some s') :
    Inv content s' := by
  have hok := h.writer
  cases hw : s.writer with
  | idle =>
    rw [hw] at hs
    cases hs
  | loadHead f =>
    rw [hw] at hs hok
    cases hs
    exact h.writes ⟨hok.1, hok.2, s.delivered.length, h.head, le_rfl, h.room⟩
  | loadTail f =>
    rw [hw] at hs
    cases hs
    exact h.loadTail hw
  | casTail f =>
    obtain ⟨hcas, hinv⟩ := h.casTail hw
    rw [hw, Sys.stepWriter, if_pos hcas] at hs
    cases hs
    exact hinv
  | copy k f =>
    rw [hw] at hs
    cases hs
    exact h.store hw

/-- The loads of `read` find no more bytes than are reserved. -/
theorem Inv.loadTail_reader (h : Inv content s) {f : ReadFrame} (hr : s.reader = .loadTail f) :
    let g := { f with len := min (readSize f.head s.tail) f.len, out := [], early := [] }
    Inv content { s with reader := if g.len = 0 then .idle else .copy g } := by
  intro g
  have hhead : f.head = s.head := by
    have hok := h.reader
    rwa [hr] at hok
  refine h.reads ?_
  split_ifs with hz
  · trivial
  · have hsize : readSize f.head s.tail = s.accepted.length - s.delivered.length := by
      rw [hhead, h.head, h.tail]
      exact distance_eq h.consumed h.room
    have hlen : g.len ≤ s.accepted.length - s.delivered.length :=
      (Nat.min_le_left _ _).trans hsize.le
    have hconsumed := h.consumed
    refine ⟨hhead, Nat.pos_of_ne_zero hz, ?_, .nil⟩
    change s.delivered.length + g.len ≤ s.accepted.length
    omega

/-- A copy gets the byte of its position, or early the one before. -/
theorem Inv.copyOut (h : Inv content s) {f : ReadFrame} (hr : s.reader = .copy f) :
    let g := { f with
      out := f.out ++ [s.content (copyOffset f.head f.len f.out.length)]
      early := f.early ++ [decide (s.stored ≤ s.delivered.length + f.out.length)] }
    Inv content { s with reader := if g.out.length < f.len then .copy g else .casHead g } := by
  intro g
  have hok := h.reader
  rw [hr] at hok
  obtain ⟨hhead, hout, hle, hcopies⟩ := hok
  have hroom := h.room
  have hlt : f.head < shmDataSize := hhead.trans h.head ▸ Nat.mod_lt _ (by decide)
  have hoffset : copyOffset f.head f.len f.out.length =
      (s.delivered.length + f.out.length) % shmDataSize := by
    rw [copyOffset_eq hlt (by omega) hout, hhead, h.head, Nat.mod_add_mod]
  have hcopies' : Copies content s.accepted s.delivered.length g.out g.early := by
    refine hcopies.append (.single ?_)
    rw [hoffset]
    exact h.cell (Nat.le_add_right _ _) (by omega)
  have hlen : g.out.length = f.out.length + 1 := List.length_append
  refine h.reads ?_
  split_ifs with hmore
  · exact ⟨hhead, hmore, hle, hcopies'⟩
  · exact ⟨hhead, by change g.out.length = f.len; omega, hle, hcopies'⟩

/-- The swap of the only reader succeeds. -/
theorem Inv.casHead (h : Inv content s) {f : ReadFrame} (hr : s.reader = .casHead f) :
    s.head = f.head ∧ Inv content { s with
      head := advance f.head f.len
      delivered := s.delivered ++ f.out
      early := s.early ++ f.early
      reader := .idle } := by
  have hok := h.reader
  rw [hr] at hok
  obtain ⟨hhead, hout, hle, hcopies⟩ := hok
  have hroom := h.room
  have hlen : (s.delivered ++ f.out).length = s.delivered.length + f.len := by
    rw [List.length_append, hout]
  have hlt : f.head < shmDataSize := hhead.trans h.head ▸ Nat.mod_lt _ (by decide)
  have hN := shmDataSize_eq
  refine ⟨hhead.symm, ?_, h.tail, hlen ▸ hle, ?_, h.stored_le, h.pending, h.cells, ?_, trivial,
    h.bytes.append ((Nat.zero_add s.delivered.length).symm ▸ hcopies)⟩
  · change advance f.head f.len = (s.delivered ++ f.out).length % shmDataSize
    rw [advance_eq (by omega), hlen, hhead, h.head, Nat.mod_add_mod]
  · change s.accepted.length < (s.delivered ++ f.out).length + shmDataSize
    omega
  · -- the head that a write has loaded may fall behind, which only leaves it less room
    have hw := h.writer
    change WriterOk _ s.writer
    cases hwriter : s.writer with
    | idle | loadHead g | copy k g =>
      rw [hwriter] at hw
      exact hw
    | loadTail g =>
      rw [hwriter] at hw
      obtain ⟨hstored, hinput, p, hp, hpd, hlap⟩ := hw
      exact ⟨hstored, hinput, p, hp, hlen ▸ hpd.trans (Nat.le_add_right _ _), hlap⟩
    | casTail g =>
      rw [hwriter] at hw
      obtain ⟨hstored, hinput, hpos, htail, hfits⟩ := hw
      refine ⟨hstored, hinput, hpos, htail, ?_⟩
      change s.accepted.length + g.len < (s.delivered ++ f.out).length + shmDataSize
      omega

theorem Inv.stepReader (h : Inv content s) (hs : s.stepReader s.reader = some s') :
    Inv content s' := by
  cases hr : s.reader with
  | idle =>
    rw [hr] at hs
    cases hs
  | loadHead f =>
    rw [hr] at hs
    cases hs
    exact h.reads rfl
  | loadTail f =>
    rw [hr] at hs
    cases hs
    exact h.loadTail_reader hr
  | copy f =>
    rw [hr] at hs
    cases hs
    exact h.copyOut hr
  | casHead f =>
    obtain ⟨hcas, hinv⟩ := h.casHead hr
    rw [hr, Sys.stepReader, if_pos hcas] at hs
    cases hs
    exact hinv

theorem Inv.step (h : Inv content s) (hs : s.step a = some s') : Inv content s' := by
  cases a with
  | write input =>
    have hok := h.writer
    cases hw : s.writer with
    | idle =>
      rw [hw] at hok
      simp only [Sys.step, hw, Option.some.injEq] at hs
      subst hs
      exact h.writes ⟨hok, le_rfl⟩
    | loadHead | loadTail | casTail | copy => simp [Sys.step, hw] at hs
  | read len =>
    cases hr : s.reader with
    | idle =>
      simp only [Sys.step, hr, Option.some.injEq] at hs
      subst hs
      exact h.reads trivial
    | loadHead | loadTail | copy | casHead => simp [Sys.step, hr] at hs
  | stepWriter => exact h.stepWriter hs
  | stepReader => exact h.stepReader hs

theorem inv_of_reachable (h : (machine content).Reachable Any s) : Inv content s := by
  have hstart : ∀ s, (machine content).init s → Inv content s := fun s hi => hi ▸ .start
  exact h.invariant hstart fun _ _ _ hi _ hs => hi.step hs

/-- Bytes none of which was copied early are the accepted ones. -/
theorem Inv.prefix_of_late (h : Inv content s) (hlate : ∀ e ∈ s.early, e = false) :
    s.delivered <+: s.accepted := by
  have hconsumed := h.consumed
  rw [List.prefix_iff_eq_take]
  apply List.ext_getElem?
  intro q
  by_cases hq : q < s.delivered.length
  · have hacc : q < s.accepted.length := hq.trans_le hconsumed
    have hearly : s.early.getD q false = false := by
      rw [List.getD_eq_getElem _ _ (h.bytes.1 ▸ hq)]
      exact hlate _ (List.getElem_mem _)
    have hbyte := h.bytes.2 q hq
    rw [Nat.zero_add, hearly] at hbyte
    rw [hbyte, List.getElem?_take_of_lt hq, List.getElem?_eq_getElem hacc, copied]
    exact congrArg some (List.getD_eq_getElem _ _ hacc)
  · have hle := not_lt.mp hq
    rw [List.getElem?_eq_none hle, List.getElem?_eq_none]
    exact (List.length_take_le _ _).trans hle

/-- `read` loads `tail` only when no write is between its swap and the end of its copy. -/
def Quiet (s : Sys) : Act → Prop
  | .stepReader => ∀ f, s.reader = .loadTail f → ∀ k g, s.writer ≠ .copy k g
  | _ => True

/-- What the reader has loaded is stored. -/
def Late (s : Sys) : Reader → Prop
  | .copy f | .casHead f => s.delivered.length + f.len ≤ s.stored ∧ ∀ e ∈ f.early, e = false
  | _ => True

theorem stored_of_not_copy (h : Inv content s) (hw : ∀ k g, s.writer ≠ .copy k g) :
    s.stored = s.accepted.length := by
  have hok := h.writer
  cases hwriter : s.writer with
  | idle =>
    rw [hwriter] at hok
    exact hok
  | loadHead f | loadTail f | casTail f =>
    rw [hwriter] at hok
    exact hok.1
  | copy k f => exact absurd hwriter (hw k f)

/-- The steps of the writer only store more. -/
theorem stepWriter_keeps (hs : s.stepWriter s.writer = some s') :
    s'.reader = s.reader ∧ s'.delivered = s.delivered ∧ s'.early = s.early ∧
      s.stored ≤ s'.stored := by
  cases hw : s.writer with
  | idle =>
    rw [hw] at hs
    cases hs
  | loadHead f | loadTail f =>
    rw [hw] at hs
    cases hs
    exact ⟨rfl, rfl, rfl, le_rfl⟩
  | casTail f =>
    rw [hw] at hs
    simp only [Sys.stepWriter, Option.some.injEq] at hs
    subst hs
    split_ifs <;> exact ⟨rfl, rfl, rfl, le_rfl⟩
  | copy k f =>
    rw [hw] at hs
    cases hs
    exact ⟨rfl, rfl, rfl, Nat.le_succ _⟩

theorem Late.mono {r : Reader} (h : Late s r) (hd : s'.delivered = s.delivered)
    (hstored : s.stored ≤ s'.stored) : Late s' r := by
  cases r with
  | idle | loadHead f | loadTail f => trivial
  | copy f | casHead f => exact ⟨hd ▸ h.1.trans hstored, h.2⟩

theorem late_stepReader (hi : Inv content s) (hl : Late s s.reader)
    (he : ∀ e ∈ s.early, e = false) (hq : Quiet s .stepReader)
    (hs : s.stepReader s.reader = some s') : Late s' s'.reader ∧ ∀ e ∈ s'.early, e = false := by
  have hok := hi.reader
  cases hr : s.reader with
  | idle =>
    rw [hr] at hs
    cases hs
  | loadHead f =>
    rw [hr] at hs
    cases hs
    exact ⟨trivial, he⟩
  | loadTail f =>
    have hstored := stored_of_not_copy hi (hq f hr)
    have hok' := (hi.loadTail_reader hr).reader
    rw [hr] at hs
    cases hs
    refine ⟨?_, he⟩
    split_ifs at hok' ⊢
    · trivial
    · exact ⟨hok'.2.2.1.trans_eq hstored.symm, fun e he => absurd he List.not_mem_nil⟩
  | copy f =>
    rw [hr] at hs hl hok
    cases hs
    obtain ⟨hle, hearly⟩ := hl
    have hout : f.out.length < f.len := hok.2.1
    have hlate : decide (s.stored ≤ s.delivered.length + f.out.length) = false :=
      decide_eq_false (by omega)
    refine ⟨?_, he⟩
    have hall : ∀ e ∈ f.early ++ [decide (s.stored ≤ s.delivered.length + f.out.length)],
        e = false := fun e hmem => by
      rcases List.mem_append.mp hmem with hold | hnew
      · exact hearly e hold
      · exact (List.mem_singleton.mp hnew).trans hlate
    change Late _ (if _ then _ else _)
    split_ifs
    · exact ⟨hle, hall⟩
    · exact ⟨hle, hall⟩
  | casHead f =>
    have hcas := (hi.casHead hr).1
    rw [hr] at hs hl
    rw [Sys.stepReader, if_pos hcas] at hs
    cases hs
    refine ⟨trivial, fun e hmem => ?_⟩
    rcases List.mem_append.mp hmem with hold | hnew
    · exact he e hold
    · exact hl.2 e hnew

theorem late_step (hi : Inv content s) (hl : Late s s.reader) (he : ∀ e ∈ s.early, e = false)
    (hq : Quiet s a) (hs : s.step a = some s') :
    Late s' s'.reader ∧ ∀ e ∈ s'.early, e = false := by
  cases a with
  | write input =>
    cases hw : s.writer with
    | idle =>
      simp only [Sys.step, hw, Option.some.injEq] at hs
      subst hs
      exact ⟨hl.mono rfl le_rfl, he⟩
    | loadHead | loadTail | casTail | copy => simp [Sys.step, hw] at hs
  | read len =>
    cases hr : s.reader with
    | idle =>
      simp only [Sys.step, hr, Option.some.injEq] at hs
      subst hs
      exact ⟨trivial, he⟩
    | loadHead | loadTail | copy | casHead => simp [Sys.step, hr] at hs
  | stepWriter =>
    obtain ⟨hreader, hd, hearly, hstored⟩ := stepWriter_keeps hs
    exact ⟨hreader ▸ hl.mono hd hstored, hearly ▸ he⟩
  | stepReader => exact late_stepReader hi hl he hq hs

/-- Reads that leave writes the time to end their copies return exactly what was written. -/
theorem prefix_of_quiet (h : (machine content).Reachable Quiet s) :
    s.delivered <+: s.accepted := by
  have hstart : ∀ s, (machine content).init s →
      Inv content s ∧ Late s s.reader ∧ ∀ e ∈ s.early, e = false := by
    rintro s rfl
    exact ⟨.start, trivial, fun e he => absurd he List.not_mem_nil⟩
  have hall := h.invariant hstart fun _ _ _ hi hq hs =>
    ⟨hi.1.step hs, late_step hi.1 hi.2.1 hi.2.2 hq hs⟩
  exact hall.1.prefix_of_late hall.2.2

/-- `Quiet` as a test. -/
def quiet (s : Sys) (a : Act) : Bool :=
  match a, s.reader, s.writer with
  | .stepReader, .loadTail _, .copy _ _ => false
  | _, _, _ => true

theorem quiet_sound {s : Sys} {a : Act} (h : quiet s a = true) : Quiet s a := by
  cases a with
  | stepReader =>
    intro f hr k g hw
    simp [quiet, hr, hw] at h
  | write | read | stepWriter => trivial

/-- A read that comes after the copy, and the swap of the next write beside it. -/
theorem prefix_of_quiet_next : ∃ s : Sys, s.delivered = [7] ∧ s.delivered <+: s.accepted := by
  obtain ⟨s, hr, hP⟩ := reachable_of_guarded (M := machine fun _ => 0) (C := Quiet) (c := quiet)
    (fun _ _ => quiet_sound) (s := Sys.start fun _ => 0)
    (l := [.write [7], .stepWriter, .stepWriter, .stepWriter, .stepWriter, .read 9, .stepReader,
      .stepReader, .write [8], .stepWriter, .stepWriter, .stepWriter, .stepReader, .stepReader])
    (P := fun s => decide (s.delivered = [7])) rfl (by decide +kernel)
  exact ⟨s, of_decide_eq_true hP, prefix_of_quiet hr⟩

end steps
end ShmSocket.IoRing
