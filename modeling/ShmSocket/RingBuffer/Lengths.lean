import ShmSocket.RingBuffer.Sequential

/-! The lengths of `send` and `recv` on their way from `size_t` through `int` to the
`memcpy` calls. -/
namespace ShmSocket

/-- A `memcpy` of `n` bytes between offsets of its two areas. -/
structure Copy where
  dst : ℕ
  src : ℕ
  n : ℕ

/-- The `memcpy` calls of `rb_write` from the caller's buffer into the data area. -/
def writeCopies (tail : ℕ) (len : ℤ) : List Copy :=
  if Contiguous tail len then [⟨tail, 0, sizeT len⟩]
  else
    let remain := shmDataSize - tail
    [⟨tail, 0, remain⟩, ⟨0, remain, sizeT (len - remain)⟩]

/-- The `memcpy` calls of `rb_read` from the data area into the caller's buffer. -/
def readCopies (head : ℕ) (len : ℤ) : List Copy :=
  if Contiguous head len then [⟨0, head, sizeT len⟩]
  else
    let remain := shmDataSize - head
    [⟨0, head, remain⟩, ⟨remain, 0, sizeT (len - remain)⟩]

theorem copyIn_copies (content input : ℕ → Byte) (tail : ℕ) (len : ℤ) :
    copyIn content tail len input =
      (writeCopies tail len).foldl (fun dst c => memcpy dst c.dst input c.src c.n) content := by
  unfold copyIn writeCopies
  split <;> rfl

theorem copyOut_copies (content output : ℕ → Byte) (head : ℕ) (len : ℤ) :
    copyOut content head len output =
      (readCopies head len).foldl (fun dst c => memcpy dst c.dst content c.src c.n) output := by
  unfold copyOut readCopies
  split <;> rfl

/-- The copies of a call of `rb_write`. -/
def rbWriteCopies (r : Ring) (len : ℤ) : List Copy :=
  let len := clampLen (writeSize r.head r.tail) len
  if len = 0 then [] else writeCopies r.tail len

/-- The copies of a call of `rb_read`. -/
def rbReadCopies (r : Ring) (len : ℤ) : List Copy :=
  let len := clampLen (readSize r.head r.oldtail) len
  if len = 0 then [] else readCopies r.head len

/-- The header words are offsets of the data area. -/
structure Ring.Offsets (r : Ring) : Prop where
  head : r.head < shmDataSize
  tail : r.tail < shmDataSize
  oldtail : r.oldtail < shmDataSize

/-- `send` of `len` bytes, a `size_t` that `rb_write` takes as an `int`: it accepts what
fits, reads the caller's bytes and stores to the data area only. -/
structure SendServes (r : Ring) (len : ℕ) : Prop where
  returns : ∀ buf, ∃ r', rbWrite r (i32 len) buf =
    some (((min len (writeSize r.head r.tail) : ℕ) : ℤ), r') ∧ r'.Offsets
  copies : ∀ c ∈ rbWriteCopies r (i32 len), c.src + c.n ≤ len ∧ c.dst + c.n ≤ shmDataSize

/-- The `rb_read` of `recv` for `len` bytes: it returns what is published, reads the data
area and stores to the caller's bytes only. -/
structure RecvServes (r : Ring) (len : ℕ) : Prop where
  returns : ∀ buf, ∃ r' out, rbReadInt r (i32 len) buf =
    some (((min len (readSize r.head r.oldtail) : ℕ) : ℤ), r', out) ∧ r'.Offsets
  copies : ∀ c ∈ rbReadCopies r (i32 len), c.dst + c.n ≤ len ∧ c.src + c.n ≤ shmDataSize

/-- The rings that a call of `send` or `recv` leaves. A `send` without a result has moved
`tail` and may have stored any bytes when its process ends. -/
inductive Ring.Call (r : Ring) : Ring → Prop
  | sent {len : ℕ} {buf : ℕ → Byte} {ret : ℤ} {r' : Ring}
      (hs : rbWrite r (i32 len) buf = some (ret, r')) : r.Call r'
  | died {len : ℕ} {buf : ℕ → Byte} (content : ℕ → Byte) (hs : rbWrite r (i32 len) buf = none) :
      r.Call { r with
        tail := advance r.tail (clampLen (writeSize r.head r.tail) (i32 len))
        content }
  | received {len : ℕ} {buf out : ℕ → Byte} {ret : ℤ} {r' : Ring}
      (hs : rbReadInt r (i32 len) buf = some (ret, r', out)) : r.Call r'

/-- The low 32 bits of `len` are an `int` that is not negative, and what the conversion
loses does not matter for `size` bytes. -/
def Representable (len size : ℕ) : Prop :=
  len % 2 ^ 32 < 2 ^ 31 ∧ (len < 2 ^ 32 ∨ size ≤ len % 2 ^ 32)

instance (len size : ℕ) : Decidable (Representable len size) := by
  unfold Representable
  infer_instance

/-- `rb_write` has nothing to transfer or finds no write unfinished. -/
def Ring.Clear (r : Ring) (len : ℕ) : Prop :=
  len = 0 ∨ writeSize r.head r.tail = 0 ∨ r.oldtail = r.tail

instance (r : Ring) (len : ℕ) : Decidable (r.Clear len) := by
  unfold Ring.Clear
  infer_instance

section copies
variable {pos n : ℕ}

/-- The offsets of the two areas a transfer of `n` bytes uses. -/
theorem writeCopies_within (hpos : pos < shmDataSize) (hn : n < shmDataSize) :
    ∀ c ∈ writeCopies pos n, c.src + c.n ≤ n ∧ c.dst + c.n ≤ shmDataSize := by
  have hN := shmDataSize_eq
  unfold writeCopies
  simp only [contiguous_natCast (by omega : pos + n < 2 ^ 32)]
  split_ifs with hc
  · rw [sizeT_natCast (by omega)]
    simp only [List.mem_singleton, forall_eq]
    omega
  · have hrem : ((n : ℤ) - ((shmDataSize - pos : ℕ) : ℤ)) =
        ((n - (shmDataSize - pos) : ℕ) : ℤ) := by omega
    rw [hrem, sizeT_natCast (by omega)]
    simp only [List.mem_cons, List.not_mem_nil, or_false, forall_eq_or_imp, forall_eq]
    omega

/-- The copies of `rb_read` are those of `rb_write` the other way. -/
theorem readCopies_eq (pos : ℕ) (len : ℤ) :
    readCopies pos len = (writeCopies pos len).map fun c => ⟨c.src, c.dst, c.n⟩ := by
  unfold readCopies writeCopies
  split <;> rfl

theorem readCopies_within (hpos : pos < shmDataSize) (hn : n < shmDataSize) :
    ∀ c ∈ readCopies pos n, c.dst + c.n ≤ n ∧ c.src + c.n ≤ shmDataSize := by
  rw [readCopies_eq]
  intro c hc
  obtain ⟨d, hd, rfl⟩ := List.mem_map.mp hc
  exact writeCopies_within hpos hn d hd

end copies

theorem clampLen_neg {len : ℤ} (size : ℕ) (h : len < 0) : clampLen size len = len :=
  if_neg (by omega)

theorem writeSize_lt {head tail : ℕ} (hh : head < shmDataSize) (ht : tail < shmDataSize) :
    writeSize head tail < shmDataSize := by
  unfold writeSize
  split_ifs <;> omega

/-- The conversion serves the whole length if and only if it is `Representable`. -/
theorem representable_iff {len size : ℕ} (hlen : len % 2 ^ 32 < 2 ^ 31) (hsize : size < 2 ^ 32) :
    Representable len size ↔ min (len % 2 ^ 32) size = min len size := by
  unfold Representable
  omega

variable {r r' : Ring} {len : ℕ}

/-- A `memcpy` for a negative `int` is larger than the data area. -/
theorem writeCopies_neg (pos : ℕ) {len : ℤ} (hneg : len < 0) (hlow : -2 ^ 31 ≤ len) :
    ∃ c ∈ writeCopies pos len, shmDataSize < c.n := by
  have hN := shmDataSize_eq
  unfold writeCopies
  split_ifs
  · refine ⟨_, List.mem_singleton_self _, ?_⟩
    change _ < sizeT len
    unfold sizeT
    omega
  · refine ⟨_, List.mem_cons_of_mem _ (List.mem_singleton_self _), ?_⟩
    change _ < sizeT (len - ((shmDataSize - pos : ℕ) : ℤ))
    unfold sizeT
    omega

theorem rbWrite_neg {len : ℤ} (h : len < 0) (buf : ℕ → Byte) : rbWrite r len buf = none := by
  simp only [rbWrite, clampLen_neg _ h, if_neg h.ne, if_neg fun hc : 0 < len ∧ _ => h.not_gt hc.1]

/-- For a length whose low 32 bits are a negative `int` a `memcpy` of either call leaves
the data area, and neither call has a result. -/
theorem negative_dies (r : Ring) (hneg : 2 ^ 31 ≤ len % 2 ^ 32) (buf : ℕ → Byte) :
    (rbWrite r (i32 len) buf = none ∧ ∃ c ∈ rbWriteCopies r (i32 len), shmDataSize < c.n) ∧
      (rbReadInt r (i32 len) buf = none ∧
        ∃ c ∈ rbReadCopies r (i32 len), shmDataSize < c.n) := by
  have hlt := i32_neg hneg
  have hlow := le_i32 len
  refine ⟨⟨rbWrite_neg hlt buf, ?_⟩, if_pos hlt, ?_⟩
  · rw [rbWriteCopies, clampLen_neg _ hlt, if_neg hlt.ne]
    exact writeCopies_neg r.tail hlt hlow
  · rw [rbReadCopies, clampLen_neg _ hlt, if_neg hlt.ne, readCopies_eq]
    obtain ⟨c, hc, hpast⟩ := writeCopies_neg r.head hlt hlow
    exact ⟨_, List.mem_map_of_mem hc, hpast⟩

/-- `rb_write` of an `int` that is not negative, on any ring. -/
theorem rbWrite_natCast (len : ℕ) (buf : ℕ → Byte) : rbWrite r len buf =
    if min len (writeSize r.head r.tail) = 0 then some (0, r)
    else if r.oldtail = r.tail then
      some (((min len (writeSize r.head r.tail) : ℕ) : ℤ),
        r.pushed (min len (writeSize r.head r.tail)) buf)
    else none := by
  simp only [rbWrite, clampLen_natCast, Int.natCast_eq_zero]
  generalize min len (writeSize r.head r.tail) = n
  by_cases hz : n = 0
  · rw [if_pos hz, if_pos hz]
  · rw [if_neg hz, if_neg hz]
    refine if_congr ⟨And.right, fun he => ⟨by omega, he⟩⟩ rfl rfl

theorem advance_lt (pos : ℕ) (len : ℤ) : advance pos len < shmDataSize :=
  Nat.mod_lt _ shmDataSize_pos

namespace Ring.Offsets

theorem pushed (h : r.Offsets) (n : ℕ) (buf : ℕ → Byte) : (r.pushed n buf).Offsets :=
  ⟨h.head, advance_lt _ _, advance_lt _ _⟩

theorem rbRead (h : r.Offsets) (len : ℕ) (buf : ℕ → Byte) :
    (ShmSocket.rbRead r len buf).2.1.Offsets := by
  simp only [ShmSocket.rbRead]
  split_ifs
  · exact h
  · exact ⟨advance_lt _ _, h.tail, h.oldtail⟩

/-- Every call leaves the header words offsets, also one that ends its process. -/
theorem call (h : r.Offsets) (hc : r.Call r') : r'.Offsets := by
  cases hc with
  | sent hs =>
    simp only [rbWrite] at hs
    split_ifs at hs
    · obtain ⟨-, rfl⟩ := Prod.mk.inj (Option.some.inj hs)
      exact h
    · obtain ⟨-, rfl⟩ := Prod.mk.inj (Option.some.inj hs)
      exact ⟨h.head, advance_lt _ _, advance_lt _ _⟩
  | died content hs => exact ⟨h.head, advance_lt _ _, h.oldtail⟩
  | @received len buf out ret r' hs =>
    simp only [rbReadInt] at hs
    split_ifs at hs
    have hoffsets := h.rbRead (i32 len).toNat buf
    rwa [Option.some.inj hs] at hoffsets

/-- The rings that calls one after the other can leave are all in the domain of the
results below. -/
theorem of_calls (h : Relation.ReflTransGen Ring.Call Ring.zero r) : r.Offsets := by
  induction h with
  | refl => exact ⟨shmDataSize_pos, shmDataSize_pos, shmDataSize_pos⟩
  | tail _ hc ih => exact ih.call hc

theorem sendServes_iff (h : r.Offsets) :
    SendServes r len ↔ Representable len (writeSize r.head r.tail) ∧ r.Clear len := by
  have hN := shmDataSize_eq
  have hsize := writeSize_lt h.head h.tail
  by_cases hneg : 2 ^ 31 ≤ len % 2 ^ 32
  · refine ⟨fun hs => ?_, fun hrep => absurd hrep.1.1 (not_lt.mpr hneg)⟩
    obtain ⟨r', hwrite, -⟩ := hs.returns fun _ => 0
    rw [(negative_dies r hneg _).1.1] at hwrite
    cases hwrite
  have hpos : len % 2 ^ 32 < 2 ^ 31 := not_le.mp hneg
  have hwrite := rbWrite_natCast (r := r) (len % 2 ^ 32)
  rw [← i32_mod hpos] at hwrite
  rw [representable_iff hpos (by omega), Ring.Clear]
  constructor
  · intro hs
    obtain ⟨r', hret, -⟩ := hs.returns fun _ => 0
    rw [hwrite] at hret
    split_ifs at hret with hz hold
    · obtain ⟨hcount, -⟩ := Prod.mk.inj (Option.some.inj hret)
      omega
    · simp only [Option.some.injEq, Prod.mk.injEq, Nat.cast_inj] at hret
      exact ⟨hret.1, .inr (.inr hold)⟩
  · rintro ⟨hmin, hclear⟩
    constructor
    · intro buf
      rw [hwrite, hmin]
      split_ifs with hz hold
      · exact ⟨r, by rw [hz]; rfl, h⟩
      · exact ⟨_, rfl, h.pushed _ _⟩
      · omega
    · rw [rbWriteCopies, i32_mod hpos, clampLen_natCast, hmin]
      intro c hc
      split_ifs at hc with hz
      · cases hc
      · obtain ⟨hsrc, hdst⟩ := writeCopies_within h.tail (by omega) c hc
        exact ⟨hsrc.trans (Nat.min_le_left _ _), hdst⟩

theorem recvServes_iff (h : r.Offsets) :
    RecvServes r len ↔ Representable len (readSize r.head r.oldtail) := by
  have hN := shmDataSize_eq
  have hsize := readSize_lt h.head h.oldtail
  by_cases hneg : 2 ^ 31 ≤ len % 2 ^ 32
  · refine ⟨fun hs => ?_, fun hrep => absurd hrep.1 (not_lt.mpr hneg)⟩
    obtain ⟨r', out, hread, -⟩ := hs.returns fun _ => 0
    rw [(negative_dies r hneg _).2.1] at hread
    cases hread
  have hpos : len % 2 ^ 32 < 2 ^ 31 := not_le.mp hneg
  have hread (buf : ℕ → Byte) := rbReadInt_natCast r (len % 2 ^ 32) buf
  rw [← i32_mod hpos] at hread
  have hcount (buf : ℕ → Byte) : (ShmSocket.rbRead r (len % 2 ^ 32) buf).1 =
      ((min (len % 2 ^ 32) (readSize r.head r.oldtail) : ℕ) : ℤ) := by
    simp only [ShmSocket.rbRead, clampLen_natCast]
    split_ifs with hz
    · exact hz.symm
    · rfl
  rw [representable_iff hpos (by omega)]
  constructor
  · intro hs
    obtain ⟨r', out, hret, -⟩ := hs.returns fun _ => 0
    rw [hread, Option.some.injEq] at hret
    have hsame := hcount fun _ => 0
    rw [hret, Nat.cast_inj] at hsame
    exact hsame.symm
  · intro hmin
    constructor
    · intro buf
      exact ⟨_, _, by rw [hread, ← hmin, ← hcount buf], h.rbRead (len % 2 ^ 32) buf⟩
    · rw [rbReadCopies, i32_mod hpos, clampLen_natCast, hmin]
      intro c hc
      split_ifs at hc with hz
      · cases hc
      · obtain ⟨hdst, hsrc⟩ := readCopies_within h.head (by omega) c hc
        exact ⟨hdst.trans (Nat.min_le_left _ _), hsrc⟩

end Ring.Offsets

/-- `send` and `recv` serve a length if and only if no bit that matters is lost on its way
to an `int`, and for `send` no write before it is unfinished. -/
theorem lengths_served (h : r.Offsets) :
    (SendServes r len ↔ Representable len (writeSize r.head r.tail) ∧ r.Clear len) ∧
      (RecvServes r len ↔ Representable len (readSize r.head r.oldtail)) :=
  ⟨h.sendServes_iff, h.recvServes_iff⟩

/-- The ring that a `send` of 2 GiB into an empty ring leaves. -/
def Ring.unfinished : Ring := ⟨0, 12288, 0, fun _ => 0⟩

theorem unfinished_call : Ring.zero.Call Ring.unfinished := by
  have htail : advance 0 (clampLen (writeSize 0 0) (i32 (2 ^ 31))) = 12288 := by decide
  have hcall := Ring.Call.died (fun _ => 0)
    (negative_dies Ring.zero (by decide : 2 ^ 31 ≤ 2 ^ 31 % 2 ^ 32) fun _ => 0).1.1
  change Ring.zero.Call ⟨0, advance 0 (clampLen (writeSize 0 0) (i32 (2 ^ 31))), 0, _⟩ at hcall
  rwa [htail] at hcall

/-- After it the next `send` never returns, and `recv` finds no byte. -/
theorem lengths_served_unfinished : Ring.Call Ring.zero Ring.unfinished ∧
    ¬ SendServes Ring.unfinished 1 ∧ RecvServes Ring.unfinished (2 ^ 31 - 1) := by
  have h := Ring.Offsets.of_calls (Relation.ReflTransGen.single unfinished_call)
  refine ⟨unfinished_call, fun hs => ?_, (lengths_served h).2.mpr (by decide)⟩
  exact absurd ((lengths_served h).1.mp hs) (by decide)

/-- `send` of 4 GiB sends nothing. -/
theorem lengths_lost : ¬ ∀ (r : Ring) (len : ℕ), r.Offsets → len < 2 ^ 64 →
    SendServes r len ∧ RecvServes r len := by
  intro hall
  have hzero := Ring.Offsets.of_calls Relation.ReflTransGen.refl
  have hserves := (hall Ring.zero (2 ^ 32) hzero (by decide)).1
  exact absurd (hzero.sendServes_iff.mp hserves) (by decide)

end ShmSocket
