import ShmSocket.Connection.RingsInv
import ShmSocket.PortTable.Steps

/-! The socket calls of `socket.c`, one at a time, over the port table and the rings. -/
namespace ShmSocket
open PortTable

/-- `(high << 16) | low` in an `int`. -/
def packPorts (high low : ℕ) : ℤ := i32 (high * 2 ^ 16 % 2 ^ 32 ||| low)

/-- `GET_LOCAL_PORT_FROM_FD` -/
def localPort (x : ℤ) : ℕ := u32 x &&& 0xFFFF

/-- `GET_REMOTE_PORT_FROM_FD` -/
def remotePort (x : ℤ) : ℕ := u32 x >>> 16 &&& 0xFFFF

section fd
variable {high low : ℕ}

theorem and_ffff (x : ℕ) : x &&& 0xFFFF = x % 2 ^ 16 := Nat.and_two_pow_sub_one_eq_mod x 16

theorem pack_add (hhigh : high < portNumber) (hlow : low < portNumber) :
    (high * 2 ^ 16 % 2 ^ 32 ||| low) = high * 2 ^ 16 + low := by
  unfold portNumber at hhigh hlow
  have hor := Nat.two_pow_add_eq_or_of_lt (i := 16) (b := low) (by omega) high
  rw [Nat.mod_eq_of_lt (by omega), Nat.mul_comm, ← hor]

theorem u32_packPorts (hhigh : high < portNumber) (hlow : low < portNumber) :
    u32 (packPorts high low) = high * 2 ^ 16 + low := by
  have hadd := pack_add hhigh hlow
  unfold portNumber at hhigh hlow
  rw [packPorts, hadd, u32_i32 (by omega)]

/-- Both halves of a descriptor come back. -/
theorem localPort_pack (hhigh : high < portNumber) (hlow : low < portNumber) :
    localPort (packPorts high low) = low := by
  rw [localPort, u32_packPorts hhigh hlow, and_ffff]
  unfold portNumber at hlow
  omega

theorem remotePort_pack (hhigh : high < portNumber) (hlow : low < portNumber) :
    remotePort (packPorts high low) = high := by
  rw [remotePort, u32_packPorts hhigh hlow, and_ffff, Nat.shiftRight_eq_div_pow]
  unfold portNumber at hhigh hlow
  omega

/-- The descriptor that `accept` returns is a positive `int` above all client ones. -/
theorem packPorts_ge (hhigh : high < 2 ^ 15) (hpos : 0 < high) (hlow : low < portNumber) :
    1024 ≤ packPorts high low := by
  have hadd := pack_add (hhigh.trans (by decide)) hlow
  unfold portNumber at hlow
  rw [packPorts, hadd, i32_of_lt (by omega)]
  omega

/-- A descriptor of `accept` is an `int` that is not negative only for small client ports. -/
theorem packPorts_nonneg (hhigh : high < portNumber) (hlow : low < portNumber)
    (h : 0 ≤ packPorts high low) : high < 2 ^ 15 := by
  have hback := u32_packPorts hhigh hlow
  have hlt := i32_lt (high * 2 ^ 16 % 2 ^ 32 ||| low)
  rw [← packPorts] at hlt
  unfold u32 at hback
  omega

/-- The client port comes back from the word of a won listening port. -/
theorem taken_and {port : ℕ} (h : port < portNumber) : taken port &&& 0xFFFF = port := by
  unfold portNumber at h
  have hor := Nat.two_pow_add_eq_or_of_lt (i := 22) (b := port) (by omega) 1
  rw [taken, maxPidBits, Nat.or_comm, ← Nat.mul_one (2 ^ 22), ← hor, and_ffff]
  omega

end fd

/-- `get_free_port`: the first free entry, 0 if there is none. -/
def getFreePort (table : ℕ → ℤ) : ℕ :=
  ((List.range' 1 (portNumber - 1)).find? fun i => table i = 0).getD 0

theorem getFreePort_free {table : ℕ → ℤ} (h : getFreePort table ≠ 0) :
    table (getFreePort table) = 0 ∧ getFreePort table < portNumber := by
  unfold getFreePort at h ⊢
  cases hf : (List.range' 1 (portNumber - 1)).find? fun i => table i = 0 with
  | none =>
    rw [hf] at h
    exact absurd rfl h
  | some i =>
    have hzero := List.find?_some hf
    have hmem := List.mem_range'_1.mp (List.mem_of_find?_eq_some hf)
    rw [Option.getD_some]
    refine ⟨by simpa using hzero, ?_⟩
    unfold portNumber at hmem ⊢
    omega

/-- `clientFdToIdx (p, fd)` is `client_fd_to_idx[fd]` of process `p`: an entry for `fd` in
`0..1023`, and for any other `fd` the memory in front of the array or behind it. -/
structure World where
  rings : Rings
  portTable : ℕ → ℤ
  clientFdToIdx : Pid × ℤ → ℤ

namespace World

def bind (w : World) (p : Pid) (port : ℕ) : ℤ × World :=
  if w.portTable port ≠ 0 then (-1, w)
  else (0, { w with portTable := Function.update w.portTable port p })

def connect (w : World) (p : Pid) (fd serverPort : ℕ) : Option (ℤ × World) :=
  let pid := u32 (w.portTable serverPort)
  if 2 ^ maxPidBits ≤ pid then some (-1, w)
  else if pid = 0 then some (-2, w)
  else
    let clientPort := getFreePort w.portTable
    if clientPort = 0 then some (-1, w)
    else
      let table := Function.update w.portTable clientPort (fd2port p fd)
      if table serverPort = i32 pid then
        let table := Function.update table serverPort (taken clientPort)
        let idx := packPorts serverPort clientPort
        (w.rings.openRing p (remotePort idx, localPort idx)).map fun (_, rings) => (0, {
          rings
          portTable := Function.update table clientPort (-1)
          clientFdToIdx := Function.update w.clientFdToIdx (p, fd) idx })
      else some (-1, { w with portTable := Function.update table clientPort 0 })

/-- `accept` after the signal of a client. -/
def accept (w : World) (p : Pid) (fd : ℤ) (serverPort : ℕ) : Option (ℤ × World) :=
  (w.rings.openRing p (remotePort fd, localPort fd)).map fun (_, rings) =>
    (packPorts (u32 (w.portTable serverPort) &&& 0xFFFF) serverPort, { w with rings })

/-- The ports of a descriptor: those below 1024 belong to clients, a negative one too. -/
def portsOf (w : World) (p : Pid) (fd : ℤ) : ℤ :=
  if fd < 1024 then w.clientFdToIdx (p, fd) else fd

def send (w : World) (p : Pid) (fd : ℤ) (buf : List Byte) : Option (ℤ × World) :=
  let fd := w.portsOf p fd
  (w.rings.openRing p (localPort fd, remotePort fd)).bind fun (k, rings) =>
    (rings.write p k buf).map fun (ret, rings) => (ret, { w with rings })

/-- `none` when the ring is empty and the port of the other end in use: `recv` waits. -/
def recv (w : World) (p : Pid) (fd : ℤ) (len : ℕ) : Option (List Byte × World) :=
  let fd := w.portsOf p fd
  (w.rings.openRing p (remotePort fd, localPort fd)).bind fun (k, rings) =>
    let first := rings.read p k len
    if first.1 ≠ [] then some (first.1, { w with rings := first.2 })
    else if w.portTable (remotePort fd) = 0 then
      let second := first.2.read p k len
      some (second.1, { w with rings := second.2 })
    else none

def close (w : World) (p : Pid) (fd : ℤ) : Option (ℤ × World) :=
  let fd := w.portsOf p fd
  let portTable := Function.update w.portTable (localPort fd) 0
  (w.rings.closeRing p (remotePort fd, localPort fd)).map fun rings =>
    (0, { w with rings, portTable })

variable {w w' : World} {ls : List (List ℕ)} {p : Pid} {fd ret : ℤ} {buf bytes : List Byte}
  {len serverPort clientFd : ℕ}

/-- The word of a won port is not a listener's pid. -/
theorem u32_taken {port : ℕ} (h : port < portNumber) : u32 (taken port) = taken port :=
  u32_natCast (taken_lt h)

/-- What a successful `connect` leaves. -/
structure Connected (w : World) (p : Pid) (clientFd serverPort : ℕ) (w' : World) : Prop where
  listening : u32 (w.portTable serverPort) ≠ 0
  unwon : u32 (w.portTable serverPort) < 2 ^ maxPidBits
  clientPos : 0 < getFreePort w.portTable
  rings : ∃ pair k, w.rings.openRing p pair = some (k, w'.rings)
  portTable : w'.portTable = Function.update (Function.update w.portTable serverPort
    (taken (getFreePort w.portTable))) (getFreePort w.portTable) (-1)
  clientFdToIdx : w'.clientFdToIdx = Function.update w.clientFdToIdx (p, clientFd)
    (packPorts serverPort (getFreePort w.portTable))

/-- The provisional word of a client port is overwritten. -/
theorem update_overwritten (table : ℕ → ℤ) (i j : ℕ) (x y z : ℤ) :
    Function.update (Function.update (Function.update table i x) j y) i z =
      Function.update (Function.update table j y) i z := by
  funext q
  by_cases hq : q = i
  · rw [hq, Function.update_self, Function.update_self]
  · rw [Function.update_of_ne hq, Function.update_of_ne hq, Function.update_apply,
      Function.update_apply, if_neg hq, Function.update_apply]

/-- A failed `connect` leaves everything as it was. -/
theorem connect_spec (hs : w.connect p clientFd serverPort = some (ret, w')) :
    ret ≠ 0 ∧ w' = w ∨ ret = 0 ∧ Connected w p clientFd serverPort w' := by
  simp only [connect] at hs
  split at hs
  · cases hs
    exact .inl ⟨by decide, rfl⟩
  · next hunwon =>
    split at hs
    · cases hs
      exact .inl ⟨by decide, rfl⟩
    · next hlistening =>
      split at hs
      · cases hs
        exact .inl ⟨by decide, rfl⟩
      · next hport =>
        obtain ⟨hfree, -⟩ := getFreePort_free hport
        split at hs
        · obtain ⟨⟨k, rings⟩, hopen, he⟩ := Option.map_eq_some_iff.mp hs
          obtain ⟨rfl, rfl⟩ := Prod.mk.inj he
          right
          exact ⟨rfl, hlistening, by omega, Nat.pos_of_ne_zero hport, ⟨_, k, hopen⟩,
            update_overwritten _ _ _ _ _ _, rfl⟩
        · cases hs
          left
          refine ⟨by decide, ?_⟩
          rw [Function.update_idem, ← hfree, Function.update_eq_self]

/-- `send` appends what fits to the ring of the pair. -/
theorem send_spec {c : Cell} (h : RingsInv w.rings ls) (hs : w.send p fd buf = some (ret, w'))
    (hc : cell p (localPort (w.portsOf p fd), remotePort (w.portsOf p fd)) = c) :
    ret = ((min buf.length (shmDataSize - 1 - (w.rings.pending c).length) : ℕ) : ℤ) ∧
      (∃ ls', RingsInv w'.rings ls') ∧
      w'.rings.pending = Function.update w.rings.pending c (w.rings.pending c ++
        buf.take (shmDataSize - 1 - (w.rings.pending c).length)) ∧
      w'.portTable = w.portTable ∧ w'.clientFdToIdx = w.clientFdToIdx := by
  obtain ⟨⟨k, s₁⟩, hopen, hrest⟩ := Option.bind_eq_some_iff.mp hs
  obtain ⟨s', ls', hwrite, hinv, hpending⟩ := h.openWrite hopen buf
  rw [hc] at hwrite hpending
  simp only [hwrite, Option.map_some, Option.some.injEq, Prod.mk.injEq] at hrest
  obtain ⟨hret, rfl⟩ := hrest
  exact ⟨hret.symm, ⟨ls', hinv⟩, hpending, rfl, rfl⟩

/-- `recv` takes the first bytes from the ring of the crossed pair. -/
theorem recv_spec {c : Cell} (h : RingsInv w.rings ls)
    (hs : w.recv p fd len = some (bytes, w'))
    (hc : cell p (remotePort (w.portsOf p fd), localPort (w.portsOf p fd)) = c)
    (hport : w.portTable (remotePort (w.portsOf p fd)) ≠ 0) :
    bytes = (w.rings.pending c).take len ∧ (∃ ls', RingsInv w'.rings ls') ∧
      w'.rings.pending = Function.update w.rings.pending c ((w.rings.pending c).drop len) ∧
      w'.portTable = w.portTable ∧ w'.clientFdToIdx = w.clientFdToIdx := by
  obtain ⟨⟨k, s₁⟩, hopen, hrest⟩ := Option.bind_eq_some_iff.mp hs
  obtain ⟨s', ls', hread, hinv, hpending⟩ := h.openRead hopen len
  rw [hc] at hread hpending
  simp only [hread, if_neg hport] at hrest
  by_cases hempty : (w.rings.pending c).take len = []
  · rw [if_neg (not_not.mpr hempty)] at hrest
    exact absurd hrest (Option.some_ne_none _).symm
  · rw [if_pos hempty] at hrest
    obtain ⟨rfl, rfl⟩ := Prod.mk.inj (Option.some.inj hrest)
    exact ⟨rfl, ⟨ls', hinv⟩, hpending, rfl, rfl⟩

/-- `send` returns once its pair has a ring. -/
theorem send_returns (h : RingsInv w.rings ls)
    (hidx : w.rings.getIdx p (localPort (w.portsOf p fd), remotePort (w.portsOf p fd)) ≠ none)
    (buf : List Byte) : ∃ ret w', w.send p fd buf = some (ret, w') := by
  obtain ⟨⟨k, s₁⟩, hget⟩ := Option.ne_none_iff_exists'.mp hidx
  have hopen : w.rings.openRing p (localPort (w.portsOf p fd), remotePort (w.portsOf p fd)) =
      some (k, s₁.rbGet p k) := by rw [Rings.openRing, hget, Option.map_some]
  obtain ⟨s', ls', hwrite, -⟩ := h.openWrite hopen buf
  simp only [send, hopen, Option.bind_some, hwrite, Option.map_some]
  exact ⟨_, _, rfl⟩

/-- `recv` returns when its ring has bytes. -/
theorem recv_returns {c : Cell} (h : RingsInv w.rings ls)
    (hc : cell p (remotePort (w.portsOf p fd), localPort (w.portsOf p fd)) = c)
    (hne : w.rings.pending c ≠ []) (hlen : 0 < len) :
    ∃ bytes w', w.recv p fd len = some (bytes, w') := by
  have hentry : w.rings.tables.table c ≠ 0 := fun hz => hne (if_pos hz)
  rw [← hc] at hentry hne
  have hopen := RingsInv.openRing_found hentry
  obtain ⟨s', ls', hread, -⟩ := h.openRead hopen len
  have hbytes : (w.rings.pending (cell p
      (remotePort (w.portsOf p fd), localPort (w.portsOf p fd)))).take len ≠ [] := by
    rw [Ne, List.take_eq_nil_iff]
    exact not_or.mpr ⟨hlen.ne', hne⟩
  simp only [recv, hopen, Option.bind_some, hread, if_pos hbytes]
  exact ⟨_, _, rfl⟩

end World

end ShmSocket
