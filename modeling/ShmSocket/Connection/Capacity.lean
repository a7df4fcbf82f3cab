import ShmSocket.Connection.Leftovers
import ShmSocket.Connection.Streams
import Mathlib.Data.Finset.Prod
import Mathlib.Data.Set.Card

/-! What the sockets use of the ports and of the pool: every port in use belongs to one
listener or one open end, every index that is out to an open end, and as long as these fit,
`connect` fails only for want of a listener. -/
namespace ShmSocket.Session
open StepMachine PortTable Indices
open Net (Side End peer)

variable {s s' : Sys} {p : Pid} {a : Act}

/-- The ends that have not called `close`. -/
def Sys.openEnds (s : Sys) : Finset End :=
  (Finset.range s.count ×ˢ {Side.client, Side.server}).filter fun e => (s.status e).Open

instance (w : World) (port : ℕ) : Decidable (Listening w port) := by
  unfold Listening
  infer_instance

def Sys.listeners (s : Sys) : Finset ℕ :=
  (Finset.range portNumber).filter fun port => Listening s.world port

def Sys.usedPorts (s : Sys) : Finset ℕ :=
  (Finset.range portNumber).filter fun port => s.world.portTable port ≠ 0

theorem Sound.mem_openEnds (h : Sound s) (e : End) : e ∈ s.openEnds ↔ (s.status e).Open := by
  have hside : e.2 = .client ∨ e.2 = .server := by
    cases e.2
    · exact .inl rfl
    · exact .inr rfl
  simp only [Sys.openEnds, Finset.mem_filter, Finset.mem_product, Finset.mem_range,
    Finset.mem_insert, Finset.mem_singleton]
  exact ⟨fun he => he.2, fun he => ⟨⟨h.used he, hside⟩, he⟩⟩

/-- A port in use has one owner. -/
theorem Inv.usedPorts_card (h : Inv s) :
    s.usedPorts.card = s.listeners.card + s.openEnds.card := by
  have hports : s.usedPorts = s.listeners ∪ s.openEnds.image s.port := by
    ext port
    simp only [Sys.usedPorts, Sys.listeners, Finset.mem_filter, Finset.mem_range,
      Finset.mem_union, Finset.mem_image, h.mem_openEnds]
    constructor
    · rintro ⟨hlt, hused⟩
      exact (h.owned port hused).imp (fun hl => ⟨hlt, hl⟩) id
    · rintro (⟨hlt, hl⟩ | ⟨e, he, rfl⟩)
      · exact ⟨hlt, (h.owned_iff port).mpr (.inl hl)⟩
      · exact ⟨h.range e (h.used he), h.word_ne_zero he⟩
  have hdisjoint : Disjoint s.listeners (s.openEnds.image s.port) := by
    rw [Finset.disjoint_left]
    intro port hl himage
    obtain ⟨e, he, rfl⟩ := Finset.mem_image.mp himage
    have hge := h.word_ge ((h.mem_openEnds e).mp he)
    exact absurd (Finset.mem_filter.mp hl).2.2 (not_lt.mpr hge)
  rw [hports, Finset.card_union_of_disjoint hdisjoint, Finset.card_image_of_injOn]
  intro e he e' he' heq
  exact h.apart e e' ((h.mem_openEnds e).mp he) ((h.mem_openEnds e').mp he') heq

/-- The indices of the pool that are not free. -/
def Sys.indicesOut (s : Sys) : Set ℕ := {k | 1 ≤ k ∧ k ≤ channelSize ∧ ¬ s.Free k}

theorem Clean.indicesOut_ncard (h : Clean s) : s.indicesOut.ncard ≤ s.openEnds.card := by
  have hsub : s.indicesOut ⊆
      ((s.openEnds.image fun e => s.world.rings.tables.table (s.inbox e) : Finset ℕ) : Set ℕ) := by
    rintro k ⟨hpos, hle, hout⟩
    obtain ⟨e, he, rfl⟩ := h.nothingLeft.taken k hpos hle hout
    exact Finset.mem_coe.mpr (Finset.mem_image_of_mem _ ((h.sound.mem_openEnds e).mpr he))
  have hcard := Set.ncard_le_ncard hsub (Finset.finite_toSet _)
  rw [Set.ncard_coe_finset] at hcard
  exact hcard.trans Finset.card_image_le

/-- With fewer open ends than indices the pool need not grow. -/
theorem Clean.getIdx_some (h : Clean s) (hroom : s.openEnds.card < channelSize) (pair : Pair) :
    s.world.rings.getIdx p pair ≠ none := by
  intro hnone
  obtain ⟨ls, hpart⟩ := h.sound.indices
  -- `get_idx` looks at the tables only, so the rings may as well be fresh
  have hfresh : RingsInv ⟨s.world.rings.tables, fun _ => Ring.zero, fun _ => 0,
      fun _ => false⟩ ls :=
    ⟨hpart, h.sound.single, fun _ hk => absurd rfl hk, fun _ _ hm => (by cases hm),
      fun _ _ => if_pos rfl⟩
  have hnone' : Rings.getIdx ⟨s.world.rings.tables, fun _ => Ring.zero, fun _ => 0,
      fun _ => false⟩ p pair = none := by
    simp only [Rings.getIdx] at hnone ⊢
    by_cases hlen : (Indices.getIdx 0 s.world.rings.tables
        (ShmSocket.cell p pair)).2.pool.length = s.world.rings.tables.pool.length
    · rw [if_pos hlen] at hnone
      cases hnone
    · rw [if_neg hlen]
  have hall : Set.Icc 1 channelSize ⊆ s.indicesOut := by
    rintro k ⟨hpos, hle⟩
    obtain ⟨c, hc⟩ := hfresh.getIdx_none hnone' ⟨hpos, hle⟩
    exact ⟨hpos, hle, fun hfree => ((free_iff h.sound k).mp hfree).2.2 c hc⟩
  have hfinite : s.indicesOut.Finite :=
    (Set.finite_Icc 1 channelSize).subset fun k hk => ⟨hk.1, hk.2.1⟩
  have hcard := Set.ncard_le_ncard hall hfinite
  rw [← Finset.coe_Icc, Set.ncard_coe_finset, Nat.card_Icc] at hcard
  have hle := h.indicesOut_ncard
  omega

/-- `get_free_port` fails exactly when no port is left. -/
theorem getFreePort_ne_zero (table : ℕ → ℤ) :
    getFreePort table ≠ 0 ↔ ∃ i, 0 < i ∧ i < portNumber ∧ table i = 0 := by
  constructor
  · intro h
    obtain ⟨hzero, hlt⟩ := getFreePort_free h
    exact ⟨_, Nat.pos_of_ne_zero h, hlt, hzero⟩
  · rintro ⟨i, hpos, hlt, hzero⟩
    unfold getFreePort
    cases hf : (List.range' 1 (portNumber - 1)).find? fun i => table i = 0 with
    | none =>
      rw [List.find?_eq_none] at hf
      exact absurd (hf i (List.mem_range'_1.mpr ⟨hpos, by omega⟩)) (by simpa using hzero)
    | some j =>
      have hmem := List.mem_range'_1.mp (List.mem_of_find?_eq_some hf)
      rw [Option.getD_some]
      omega

/-- A port is left as long as listeners and open ends are fewer than the ports. -/
theorem Ported.freePort_iff (h : Ported s) : getFreePort s.world.portTable ≠ 0 ↔
    s.listeners.card + s.openEnds.card < portNumber - 1 := by
  rw [getFreePort_ne_zero, ← h.inv.usedPorts_card]
  have hsub : s.usedPorts ⊆ Finset.Ico 1 portNumber := by
    intro port hport
    obtain ⟨hlt, hused⟩ := Finset.mem_filter.mp hport
    refine Finset.mem_Ico.mpr ⟨Nat.pos_of_ne_zero ?_, Finset.mem_range.mp hlt⟩
    rintro rfl
    exact hused h.zero
  have hcard : (Finset.Ico 1 portNumber).card = portNumber - 1 := Nat.card_Ico 1 portNumber
  constructor
  · rintro ⟨i, hpos, hlt, hzero⟩
    rw [← hcard]
    refine Finset.card_lt_card ⟨hsub, fun hall => ?_⟩
    have hmem := hall (Finset.mem_Ico.mpr ⟨hpos, hlt⟩)
    exact (Finset.mem_filter.mp hmem).2 hzero
  · intro hlt
    obtain ⟨i, hi, hnot⟩ := Finset.exists_mem_notMem_of_card_lt_card (hlt.trans_eq hcard.symm)
    obtain ⟨hpos, hlt⟩ := Finset.mem_Ico.mp hi
    refine ⟨i, hpos, hlt, ?_⟩
    by_contra hne
    exact hnot (Finset.mem_filter.mpr ⟨Finset.mem_range.mpr hlt, hne⟩)

/-- A word that an `int` holds. -/
def IsInt (x : ℤ) : Prop := i32 (u32 x) = x

instance (x : ℤ) : Decidable (IsInt x) := by
  unfold IsInt
  infer_instance

theorem isInt_natCast {x : ℕ} (h : x < 2 ^ 31) : IsInt x := by
  rw [IsInt, u32_natCast (by omega), i32_of_lt h]

theorem isInt_update {words : ℕ → ℤ} {port : ℕ} {x : ℤ} (hword : IsInt (words port))
    (hx : IsInt x) (q : ℕ) : IsInt (Function.update words q x port) := by
  rw [Function.update_apply]
  split_ifs
  · exact hx
  · exact hword

theorem isInt_step {port : ℕ} (hword : IsInt (s.world.portTable port))
    (hs : s.step a = some s') : IsInt (s'.world.portTable port) := by
  cases step_cases hs with
  | @bind p q hp =>
    change IsInt ((s.world.bind p q).2.portTable port)
    unfold World.bind
    split
    · exact hword
    · exact isInt_update hword (isInt_natCast (hp.2.trans (by decide))) q
  | refused => exact hword
  | @connect p fd serverPort world hfd hserver hconnect hcon =>
    obtain ⟨-, hclient⟩ := getFreePort_free hcon.clientPos.ne'
    have htaken : taken (getFreePort s.world.portTable) < 2 ^ 31 := by
      unfold portNumber at hclient
      unfold taken maxPidBits
      exact Nat.or_lt_two_pow (by omega) (by omega)
    change IsInt (world.portTable port)
    rw [hcon.portTable]
    exact isInt_update (isInt_update hword (isInt_natCast htaken) _) (by decide) _
  | @accept n p fd ret world hwaiting haccept =>
    change IsInt (world.portTable port)
    rw [(accept_opens haccept).1.portTable]
    exact hword
  | @send e buf p fd ret world hstatus hfd hsend =>
    change IsInt (world.portTable port)
    rw [(send_opens hsend).portTable]
    exact hword
  | @recv e len p fd bytes world hstatus hfd hrecv =>
    change IsInt (world.portTable port)
    rw [(recv_opens hrecv).portTable]
    exact hword
  | @close e p fd ret world hstatus hfd hclose =>
    change IsInt (world.portTable port)
    rw [(close_changes hclose).2.1]
    exact isInt_update hword (by decide) _
  | @other p fd call world hfd hno hrun =>
    change IsInt (world.portTable port)
    rcases run_cases hrun with ⟨-, ho⟩ | ⟨-, ret, hclose⟩
    · rw [ho.portTable]
      exact hword
    · rw [(close_changes hclose).2.1]
      exact isInt_update hword (by decide) _

/-- The port table holds ints. -/
theorem isInt_of_reachable {C : Sys → Act → Prop} (h : machine.Reachable C s) (port : ℕ) :
    IsInt (s.world.portTable port) := by
  have hstart : ∀ s, machine.init s → IsInt (s.world.portTable port) := by
    rintro s ⟨-, -, -, htable, -⟩
    rw [htable port]
    exact isInt_natCast (x := 0) (by decide)
  have hall := h.invariant hstart fun s a s' hw _ hs => isInt_step hw hs
  exact hall

/-- What `connect` returns when the pool has room. -/
theorem connect_result {w : World} (serverPort fd : ℕ)
    (hint : ∀ port, IsInt (w.portTable port)) (hroom : ∀ pair, w.rings.getIdx p pair ≠ none) :
    ∃ ret world, w.connect p fd serverPort = some (ret, world) ∧
      (ret = 0 ↔ Listening w serverPort ∧ getFreePort w.portTable ≠ 0) ∧
      (ret = -2 ↔ w.portTable serverPort = 0) := by
  have hzero : u32 (w.portTable serverPort) = 0 ↔ w.portTable serverPort = 0 := by
    constructor
    · intro hz
      rw [← hint serverPort, hz]
      rfl
    · intro hz
      rw [hz]
      rfl
  by_cases hwon : 2 ^ maxPidBits ≤ u32 (w.portTable serverPort)
  · refine ⟨-1, w, by simp only [World.connect, if_pos hwon], ?_, ?_⟩
    · exact iff_of_false (by decide) fun hl => absurd hl.1.2 (not_lt.mpr hwon)
    · rw [← hzero]
      exact iff_of_false (by decide) fun hz => absurd (hz ▸ hwon) (by decide)
  by_cases hpid : u32 (w.portTable serverPort) = 0
  · refine ⟨-2, w, by simp only [World.connect, if_neg hwon, if_pos hpid], ?_, ?_⟩
    · exact iff_of_false (by decide) fun hl => absurd hpid hl.1.1.ne'
    · exact iff_of_true rfl (hzero.mp hpid)
  have hlistening : Listening w serverPort := ⟨Nat.pos_of_ne_zero hpid, Nat.lt_of_not_le hwon⟩
  by_cases hclient : getFreePort w.portTable = 0
  · refine ⟨-1, w, by simp only [World.connect, if_neg hwon, if_neg hpid, if_pos hclient], ?_, ?_⟩
    · exact iff_of_false (by decide) fun hl => hl.2 hclient
    · rw [← hzero]
      exact iff_of_false (by decide) hpid
  · -- the new client port is not the listener's, so the compare and swap sees its pid
    have hne : serverPort ≠ getFreePort w.portTable := fun he => by
      rw [← he] at hclient
      exact hpid (hzero.mpr (he ▸ (getFreePort_free (he ▸ hclient)).1))
    obtain ⟨⟨k, rings⟩, hopen⟩ : ∃ r, w.rings.openRing p
        (remotePort (packPorts serverPort (getFreePort w.portTable)),
          localPort (packPorts serverPort (getFreePort w.portTable))) = some r := by
      obtain ⟨r, hr⟩ := Option.ne_none_iff_exists'.mp (hroom _)
      exact ⟨_, by rw [Rings.openRing, hr, Option.map_some]⟩
    have hswap : Function.update w.portTable (getFreePort w.portTable)
        (fd2port p fd) serverPort = i32 (u32 (w.portTable serverPort)) := by
      rw [Function.update_of_ne hne, hint serverPort]
    refine ⟨0, _, by
      simp only [World.connect, if_neg hwon, if_neg hpid, if_neg hclient, if_pos hswap, hopen,
        Option.map_some]
      rfl, ?_, ?_⟩
    · exact iff_of_true rfl ⟨hlistening, hclient⟩
    · rw [← hzero]
      exact iff_of_false (by decide) hpid

end ShmSocket.Session
