import ShmSocket.Connection.Parallel

/-! The streams of connections whose calls run at the same time: every ring in use belongs to
one open end, which alone reads from it, and only the other end's thread writes to it. -/
namespace ShmSocket.Parallel
open StepMachine Indices
open Net (End peer)
open Session (Ported Joins peer_involutive)
open RingBuffer (Tid Ret Line Quiet)

variable {x y : Sys} {e : End} {p : Pid} {fd : ℤ} {c : Cell} {k : ℕ} {seg : Segment}
  {s : RingBuffer.Sys}

structure Inv (x : Sys) : Prop where
  ports : Ported x.socks
  rings : ∃ ls, RingsInv x.rings.cleared ls
  unattached : ∀ seg, x.rings.nattch seg = 0 → x.flow seg = .start
  line : ∀ e, (x.socks.status e).Open → Line (tid (peer e) .sender) (tid e .receiver)
    (x.inbox e) (x.sent (peer e)) (x.received e)
  quiet : ∀ c, (∀ e, (x.socks.status e).Open → x.socks.cell e ≠ c) → Quiet (x.ring c)
  free : ∀ k, IsIndex k → (∀ c, x.rings.tables.table c ≠ k) → Quiet (x.view (ringSegment k))
  other : ∀ seg, (∀ k, IsIndex k → seg ≠ ringSegment k) → ∀ t, (x.flow seg).thread t = .idle
  drained : ∀ e, ¬ (x.socks.status e).Open → x.received e = x.sent (peer e)
  fresh : ∀ e, x.socks.count ≤ e.1 → x.sent e = [] ∧ x.received e = []

theorem Inv.start (h : machine.init x) : Inv x := by
  obtain ⟨h0, hflow, hsent, hreceived⟩ := h
  obtain ⟨a, htables⟩ := h0.1
  have hclosed : ∀ e, ¬ (x.socks.status e).Open := fun e => by
    rw [h0.2.2.2.2.2 e]
    exact id
  refine ⟨.start h0, ⟨_, .start htables h0.2.1 h0.2.2.1⟩, fun seg _ => hflow seg, ?_, ?_, ?_, ?_,
    ?_, fun e _ => ⟨hsent e, hreceived e⟩⟩
  · exact fun e he => absurd he (hclosed e)
  · intro c _
    have hzero : x.rings.tables.table c = 0 := by
      change x.socks.world.rings.tables.table c = 0
      rw [htables]
    rw [Sys.ring, if_pos hzero]
    exact .start _
  · intro k _ _
    have hzero : x.rings.nattch (ringSegment k) = 0 := h0.2.1 _
    rw [Sys.view, if_pos hzero]
    exact .start _
  · intro seg _ t
    rw [hflow]
    rfl
  · intro e _
    rw [hsent, hreceived]

/-- What a look-up does to the entries and the rings. -/
structure Keeps (x y : Sys) : Prop where
  rings : ∃ ls, RingsInv y.rings.cleared ls
  flow : y.flow = x.flow
  attaches : Rings.Attaches x.rings y.rings
  entries : ∀ c, y.rings.tables.table c = x.rings.tables.table c ∨
    x.rings.tables.table c = 0 ∧ y.rings.tables.table c ≠ 0 ∧
      ∀ c', x.rings.tables.table c' ≠ y.rings.tables.table c

theorem Keeps.of_eq (h : Inv x) (hrings : y.rings = x.rings) (hflow : y.flow = x.flow) :
    Keeps x y := by
  refine ⟨?_, hflow, ?_, fun c => ?_⟩
  · rw [hrings]
    exact h.rings
  · rw [hrings]
    exact .of_eq rfl rfl
  · rw [hrings]
    exact .inl rfl

/-- `rb_get(get_idx(..))` fills at most the entry of its pair, with a free index. -/
theorem opens (h : Inv x) {pair : Pair} (hs : x.rings.openRing p pair = some (k, y.rings))
    (hflow : y.flow = x.flow) : Keeps x y ∧ IsIndex k ∧
      y.rings.nattch (ringSegment k) ≠ 0 ∧ y.rings.tables.table (cell p pair) = k := by
  obtain ⟨ls, hrings⟩ := h.rings
  obtain ⟨ls', hrings', hk, hmemo, htable, -⟩ := hrings.openRing (Rings.openRing_cleared hs)
  have htable : y.rings.tables.table = Function.update x.rings.tables.table (cell p pair) k :=
    htable
  have hself : y.rings.tables.table (cell p pair) = k := by rw [htable, Function.update_self]
  refine ⟨⟨⟨ls', hrings'⟩, hflow, Rings.openRing_attaches hs, fun c => ?_⟩, hk,
    (hrings'.memo p k hmemo).2, hself⟩
  by_cases hc : c = cell p pair
  · subst hc
    rw [hself]
    by_cases hz : x.rings.tables.table (cell p pair) = 0
    · refine .inr ⟨hz, hk.ne_zero, fun c' => ?_⟩
      by_cases hc' : c' = cell p pair
      · rw [hc', hz]
        exact hk.ne_zero.symm
      · have hne := hrings'.table_ne hc' hself hk.ne_zero
        change y.rings.tables.table c' ≠ k at hne
        rwa [htable, Function.update_of_ne hc'] at hne
    · have hfound := RingsInv.openRing_found hz
      rw [hs] at hfound
      exact .inl (Prod.mk.inj (Option.some.inj hfound)).1
  · rw [htable, Function.update_of_ne hc]
    exact .inl rfl

namespace Keeps

theorem view (h : Inv x) (hk : Keeps x y) (seg : Segment) : y.view seg = x.view seg :=
  view_attaches h.unattached hk.attaches hk.flow seg

/-- The ring of an entry stays, or the entry gets a ring without calls and bytes. -/
theorem ring (h : Inv x) (hk : Keeps x y) (c : Cell) :
    y.ring c = x.ring c ∨ x.ring c = .start (fun _ => 0) ∧ Quiet (y.ring c) := by
  rcases hk.entries c with hsame | ⟨hz, hne, hfree⟩
  · left
    simp only [Sys.ring, hsame, hk.view h]
  · obtain ⟨ls, hrings⟩ := hk.rings
    refine .inr ⟨if_pos hz, ?_⟩
    rw [Sys.ring, if_neg hne, hk.view h]
    exact h.free _ (hrings.isIndex hne) hfree

theorem quiet (h : Inv x) (hk : Keeps x y) (hq : Quiet (x.ring c)) : Quiet (y.ring c) := by
  rcases hk.ring h c with hsame | ⟨-, hq'⟩
  · rwa [hsame]
  · exact hq'

theorem line {w r : Tid} {sent received : List Byte} (h : Inv x) (hk : Keeps x y)
    (hl : Line w r (x.ring c) sent received) : Line w r (y.ring c) sent received := by
  rcases hk.ring h c with hsame | ⟨hstart, hq⟩
  · rwa [hsame]
  · rw [hstart] at hl
    obtain ⟨rfl, rfl⟩ := hl.of_start
    exact hq.line

/-- Look-ups keep the invariant. A new end has an entry that no end had. -/
theorem inv (h : Inv x) (hk : Keeps x y) (hports : Ported y.socks) (hsent : y.sent = x.sent)
    (hreceived : y.received = x.received) (hcount : x.socks.count ≤ y.socks.count)
    (hold : ∀ e, (x.socks.status e).Open →
      (y.socks.status e).Open ∧ y.socks.cell e = x.socks.cell e)
    (hnew : ∀ e, (y.socks.status e).Open → ¬ (x.socks.status e).Open →
      x.socks.count ≤ e.1 ∧ ∀ d, (x.socks.status d).Open → x.socks.cell d ≠ y.socks.cell e) :
    Inv y := by
  refine ⟨hports, hk.rings, fun seg hz => ?_, fun e he => ?_, fun c hc => ?_, fun k hi hc => ?_,
    fun seg hseg => ?_, fun e he => ?_, fun e he => ?_⟩
  · rw [hk.flow]
    refine h.unattached seg ?_
    by_contra hne
    exact (hk.attaches.kept seg hne).1 hz
  · rw [hsent, hreceived]
    by_cases ho : (x.socks.status e).Open
    · rw [Sys.inbox, (hold e ho).2]
      exact hk.line h (h.line e ho)
    · obtain ⟨hlate, hcell⟩ := hnew e he ho
      have hlate' : x.socks.count ≤ (peer e).1 := hlate
      rw [(h.fresh (peer e) hlate').1, (h.fresh e hlate).2]
      exact (hk.quiet h (h.quiet _ hcell)).line
  · exact hk.quiet h (h.quiet c fun e he => (hold e he).2 ▸ hc e (hold e he).1)
  · rw [hk.view h]
    refine h.free k hi fun c => ?_
    rcases hk.entries c with hsame | ⟨hz, -, -⟩
    · exact hsame ▸ hc c
    · exact hz.trans_ne hi.ne_zero.symm
  · rw [hk.flow]
    exact h.other seg hseg
  · rw [hsent, hreceived]
    exact h.drained e fun ho => he (hold e ho).1
  · rw [hsent, hreceived]
    exact h.fresh e (hcount.trans he)

end Keeps

theorem peer_ne {d : End} (h : d ≠ e) : peer d ≠ peer e := by
  intro he
  apply h
  rw [← peer_involutive d, he, peer_involutive]

namespace Inv

/-- An attached entry names the ring on its segment. -/
theorem ring_eq (hentry : x.rings.tables.table c = k) (hk : IsIndex k)
    (hattached : x.rings.nattch (ringSegment k) ≠ 0) : x.ring c = x.on (ringSegment k) := by
  rw [Sys.ring, hentry, if_neg hk.ne_zero, Sys.view, if_neg hattached]

/-- A step on a ring leaves the ports and entries. -/
theorem store_ports (h : Inv x) (hne : x.rings.tables.table c ≠ 0) (seg : Segment)
    (s : RingBuffer.Sys) : Ported (x.store seg s).socks := by
  refine h.ports.of_opens (c := c) ⟨⟨?_, rfl⟩, rfl, rfl⟩
  change _ = (Indices.getIdx 0 x.rings.tables c).2
  rw [Indices.getIdx, if_neg hne]

/-- A call on the ring that an open end receives from begins or takes a step. -/
theorem carry {a : RingBuffer.Act} (h : Inv x) (hopen : (x.socks.status e).Open)
    (hentry : x.rings.tables.table (x.socks.cell e) = k) (hk : IsIndex k)
    (hattached : x.rings.nattch (ringSegment k) ≠ 0)
    (ho : RingBuffer.OneToOne (tid (peer e) .sender) (tid e .receiver) (x.on (ringSegment k)) a)
    (hs : (x.on (ringSegment k)).step a = some s) (handle : End × Role → Segment) :
    Inv { x.store (ringSegment k) s with
      handle
      sent := Function.update x.sent (peer e) (x.sent (peer e) ++
        (RingBuffer.ended (x.on (ringSegment k)) s).flatMap Ret.written)
      received := Function.update x.received e (x.received e ++
        (RingBuffer.ended (x.on (ringSegment k)) s).flatMap Ret.read) } := by
  obtain ⟨ls, hrings⟩ := h.rings
  have hseg : ∀ {j}, j ≠ k → (x.store (ringSegment k) s).view (ringSegment j) =
      x.view (ringSegment j) := fun hj => view_store_of_ne (fun he => hj (ringSegment_inj he)) s
  have hself : (x.store (ringSegment k) s).ring (x.socks.cell e) = s := by
    have hentry' : (x.store (ringSegment k) s).rings.tables.table (x.socks.cell e) = k := hentry
    rw [Sys.ring, hentry', if_neg hk.ne_zero, view_store hattached]
  have hother : ∀ {c}, c ≠ x.socks.cell e → (x.store (ringSegment k) s).ring c = x.ring c := by
    intro c hc
    have hne : x.rings.tables.table c ≠ k := hrings.table_ne hc hentry hk.ne_zero
    unfold Sys.ring
    change (if x.rings.tables.table c = 0 then _ else
      (x.store (ringSegment k) s).view (ringSegment (x.rings.tables.table c))) = _
    rw [hseg hne]
  refine ⟨h.store_ports (hentry.trans_ne hk.ne_zero) _ s, ⟨ls, hrings⟩, fun seg hz => ?_,
    fun d hd => ?_, fun c hc => ?_, fun j hj hc => ?_, fun seg hout => ?_, fun d hd => ?_,
    fun d hd => ?_⟩
  · have hne : seg ≠ ringSegment k := fun he => hattached (he ▸ hz)
    exact (Function.update_of_ne hne _ _).trans (h.unattached seg hz)
  · change Line _ _ ((x.store (ringSegment k) s).ring (x.socks.cell d)) _ _
    by_cases hde : d = e
    · subst hde
      have hline := h.line d hopen
      rw [Sys.inbox, ring_eq hentry hk hattached] at hline
      simp only [hself, Function.update_self]
      exact hline.step ho hs
    · have hne : x.socks.cell d ≠ x.socks.cell e := fun hc =>
        hde (h.ports.cell_inj hd hopen hc)
      simp only [hother hne, Function.update_of_ne hde, Function.update_of_ne (peer_ne hde)]
      exact h.line d hd
  · change Quiet ((x.store (ringSegment k) s).ring c)
    rw [hother (hc e hopen).symm]
    exact h.quiet c hc
  · change Quiet ((x.store (ringSegment k) s).view (ringSegment j))
    rw [hseg fun he => hc (x.socks.cell e) (hentry.trans he.symm)]
    exact h.free j hj hc
  · intro t
    change (Function.update x.flow (ringSegment k) _ seg).thread t = _
    rw [Function.update_of_ne (hout k hk)]
    exact h.other seg hout t
  · have hde : d ≠ e := fun he => hd (he ▸ hopen)
    simp only [Function.update_of_ne hde, Function.update_of_ne (peer_ne hde)]
    exact h.drained d hd
  · have hlt := h.ports.inv.used hopen
    have hd : x.socks.count ≤ d.1 := hd
    have hde : d ≠ e := fun he => absurd hlt (not_lt.mpr (he ▸ hd))
    have hdp : d ≠ peer e := fun he => absurd hlt (not_lt.mpr (show _ ≤ (peer e).1 from he ▸ hd))
    simp only [Function.update_of_ne hde, Function.update_of_ne hdp]
    exact h.fresh d hd

end Inv

namespace Inv

/-- The look-up of a ring by a thread of a connected end. -/
theorem looked (h : Inv x) {pair : Pair} {rings : Rings}
    (hs : x.rings.openRing p pair = some (k, rings)) :
    Inv (x.setRings rings) ∧ IsIndex k ∧ rings.nattch (ringSegment k) ≠ 0 ∧
      rings.tables.table (cell p pair) = k := by
  obtain ⟨hkeeps, hk, hattached, hentry⟩ := opens (y := x.setRings rings) h hs rfl
  have hports : Ported (x.setRings rings).socks :=
    h.ports.of_opens ⟨Session.openRing_opened hs, rfl, rfl⟩
  exact ⟨hkeeps.inv h hports rfl rfl le_rfl (fun _ he => ⟨he, rfl⟩) fun _ he hne => absurd he hne,
    hk, hattached, hentry⟩

/-- A thread of an end enters a call on the ring that the end `d` receives from. -/
theorem enter {d : End} {role : Role} {ports : ℤ → Pair} {call : RingBuffer.Act} (h : Inv x)
    (hopen : ∀ p fd, x.socks.status e = .connected p fd → (x.socks.status d).Open)
    (hcell : ∀ p fd, x.socks.status e = .connected p fd → 0 ≤ fd →
      cell p (ports (x.socks.world.portsOf p fd)) = x.socks.cell d)
    (hcall : ∀ t, call ≠ .exec t)
    (ho : ∀ s, RingBuffer.OneToOne (tid (peer d) .sender) (tid d .receiver) s call)
    (hs : x.enter e role ports call = some y) : Inv y := by
  unfold Sys.enter at hs
  split at hs
  · next p fd hstatus _ =>
    split at hs
    · next hfd =>
      obtain ⟨⟨k, rings⟩, hring, hrest⟩ := Option.bind_eq_some_iff.mp hs
      obtain ⟨s, hstep, rfl⟩ := Option.map_eq_some_iff.mp hrest
      obtain ⟨h₁, hk, hattached, hentry⟩ := h.looked hring
      rw [hcell p fd hstatus hfd] at hentry
      rw [segmentOf_eq p hk] at hstep ⊢
      obtain ⟨-, hended⟩ := RingBuffer.ended_cases hstep
      have hnil := hended.resolve_right fun ⟨t, he, _⟩ => hcall t he
      have hcarry := h₁.carry (e := d) (hopen p fd hstatus) hentry hk hattached (ho _) hstep
        (Function.update x.handle (e, role) (ringSegment k))
      simp only [hnil, List.flatMap_nil, List.append_nil, Function.update_eq_self] at hcarry
      exact hcarry
    · cases hs
  · cases hs

/-- A thread in a call is on the ring of an open end. -/
theorem busy {t : Tid} (h : Inv x) (ht : (x.on seg).thread t ≠ .idle) :
    ∃ e k, (x.socks.status e).Open ∧ seg = ringSegment k ∧ IsIndex k ∧
      x.rings.nattch (ringSegment k) ≠ 0 ∧ x.rings.tables.table (x.socks.cell e) = k := by
  have hseg : ∃ k, IsIndex k ∧ seg = ringSegment k := by
    by_contra hnone
    exact ht (h.other seg (fun k hk he => hnone ⟨k, hk, he⟩) t)
  obtain ⟨k, hk, rfl⟩ := hseg
  have hattached : x.rings.nattch (ringSegment k) ≠ 0 := by
    intro hz
    have hstart := h.unattached _ hz
    exact ht (congrArg (fun f : Flow => f.thread t) hstart)
  have hview : x.view (ringSegment k) = x.on (ringSegment k) := if_neg hattached
  have hcell : ∃ c, x.rings.tables.table c = k := by
    by_contra hnone
    have hq := h.free k hk (not_exists.mp hnone)
    rw [hview] at hq
    exact ht (hq.idle t)
  obtain ⟨c, hc⟩ := hcell
  by_contra hnone
  have hq := h.quiet c fun e he hec => hnone ⟨e, k, he, rfl, hk, hattached, hec ▸ hc⟩
  rw [ring_eq hc hk hattached] at hq
  exact ht (hq.idle t)

theorem exec {role : Role} (h : Inv x) (hs : x.exec e role = some y) : Inv y := by
  obtain ⟨s, hstep, hx⟩ := Option.map_eq_some_iff.mp hs
  have hbusy : (x.on (x.handle (e, role))).thread (tid e role) ≠ .idle := by
    intro hidle
    simp [RingBuffer.Sys.step, hidle] at hstep
  obtain ⟨d, k, hopen, hseg, hk, hattached, hentry⟩ := h.busy hbusy
  rw [hseg] at hstep hx hbusy
  have hcarry := h.carry hopen hentry hk hattached (a := .exec (tid e role)) ⟨trivial, trivial⟩
    hstep x.handle
  have hline := h.line d hopen
  rw [Sys.inbox, ring_eq hentry hk hattached] at hline
  obtain ⟨-, hended⟩ := RingBuffer.ended_cases hstep
  -- the thread is the sender of the other end in a write, or the receiver of this end in a read
  rcases hline.busy hbusy with ⟨⟨pc, f, hth⟩, ht⟩ | ⟨⟨pc, f, hth⟩, ht⟩
  · obtain ⟨rfl, rfl⟩ := tid_inj ht
    have hread : (RingBuffer.ended (x.on (ringSegment k)) s).flatMap Ret.read = [] := by
      rcases hended with hnil | ⟨t, he, ⟨-, hread⟩ | ⟨⟨pc', f', hth'⟩, -⟩⟩
      · rw [hnil]
        rfl
      · exact hread
      · cases he
        exact absurd (hth.symm.trans hth') (by simp)
    rw [hread, List.append_nil, Function.update_eq_self] at hcarry
    rw [← hx]
    exact hcarry
  · obtain ⟨rfl, rfl⟩ := tid_inj ht
    have hwritten : (RingBuffer.ended (x.on (ringSegment k)) s).flatMap Ret.written = [] := by
      rcases hended with hnil | ⟨t, he, ⟨⟨pc', f', hth'⟩, -⟩ | ⟨-, hwritten⟩⟩
      · rw [hnil]
        rfl
      · cases he
        exact absurd (hth.symm.trans hth') (by simp)
      · exact hwritten
    rw [hwritten, List.append_nil, Function.update_eq_self] at hcarry
    rw [← hx]
    exact hcarry

end Inv

namespace Inv
variable {socks : Session.Sys}

theorem bind {port : ℕ} (h : Inv x) (hp : Session.IsPid p) (hport : port ≠ 0) :
    Inv { x with socks := { x.socks with world := (x.socks.world.bind p port).2 } } := by
  have hrings : (x.socks.world.bind p port).2.rings = x.socks.world.rings := by
    unfold World.bind
    split <;> rfl
  have hkeeps : Keeps x { x with socks := { x.socks with
      world := (x.socks.world.bind p port).2 } } := .of_eq h hrings rfl
  exact hkeeps.inv h (h.ports.bind hp hport) rfl rfl le_rfl (fun _ he => ⟨he, rfl⟩)
    fun _ he hne => absurd he hne

theorem connect {clientFd serverPort : ℕ} {world : World} (h : Inv x) (hfd : clientFd < 1024)
    (hserver : serverPort < PortTable.portNumber)
    (hc : World.Connected x.socks.world p clientFd serverPort world)
    (hinv : Session.Inv (x.socks.established p clientFd serverPort world)) :
    Inv { x with socks := x.socks.established p clientFd serverPort world } := by
  have hj := Joins.of_connected hc hfd hserver
  obtain ⟨pair, k, hring⟩ := hc.rings
  obtain ⟨hkeeps, -⟩ := opens (y := { x with
    socks := x.socks.established p clientFd serverPort world }) h hring rfl
  refine hkeeps.inv h (h.ports.established hj hinv) rfl rfl (Nat.le_succ _) (fun e he => ?_)
    fun e he hne => ?_
  · have hlt : e.1 ≠ x.socks.count := (h.ports.inv.used he).ne
    have hpeer : (peer e).1 ≠ x.socks.count := hlt
    refine ⟨(Session.established_open hlt).mpr he, ?_⟩
    rw [Session.Sys.cell, Session.Sys.cell, Session.established_port hlt,
      Session.established_port hpeer]
  · rcases Joins.ends he with rfl | rfl | ⟨-, hold, -⟩
    · refine ⟨le_rfl, fun d hd hcell => ?_⟩
      exact (hj.older h.ports.inv hd).1 ((Prod.mk.inj (cell_pair hcell)).2.trans hj.localEnd)
    · refine ⟨le_rfl, fun d hd hcell => ?_⟩
      exact (hj.older h.ports.inv hd).2
        ((Prod.mk.inj (cell_pair hcell)).2.trans Session.established_server)
    · exact absurd hold hne

theorem accept {n : ℕ} {ret : ℤ} {world : World} (h : Inv x)
    (hwaiting : x.socks.status (n, .server) = .waiting)
    (hs : x.socks.world.accept p fd (x.socks.port (n, .server)) = some (ret, world))
    (hinv : Session.Inv { x.socks with
      world, status := Function.update x.socks.status (n, .server) (.connected p ret) }) :
    Inv { x with socks := { x.socks with
      world, status := Function.update x.socks.status (n, .server) (.connected p ret) } } := by
  obtain ⟨ho, -⟩ := Session.accept_opens hs
  have hports := h.ports.of_opens ho
  obtain ⟨⟨k, rings⟩, hring, he⟩ := Option.map_eq_some_iff.mp hs
  obtain ⟨-, rfl⟩ := Prod.mk.inj he
  have hstatus : ∀ e, (Function.update x.socks.status (n, .server) (.connected p ret) e).Open ↔
      (x.socks.status e).Open := fun e => by
    by_cases hen : e = (n, .server)
    · rw [hen, Function.update_self, hwaiting]
      exact ⟨fun _ => trivial, fun _ => trivial⟩
    · rw [Function.update_of_ne hen]
  obtain ⟨hkeeps, -⟩ := opens (y := { x with socks := { x.socks with
    world := { x.socks.world with rings }
    status := Function.update x.socks.status (n, .server) (.connected p ret) } }) h hring rfl
  exact hkeeps.inv h ⟨hinv, hports.zero, hports.serverPos⟩ rfl rfl le_rfl
    (fun e he => ⟨(hstatus e).mpr he, rfl⟩) fun e he hne => absurd ((hstatus e).mp he) hne

/-- A ring whose header words are forgotten has no bytes. -/
theorem cleared_pending (r : Rings) (c : Cell) : r.cleared.pending c = [] := by
  unfold Rings.pending Rings.unread
  split_ifs <;> rfl

/-- The entry of an end is cleared, and its index is free. -/
theorem closed (h : Inv x) (hopen : (x.socks.status e).Open) (hquiet : Quiet (x.inbox e))
    (hall : x.received e = x.sent (peer e)) (hports : Ported socks)
    (hstatus : socks.status = Function.update x.socks.status e .closed)
    (hcell : socks.cell = x.socks.cell) (hcount : socks.count = x.socks.count)
    (hrings : ∃ ls, RingsInv socks.world.rings.cleared ls)
    (hring : socks.world.rings.ring = x.rings.ring)
    (hnattch : socks.world.rings.nattch = x.rings.nattch)
    (htable : socks.world.rings.tables.table =
      Function.update x.rings.tables.table (x.socks.cell e) 0) : Inv { x with socks } := by
  have hview : ∀ seg, ({ x with socks } : Sys).view seg = x.view seg :=
    view_congr hring hnattch rfl
  have hself : ({ x with socks } : Sys).ring (x.socks.cell e) = .start fun _ => 0 := by
    unfold Sys.ring Sys.rings
    rw [htable, Function.update_self, if_pos rfl]
  have hother : ∀ {c}, c ≠ x.socks.cell e → ({ x with socks } : Sys).ring c = x.ring c := by
    intro c hc
    have hentry : ({ x with socks } : Sys).rings.tables.table c = x.rings.tables.table c :=
      (congrFun htable c).trans (Function.update_of_ne hc _ _)
    simp only [Sys.ring, hentry, hview]
  have hstill : ∀ {d}, (socks.status d).Open → d ≠ e ∧ (x.socks.status d).Open := by
    intro d hd
    rw [hstatus] at hd
    by_cases hde : d = e
    · rw [hde, Function.update_self] at hd
      exact hd.elim
    · rw [Function.update_of_ne hde] at hd
      exact ⟨hde, hd⟩
  refine ⟨hports, hrings, fun seg hz => ?_, fun d hd => ?_, fun c hc => ?_, fun k hk hc => ?_,
    h.other, fun d hd => ?_, fun d hd => ?_⟩
  · change socks.world.rings.nattch seg = 0 at hz
    rw [hnattch] at hz
    exact h.unattached seg hz
  · obtain ⟨hde, hd⟩ := hstill hd
    change Line _ _ (({ x with socks } : Sys).ring (socks.cell d)) _ _
    rw [hcell, hother fun hc => hde (h.ports.cell_inj hd hopen hc)]
    exact h.line d hd
  · by_cases hce : c = x.socks.cell e
    · rw [hce, hself]
      exact .start _
    · rw [hother hce]
      refine h.quiet c fun d hd hdc => ?_
      have hde : d ≠ e := fun hde => hce (by rw [← hdc, hde])
      refine hc d ?_ ((congrFun hcell d).trans hdc)
      change (socks.status d).Open
      rw [hstatus, Function.update_of_ne hde]
      exact hd
  · rw [hview]
    by_cases hke : x.rings.tables.table (x.socks.cell e) = k
    · have hinbox : x.inbox e = x.view (ringSegment k) := by
        rw [Sys.inbox, Sys.ring, hke, if_neg hk.ne_zero]
      exact hinbox ▸ hquiet
    · refine h.free k hk fun c => ?_
      by_cases hce : c = x.socks.cell e
      · rw [hce]
        exact hke
      · have hne := hc c
        change socks.world.rings.tables.table c ≠ k at hne
        rwa [htable, Function.update_of_ne hce] at hne
  · by_cases hde : d = e
    · rw [hde]
      exact hall
    · refine h.drained d fun ho => hd ?_
      change (socks.status d).Open
      rw [hstatus, Function.update_of_ne hde]
      exact ho
  · exact h.fresh d (hcount ▸ hd)

/-- An end closes with an empty ring that no call is on. -/
theorem close {ret : ℤ} {world : World} (h : Inv x) (hc : Orderly x (.close e))
    (hstatus : x.socks.status e = .connected p fd) (hfd : 0 ≤ fd)
    (hs : x.socks.world.close p fd = some (ret, world))
    (hinv : Session.Inv { x.socks with
      world, status := Function.update x.socks.status e .closed }) :
    Inv { x with socks := { x.socks with
      world, status := Function.update x.socks.status e .closed } } := by
  have hopen : (x.socks.status e).Open := Session.open_of_connected hstatus
  obtain ⟨hw, hr, hempty⟩ := hc
  have hline := h.line e hopen
  have hflow := hline.flow
  rw [hempty, List.append_nil] at hflow
  obtain ⟨-, hport, -⟩ := Session.close_changes hs
  rw [h.ports.inv.localPort_eq hstatus hfd] at hport
  have hports : Ported { x.socks with
      world, status := Function.update x.socks.status e .closed } := by
    refine ⟨hinv, ?_, h.ports.serverPos⟩
    change world.portTable 0 = 0
    rw [hport, Function.update_of_ne (h.ports.port_ne (h.ports.inv.used hopen)).symm]
    exact h.ports.zero
  obtain ⟨rings, hclose, he⟩ := Option.map_eq_some_iff.mp hs
  obtain ⟨-, rfl⟩ := Prod.mk.inj he
  have hcell := h.ports.recvCell hstatus hfd
  obtain ⟨ls, hrings⟩ := h.rings
  obtain ⟨ls', hrings', -⟩ := hrings.closeRing (Rings.closeRing_cleared hclose)
    (cleared_pending _ _)
  obtain ⟨k, r₁, hlook, hring, hnattch, htable⟩ := Rings.closeRing_opens hclose
  rw [hcell] at htable
  have hkeeps := (opens (y := x.setRings r₁) h hlook rfl).1
  have hquiet : Quiet ((x.setRings r₁).inbox e) := hkeeps.quiet h (hline.quiet hw hr hempty)
  exact (h.looked hlook).1.closed hopen hquiet hflow.symm hports rfl rfl rfl ⟨ls', hrings'⟩ hring
    hnattch htable

theorem step {a : Act} (h : Inv x) (hc : Orderly x a) (hs : machine.step x a = some y) :
    Inv y := by
  have hcalls : ∀ b, Session.ClosesOwn x.socks b → x.call b = some y → ∃ socks,
      x.socks.step b = some socks ∧ Session.Inv socks ∧ y = { x with socks } := by
    intro b hown hb
    obtain ⟨socks, hstep, rfl⟩ := Option.map_eq_some_iff.mp hb
    exact ⟨socks, hstep, h.ports.inv.step hown hstep, rfl⟩
  cases a with
  | bind p port =>
    obtain ⟨socks, hstep, hinv, rfl⟩ := hcalls _ (by trivial) hs
    cases Session.step_cases hstep with
    | bind hp => exact h.bind hp hc
  | connect p fd serverPort =>
    obtain ⟨socks, hstep, hinv, rfl⟩ := hcalls _ (by trivial) hs
    cases Session.step_cases hstep with
    | refused => exact h
    | connect hfd hserver hconnect hcon => exact h.connect hfd hserver hcon hinv
  | accept n p fd =>
    obtain ⟨socks, hstep, hinv, rfl⟩ := hcalls _ (by trivial) hs
    cases Session.step_cases hstep with
    | accept hwaiting haccept => exact h.accept hwaiting haccept hinv
  | close e =>
    obtain ⟨socks, hstep, hinv, rfl⟩ := hcalls _ (by trivial) hs
    cases Session.step_cases hstep with
    | close hstatus hfd hclose => exact h.close hc hstatus hfd hclose hinv
  | send e buf =>
    have hs : x.enter e .sender (fun fd => (localPort fd, remotePort fd))
        (.write (tid e .sender) buf) = some y := hs
    refine h.enter (d := peer e) (fun _ _ _ => hc)
      (fun p fd hstatus hfd => h.ports.sendCell hstatus hfd) ?_ (fun _ => ?_) hs
    · exact fun _ => by simp
    · exact ⟨congrArg (tid · .sender) (peer_involutive e).symm, trivial⟩
  | recv e len =>
    have hs : x.enter e .receiver (fun fd => (remotePort fd, localPort fd))
        (.read (tid e .receiver) len) = some y := hs
    refine h.enter (d := e) (fun _ _ hstatus => Session.open_of_connected hstatus)
      (fun p fd hstatus hfd => h.ports.recvCell hstatus hfd) ?_ (fun _ => ?_) hs
    · exact fun _ => by simp
    · exact ⟨trivial, rfl⟩
  | exec e role => exact h.exec hs

end Inv

/-- Both threads take `n` steps in turn. -/
def inTurn (n : ℕ) (e e' : End) (role : Role) : List Act :=
  (List.replicate n [Act.exec e role, Act.exec e' role]).flatten

/-- Two clients send and two servers receive at the same time, and one server closes. -/
def twoAtOnce : List Act :=
  let started : List Act := [.bind 7 80, .bind 9 81, .connect 8 3 80, .connect 8 4 81,
    .accept 0 7 4, .accept 1 9 4, .send (0, .client) [5, 6], .send (1, .client) [9]]
  let receiving : List Act :=
    [.recv (1, .server) 4, .exec (0, .client) .sender, .recv (0, .server) 1]
  started ++ inTurn 6 (0, .client) (1, .client) .sender ++ receiving ++
    inTurn 4 (0, .server) (1, .server) .receiver ++ [Act.close (1, .server)]

end ShmSocket.Parallel
