import ShmSocket.Connection.SessionsInv

/-! What the ends of all connections send and receive over their whole lives: ports, index
entries and rings are used again and again, and every direction stays a queue of its own. -/
namespace ShmSocket.Session
open StepMachine PortTable Indices
open Net (Side End peer)

/-- The bytes that an end gets accepted by the call of a step. -/
def Sys.accepted (s : Sys) : Act → End → List Byte
  | .send e buf, e' =>
      match s.status e with
      | .connected p fd =>
          if e = e' then (s.world.send p fd buf).elim [] fun r => buf.take r.1.toNat else []
      | _ => []
  | _, _ => []

/-- The bytes that the call of a step returns to an end. -/
def Sys.returned (s : Sys) : Act → End → List Byte
  | .recv e len, e' =>
      match s.status e with
      | .connected p fd =>
          if e = e' then (s.world.recv p fd len).elim [] fun r => r.1 else []
      | _ => []
  | _, _ => []

/-- The sockets with all the bytes that each end got accepted and returned so far. -/
structure Traffic where
  sys : Sys
  sent : End → List Byte
  received : End → List Byte

def traffic : StepMachine Traffic Act where
  init t := machine.init t.sys ∧ (∀ e, t.sent e = []) ∧ ∀ e, t.received e = []
  step t a := (t.sys.step a).map fun s =>
    ⟨s, fun e => t.sent e ++ t.sys.accepted a e, fun e => t.received e ++ t.sys.returned a e⟩

/-- No port is 0, nobody sends to an end that has closed, an end closes when it has received
what is in its ring (`close` gives the ring back as it is), and all calls are those of ends. -/
def Orderly (t : Traffic) : Act → Prop
  | .bind _ port => port ≠ 0
  | .send e _ => (t.sys.status (peer e)).Open
  | .close e => t.sys.world.rings.pending (t.sys.cell e) = []
  | .other _ _ _ => False
  | .connect .. | .accept .. | .recv .. => True

instance (t : Traffic) : DecidablePred (Orderly t)
  | .bind _ port => inferInstanceAs (Decidable (port ≠ 0))
  | .send e _ => inferInstanceAs (Decidable (t.sys.status (peer e)).Open)
  | .close e => inferInstanceAs (Decidable (t.sys.world.rings.pending (t.sys.cell e) = []))
  | .other _ _ _ => .isFalse id
  | .connect .. | .accept .. | .recv .. => .isTrue trivial

/-- No port is 0, and `close` is called with the descriptors of ends only. -/
def ClosesEnds : Act → Prop
  | .bind _ port => port ≠ 0
  | .other _ _ .close => False
  | _ => True

instance : DecidablePred ClosesEnds
  | .bind _ port => inferInstanceAs (Decidable (port ≠ 0))
  | .other _ _ .close => .isFalse id
  | .other _ _ (.send _) | .other _ _ (.recv _) => .isTrue trivial
  | .connect .. | .accept .. | .send .. | .recv .. | .close _ => .isTrue trivial

theorem ClosesEnds.closesOwn {a : Act} (h : ClosesEnds a) (s : Sys) : ClosesOwn s a := by
  unfold ClosesOwn
  split
  · exact h.elim
  · trivial

theorem Orderly.closesEnds {t : Traffic} {a : Act} (h : Orderly t a) : ClosesEnds a := by
  cases a with
  | bind p port => exact h
  | other p fd call => exact h.elim
  | connect | accept | send | recv | close => trivial

/-- Nobody listens at port 0, so no connection has it. -/
structure Ported (s : Sys) : Prop where
  inv : Inv s
  zero : s.world.portTable 0 = 0
  serverPos : ∀ n < s.count, 0 < s.port (n, .server)

variable {s s' : Sys} {e e' : End} {p : Pid} {fd : ℤ}

namespace Ported

theorem port_ne (h : Ported s) (he : e.1 < s.count) : s.port e ≠ 0 := by
  obtain ⟨n, side⟩ := e
  cases side with
  | client => exact (h.inv.clientPos n he).ne'
  | server => exact (h.serverPos n he).ne'

/-- `recv` and `close` resolve to the ring of their end. -/
theorem recvCell (h : Ported s) (hs : s.status e = .connected p fd) (hfd : 0 ≤ fd) :
    ShmSocket.cell p (remotePort (s.world.portsOf p fd), localPort (s.world.portsOf p fd)) =
      s.cell e := by
  have hused := h.inv.used (open_of_connected hs)
  rw [h.inv.remotePort_eq hs hfd, h.inv.localPort_eq hs hfd]
  exact cell_shared p 0 (h.port_ne (e := peer e) hused)

/-- `send` resolves to the ring of the other end. -/
theorem sendCell (h : Ported s) (hs : s.status e = .connected p fd) (hfd : 0 ≤ fd) :
    ShmSocket.cell p (localPort (s.world.portsOf p fd), remotePort (s.world.portsOf p fd)) =
      s.cell (peer e) := by
  have hused := h.inv.used (open_of_connected hs)
  have hpeer : peer (peer e) = e := by
    obtain ⟨n, side⟩ := e
    cases side <;> rfl
  rw [h.inv.remotePort_eq hs hfd, h.inv.localPort_eq hs hfd, Sys.cell, hpeer]
  exact cell_shared p 0 (h.port_ne hused)

/-- Open ends receive from different rings. -/
theorem cell_inj (h : Ported s) (he : (s.status e).Open) (he' : (s.status e').Open)
    (hc : s.cell e = s.cell e') : e = e' :=
  h.inv.apart e e' he he' (Prod.mk.inj (cell_pair hc)).2

theorem start (h : machine.init s) : Ported s := by
  refine ⟨.start h, h.2.2.2.1 0, fun n hn => ?_⟩
  rw [h.2.2.2.2.1] at hn
  exact absurd hn (Nat.not_lt_zero n)

theorem of_opens {world : World} {c : Cell} (h : Ported s) (ho : OpensOnly s.world world c) :
    Ported { s with world } :=
  ⟨h.inv.of_opens ho, (congrFun ho.portTable 0).trans h.zero, h.serverPos⟩

theorem bind (h : Ported s) {port : ℕ} (hp : IsPid p) (hport : port ≠ 0) :
    Ported { s with world := (s.world.bind p port).2 } := by
  refine ⟨h.inv.bind hp, ?_, h.serverPos⟩
  change (s.world.bind p port).2.portTable 0 = 0
  unfold World.bind
  split
  · exact h.zero
  · exact (Function.update_of_ne hport.symm _ _).trans h.zero

theorem established (h : Ported s) {clientFd serverPort : ℕ} {world : World}
    (hj : Joins s p clientFd serverPort (getFreePort s.world.portTable) world)
    (hinv : Inv (s.established p clientFd serverPort world)) :
    Ported (s.established p clientFd serverPort world) := by
  have hserver : serverPort ≠ 0 := by
    rintro rfl
    have hlisten := hj.listening.1
    rw [h.zero] at hlisten
    exact absurd hlisten (by decide)
  refine ⟨hinv, ?_, fun n hn => ?_⟩
  · change world.portTable 0 = 0
    rw [hj.portTable, Function.update_of_ne hj.clientPos.ne,
      Function.update_of_ne hserver.symm]
    exact h.zero
  · by_cases hnew : n = s.count
    · rw [hnew, established_server]
      exact Nat.pos_of_ne_zero hserver
    · rw [established_port hnew]
      exact h.serverPos n (lt_of_le_of_ne (Nat.lt_succ_iff.mp hn) hnew)

theorem step {a : Act} (h : Ported s) (ha : ClosesEnds a) (hs : s.step a = some s') :
    Ported s' := by
  have hinv := h.inv.step (ha.closesOwn s) hs
  cases step_cases hs with
  | bind hp => exact h.bind hp ha
  | refused => exact h
  | connect hfd hserver hconnect hcon => exact h.established (.of_connected hcon hfd hserver) hinv
  | accept hwaiting haccept =>
    exact ⟨hinv, (congrFun (accept_opens haccept).1.portTable 0).trans h.zero, h.serverPos⟩
  | send hstatus hfd hsend => exact h.of_opens (send_opens hsend)
  | recv hstatus hfd hrecv => exact h.of_opens (recv_opens hrecv)
  | @close e p fd ret world hstatus hfd hclose =>
    obtain ⟨-, htable, -⟩ := close_changes hclose
    rw [h.inv.localPort_eq hstatus hfd] at htable
    have hne := h.port_ne (h.inv.used (open_of_connected hstatus))
    refine ⟨hinv, ?_, h.serverPos⟩
    exact (congrFun htable 0).trans ((Function.update_of_ne hne.symm _ _).trans h.zero)
  | other hfd hno hrun =>
    rcases run_cases hrun with ⟨-, ho⟩ | ⟨rfl, -⟩
    · exact h.of_opens ho
    · exact ha.elim

end Ported

/-- `recv` returns the first bytes in its ring, also after the other end has closed. -/
theorem recv_takes {w w' : World} {ls : List (List ℕ)} {len : ℕ} {bytes : List Byte} {c : Cell}
    (h : RingsInv w.rings ls) (hs : w.recv p fd len = some (bytes, w'))
    (hc : ShmSocket.cell p (remotePort (w.portsOf p fd), localPort (w.portsOf p fd)) = c) :
    bytes = (w.rings.pending c).take len ∧ (∃ ls', RingsInv w'.rings ls') ∧
      w'.rings.pending =
        Function.update w.rings.pending c ((w.rings.pending c).drop len) := by
  obtain ⟨⟨k, s₁⟩, hopen, hrest⟩ := Option.bind_eq_some_iff.mp hs
  obtain ⟨ls₁, hinv₁, -, hmemo, -, hsame⟩ := h.openRing hopen
  obtain ⟨hk0, hentry, hunread⟩ := h.openRing_entry hopen
  obtain ⟨s₂, hread, hinv₂, htables, hmemo₂, hself, hother⟩ := hinv₁.read hmemo len
  have hfirst := hinv₁.pending_update hentry hk0 htables hother
  rw [hself, funext hsame] at hfirst
  rw [hc] at hentry hunread hfirst
  rw [hunread] at hread hself hfirst
  simp only [hread] at hrest
  split at hrest
  · cases hrest
    exact ⟨rfl, ⟨ls₁, hinv₂⟩, hfirst⟩
  · next hempty =>
    have hempty := not_not.mp hempty
    split at hrest
    · -- the second read finds what the first one left: nothing
      have hzero : (w.rings.pending c).drop len = w.rings.pending c := by
        have happ := List.take_append_drop len (w.rings.pending c)
        rw [hempty] at happ
        exact happ
      obtain ⟨s₃, hread₃, hinv₃, htables₃, -, hself₃, hother₃⟩ :=
        hinv₂.read (hmemo₂ ▸ hmemo) len
      have hentry₂ : s₂.tables.table c = k := by rw [htables, hentry]
      have hsecond := hinv₂.pending_update hentry₂ hk0 htables₃ hother₃
      rw [hself, hzero] at hread₃ hself₃
      rw [hself₃, hfirst, Function.update_idem] at hsecond
      simp only [hread₃, Option.some.injEq, Prod.mk.injEq] at hrest
      obtain ⟨rfl, rfl⟩ := hrest
      exact ⟨rfl, ⟨ls₁, hinv₃⟩, hsecond⟩
    · cases hrest

/-- The bytes of an open end are what was sent to it, what is still in its ring included;
a ring of no open end is empty. -/
structure Streams (t : Traffic) : Prop where
  ports : Ported t.sys
  rings : ∃ ls, RingsInv t.sys.world.rings ls
  quiet : ∀ c, (∀ e, (t.sys.status e).Open → t.sys.cell e ≠ c) →
    t.sys.world.rings.pending c = []
  flow : ∀ e, (t.sys.status e).Open →
    t.received e ++ t.sys.world.rings.pending (t.sys.cell e) = t.sent (peer e)
  drained : ∀ e, ¬ (t.sys.status e).Open → t.received e = t.sent (peer e)
  fresh : ∀ e : End, t.sys.count ≤ e.1 → t.sent e = [] ∧ t.received e = []

variable {t t' : Traffic} {a : Act}

theorem accepted_other (s : Sys) (ha : ∀ e buf, a ≠ .send e buf) (e : End) :
    s.accepted a e = [] := by
  cases a with
  | send e' buf => exact absurd rfl (ha e' buf)
  | bind | connect | accept | recv | close | other => rfl

theorem returned_other (s : Sys) (ha : ∀ e len, a ≠ .recv e len) (e : End) :
    s.returned a e = [] := by
  cases a with
  | recv e' len => exact absurd rfl (ha e' len)
  | bind | connect | accept | send | close | other => rfl

theorem accepted_send {w' : World} {ret : ℤ} {buf : List Byte}
    (hstatus : s.status e = .connected p fd) (hs : s.world.send p fd buf = some (ret, w')) :
    s.accepted (.send e buf) = fun d => if e = d then buf.take ret.toNat else [] := by
  funext d
  simp only [Sys.accepted, hstatus, hs, Option.elim_some]

theorem returned_recv {w' : World} {bytes : List Byte} {len : ℕ}
    (hstatus : s.status e = .connected p fd) (hs : s.world.recv p fd len = some (bytes, w')) :
    s.returned (.recv e len) = fun d => if e = d then bytes else [] := by
  funext d
  simp only [Sys.returned, hstatus, hs, Option.elim_some]

theorem peer_involutive (e : End) : peer (peer e) = e := by
  obtain ⟨n, side⟩ := e
  cases side <;> rfl

namespace Streams

/-- A step that moves no bytes and closes no end. -/
theorem of_same (ls : List (List ℕ)) (h : Streams t) (hports : Ported s')
    (hrings : RingsInv s'.world.rings ls) (hcount : s'.count = t.sys.count)
    (hport : s'.port = t.sys.port) (hopen : ∀ e, (s'.status e).Open ↔ (t.sys.status e).Open)
    (hpending : s'.world.rings.pending = t.sys.world.rings.pending) :
    Streams ⟨s', t.sent, t.received⟩ := by
  have hcell : ∀ e, s'.cell e = t.sys.cell e := fun e => by rw [Sys.cell, Sys.cell, hport]
  refine ⟨hports, ⟨ls, hrings⟩, fun c hc => ?_, fun e he => ?_, fun e he => ?_, fun e he => ?_⟩
  · change s'.world.rings.pending c = []
    rw [hpending]
    exact h.quiet c fun e he => hcell e ▸ hc e ((hopen e).mpr he)
  · change t.received e ++ s'.world.rings.pending (s'.cell e) = t.sent (peer e)
    rw [hpending, hcell]
    exact h.flow e ((hopen e).mp he)
  · exact h.drained e fun ho => he ((hopen e).mpr ho)
  · exact h.fresh e (hcount ▸ he)

theorem start (h : traffic.init t) : Streams t := by
  obtain ⟨h0, hsent, hreceived⟩ := h
  have hclosed : ∀ e, ¬ (t.sys.status e).Open := fun e => by
    rw [h0.2.2.2.2.2 e]
    exact id
  obtain ⟨a, htables⟩ := h0.1
  refine ⟨.start h0, ⟨_, .start htables h0.2.1 h0.2.2.1⟩, fun c _ => ?_, fun e he => ?_,
    fun e _ => ?_, fun e _ => ⟨hsent e, hreceived e⟩⟩
  · exact if_pos (by rw [htables])
  · exact absurd he (hclosed e)
  · rw [hsent, hreceived]

/-- A new connection gets two entries that no open end has, so its rings are empty. -/
theorem established {clientFd serverPort k : ℕ} {pair : Pair} {world : World} (h : Streams t)
    (hports : Ported (t.sys.established p clientFd serverPort world))
    (hj : Joins t.sys p clientFd serverPort (getFreePort t.sys.world.portTable) world)
    (hopen : t.sys.world.rings.openRing p pair = some (k, world.rings)) :
    Streams ⟨t.sys.established p clientFd serverPort world, t.sent, t.received⟩ := by
  obtain ⟨ls, hrings⟩ := h.rings
  obtain ⟨ls', hrings', -, -, -, hsame⟩ := hrings.openRing hopen
  have hpending : world.rings.pending = t.sys.world.rings.pending := funext hsame
  have hcell : ∀ e : End, e.1 ≠ t.sys.count →
      (t.sys.established p clientFd serverPort world).cell e = t.sys.cell e := fun e he => by
    have hpeer : (peer e).1 ≠ t.sys.count := he
    rw [Sys.cell, Sys.cell, established_port he, established_port hpeer]
  -- the ports of the new ends are not those of any open end
  have hnew : ∀ side, t.sys.world.rings.pending
      ((t.sys.established p clientFd serverPort world).cell (t.sys.count, side)) = [] := by
    intro side
    refine h.quiet _ fun e he hc => ?_
    have hport := (Prod.mk.inj (cell_pair hc)).2
    obtain ⟨hclient, hserver⟩ := hj.older h.ports.inv he
    cases side with
    | client => exact hclient (hport.trans hj.localEnd)
    | server => exact hserver (hport.trans established_server)
  refine ⟨hports, ⟨ls', hrings'⟩, fun c hc => ?_, fun e he => ?_, fun e he => ?_,
    fun e he => h.fresh e ((Nat.le_succ _).trans he)⟩
  · change world.rings.pending c = []
    rw [hpending]
    refine h.quiet c fun e he => ?_
    have hne : e.1 ≠ t.sys.count := (h.ports.inv.used he).ne
    exact hcell e hne ▸ hc e ((established_open hne).mpr he)
  · change t.received e ++ world.rings.pending _ = t.sent (peer e)
    rw [hpending]
    by_cases hm : e.1 = t.sys.count
    · obtain ⟨n, side⟩ := e
      obtain rfl : n = t.sys.count := hm
      obtain ⟨-, hreceived⟩ := h.fresh (t.sys.count, side) le_rfl
      obtain ⟨hsent, -⟩ := h.fresh (peer (t.sys.count, side)) le_rfl
      rw [hnew, hreceived, hsent, List.append_nil]
    · rw [hcell e hm]
      exact h.flow e ((established_open hm).mp he)
  · refine h.drained e fun ho => he ?_
    exact (established_open (h.ports.inv.used ho).ne).mpr ho

/-- `send` appends to the ring of the other end, which is open. -/
theorem send {world : World} {c : Cell} {more : List Byte} (h : Streams t)
    (hpeer : (t.sys.status (peer e)).Open) (hports : Ported { t.sys with world })
    (hrings : ∃ ls, RingsInv world.rings ls) (hc : t.sys.cell (peer e) = c)
    (hpending : world.rings.pending = Function.update t.sys.world.rings.pending c
      (t.sys.world.rings.pending c ++ more)) :
    Streams ⟨{ t.sys with world }, fun d => t.sent d ++ if e = d then more else [],
      t.received⟩ := by
  have hother : ∀ {d}, peer d ≠ e → t.sent (peer d) ++ (if e = peer d then more else []) =
      t.sent (peer d) := fun hd => by rw [if_neg (Ne.symm hd), List.append_nil]
  refine ⟨hports, hrings, fun c' hc' => ?_, fun d hd => ?_, fun d hd => ?_, fun d hd => ?_⟩
  · have hne : c' ≠ c := fun he => hc' (peer e) hpeer (hc.trans he.symm)
    change world.rings.pending c' = []
    rw [hpending, Function.update_of_ne hne]
    exact h.quiet c' hc'
  · change t.received d ++ world.rings.pending (t.sys.cell d) =
      t.sent (peer d) ++ if e = peer d then more else []
    rw [hpending]
    by_cases he : peer d = e
    · obtain rfl : d = peer e := by rw [← he, peer_involutive]
      rw [hc, Function.update_self, if_pos (peer_involutive e).symm, ← h.flow _ hd, hc,
        List.append_assoc]
    · have hne : t.sys.cell d ≠ c := fun hcd => by
        obtain rfl := h.ports.cell_inj hd hpeer (hcd.trans hc.symm)
        exact he (peer_involutive e)
      rw [Function.update_of_ne hne, hother he, h.flow d hd]
  · have he : peer d ≠ e := by
      rintro rfl
      rw [peer_involutive] at hpeer
      exact hd hpeer
    exact (h.drained d hd).trans (hother he).symm
  · have hne : e ≠ d := by
      rintro rfl
      exact absurd (h.ports.inv.used hpeer) (not_lt.mpr hd)
    change t.sent d ++ (if e = d then more else []) = [] ∧ _
    rw [if_neg hne, List.append_nil]
    exact h.fresh d hd

/-- `recv` takes from the ring of its end. -/
theorem recv {world : World} {len : ℕ} {c : Cell} (h : Streams t) (hopen : (t.sys.status e).Open)
    (hports : Ported { t.sys with world }) (hrings : ∃ ls, RingsInv world.rings ls)
    (hc : t.sys.cell e = c) (hpending : world.rings.pending =
      Function.update t.sys.world.rings.pending c ((t.sys.world.rings.pending c).drop len)) :
    Streams ⟨{ t.sys with world }, t.sent, fun d => t.received d ++
      if e = d then (t.sys.world.rings.pending c).take len else []⟩ := by
  refine ⟨hports, hrings, fun c' hc' => ?_, fun d hd => ?_, fun d hd => ?_, fun d hd => ?_⟩
  · have hne : c' ≠ c := fun he => hc' e hopen (hc.trans he.symm)
    change world.rings.pending c' = []
    rw [hpending, Function.update_of_ne hne]
    exact h.quiet c' hc'
  · change (t.received d ++ if e = d then _ else []) ++ world.rings.pending (t.sys.cell d) =
      t.sent (peer d)
    rw [hpending]
    by_cases he : e = d
    · subst he
      rw [if_pos rfl, hc, Function.update_self, List.append_assoc, List.take_append_drop, ← hc,
        h.flow e hd]
    · have hne : t.sys.cell d ≠ c := fun hcd =>
        he (h.ports.cell_inj hopen hd (hc.trans hcd.symm))
      rw [if_neg he, List.append_nil, Function.update_of_ne hne, h.flow d hd]
  · have hne : e ≠ d := by
      rintro rfl
      exact hd hopen
    change (t.received d ++ if e = d then _ else []) = _
    rw [if_neg hne, List.append_nil]
    exact h.drained d hd
  · have hne : e ≠ d := by
      rintro rfl
      exact absurd (h.ports.inv.used hopen) (not_lt.mpr hd)
    change _ ∧ (t.received d ++ if e = d then _ else []) = []
    rw [if_neg hne, List.append_nil]
    exact h.fresh d hd

/-- An end closes with an empty ring: all that was sent to it has been received. -/
theorem closed {world : World} (h : Streams t) (hopen : (t.sys.status e).Open)
    (hempty : t.sys.world.rings.pending (t.sys.cell e) = [])
    (hports : Ported { t.sys with world, status := Function.update t.sys.status e .closed })
    (hrings : ∃ ls, RingsInv world.rings ls)
    (hpending : world.rings.pending = t.sys.world.rings.pending) :
    Streams ⟨{ t.sys with world, status := Function.update t.sys.status e .closed }, t.sent,
      t.received⟩ := by
  have hother : ∀ {d}, d ≠ e → Function.update t.sys.status e .closed d = t.sys.status d :=
    fun hd => Function.update_of_ne hd _ _
  have hself : ¬ (Function.update t.sys.status e Status.closed e).Open := by
    rw [Function.update_self]
    exact id
  refine ⟨hports, hrings, fun c hc => ?_, fun d hd => ?_, fun d hd => ?_, h.fresh⟩
  · change world.rings.pending c = []
    rw [hpending]
    by_cases he : c = t.sys.cell e
    · rw [he, hempty]
    · refine h.quiet c fun d hd hcd => ?_
      have hde : d ≠ e := fun hde => he (by rw [← hcd, hde])
      exact hc d ((congrArg Status.Open (hother hde)).mpr hd) hcd
  · change (Function.update t.sys.status e .closed d).Open at hd
    have hde : d ≠ e := by
      rintro rfl
      exact hself hd
    rw [hother hde] at hd
    change t.received d ++ world.rings.pending (t.sys.cell d) = _
    rw [hpending, h.flow d hd]
  · change ¬ (Function.update t.sys.status e .closed d).Open at hd
    by_cases hde : d = e
    · have hflow := h.flow e hopen
      rw [hempty, List.append_nil] at hflow
      rw [hde, hflow]
    · rw [hother hde] at hd
      exact h.drained d hd

theorem step (h : Streams t) (hc : Orderly t a) (hs : traffic.step t a = some t') :
    Streams t' := by
  obtain ⟨s', hstep, rfl⟩ := Option.map_eq_some_iff.mp hs
  obtain ⟨ls, hrings⟩ := h.rings
  have hports := h.ports.step hc.closesEnds hstep
  have hsent : (∀ e buf, a ≠ .send e buf) →
      (fun e => t.sent e ++ t.sys.accepted a e) = t.sent := fun ha => by
    funext e
    rw [accepted_other _ ha, List.append_nil]
  have hreceived : (∀ e len, a ≠ .recv e len) →
      (fun e => t.received e ++ t.sys.returned a e) = t.received := fun ha => by
    funext e
    rw [returned_other _ ha, List.append_nil]
  cases step_cases hstep with
  | @bind p port hp =>
    rw [hsent (by simp), hreceived (by simp)]
    have hbind : (t.sys.world.bind p port).2.rings = t.sys.world.rings := by
      unfold World.bind
      split <;> rfl
    refine h.of_same ls hports ?_ rfl rfl (fun _ => Iff.rfl) ?_
    · change RingsInv (t.sys.world.bind p port).2.rings ls
      rwa [hbind]
    · change (t.sys.world.bind p port).2.rings.pending = _
      rw [hbind]
  | refused =>
    rw [hsent (by simp), hreceived (by simp)]
    exact h
  | @connect p fd serverPort world hfd hserver hconnect hcon =>
    rw [hsent (by simp), hreceived (by simp)]
    have hj := Joins.of_connected hcon hfd hserver
    obtain ⟨pair, k, hopen⟩ := hcon.rings
    exact h.established hports hj hopen
  | @accept n p fd ret world hwaiting haccept =>
    rw [hsent (by simp), hreceived (by simp)]
    obtain ⟨⟨k, rings⟩, hopen, he⟩ := Option.map_eq_some_iff.mp haccept
    obtain ⟨-, rfl⟩ := Prod.mk.inj he
    obtain ⟨ls', hrings', -, -, -, hsame⟩ := hrings.openRing hopen
    refine h.of_same _ hports hrings' rfl rfl (fun e => ?_) (funext hsame)
    change (Function.update t.sys.status (n, .server) (.connected p ret) e).Open ↔ _
    by_cases hen : e = (n, .server)
    · rw [hen, Function.update_self, hwaiting]
      exact ⟨fun _ => trivial, fun _ => trivial⟩
    · rw [Function.update_of_ne hen]
  | @send e buf p fd ret world hstatus hfd hsend =>
    obtain ⟨hret, hrings', hpending, -⟩ := World.send_spec hrings hsend
      (h.ports.sendCell hstatus hfd)
    rw [hreceived (by simp), accepted_send hstatus hsend]
    have htake : buf.take ret.toNat = buf.take
        (shmDataSize - 1 - (t.sys.world.rings.pending (t.sys.cell (peer e))).length) := by
      rw [hret, Int.toNat_natCast, Nat.min_comm, ← List.take_eq_take_min]
    rw [htake]
    exact h.send hc hports hrings' rfl hpending
  | @recv e len p fd bytes world hstatus hfd hrecv =>
    obtain ⟨rfl, hrings', hpending⟩ := recv_takes hrings hrecv (h.ports.recvCell hstatus hfd)
    rw [hsent (by simp), returned_recv hstatus hrecv]
    exact h.recv (open_of_connected hstatus) hports hrings' rfl hpending
  | @close e p fd ret world hstatus hfd hclose =>
    rw [hsent (by simp), hreceived (by simp)]
    obtain ⟨rings, hring, he⟩ := Option.map_eq_some_iff.mp hclose
    obtain ⟨-, rfl⟩ := Prod.mk.inj he
    have hcell := h.ports.recvCell hstatus hfd
    obtain ⟨ls', hrings', -, hsame⟩ := hrings.closeRing hring (by rw [hcell]; exact hc)
    exact h.closed (open_of_connected hstatus) hc hports ⟨ls', hrings'⟩ (funext hsame)
  | other => exact hc.elim

end Streams

/-- A client sends two bytes and closes; the server receives them, and its port is used
again by a second connection. -/
def twoLives : List Act :=
  [.bind 7 80, .connect 8 3 80, .accept 0 7 4, .send (0, .client) [5, 6], .close (0, .client),
    .recv (0, .server) 9, .close (0, .server), .bind 7 80, .connect 8 3 80, .accept 1 7 4,
    .send (1, .server) [7]]

end ShmSocket.Session
