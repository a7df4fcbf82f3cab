import ShmSocket.PortTable.Steps

/-! Any number of clients connect to one listening port `p`, without `bind` and `close`.
The word of `p` is never 0, so no scan picks `p`; the swap of one client replaces the
listener's pid for good, and all others fail. -/
namespace ShmSocket.PortTable
open StepMachine

/-- A listener's pid is in the word of `p`, and no call is in progress. -/
def listening (p : ℕ) : StepMachine Sys Act where
  init s := (∃ pid : Pid, 0 < pid ∧ pid < 2 ^ maxPidBits ∧ s.table p = pid) ∧
    ∀ c, s.call c = .unused
  step := Sys.step

def NoBind : Act → Prop
  | .bind _ _ _ => False
  | _ => True

/-- The call of `connect` with the locals `f` is past its swap; it returns 0 or -3. -/
def Call.Passed (f : Conn) : Call → Prop
  | .mark g | .openRing g => g = f
  | .connectDone g ret => g = f ∧ (ret = 0 ∨ ret = -3)
  | _ => False

/-- A call of `connect` to `p` that is in progress and not past its swap. -/
def Call.Pending (p : ℕ) : Call → Prop
  | .connectLoad f | .scan _ f | .claim _ f | .swap f | .restore f => f.serverPort = p
  | _ => False

/-- A bound on the steps that a call still takes. -/
def Call.rank : Call → ℕ
  | .unused | .bindDone _ _ | .connectDone _ _ => 0
  | .bindStore _ _ | .restore _ | .openRing _ => 1
  | .bindLoad _ _ | .mark _ => 2
  | .swap _ => 3
  | .claim _ _ => 4
  | .scan i _ => 5 + (portNumber - i)
  | .connectLoad _ => 5 + portNumber

/-- What a call has seen of the port `p`, whose listener is `pid`. -/
def CallOk (p pid : ℕ) : Call → Prop
  | .unused | .connectLoad _ | .openRing _ => True
  | .bindLoad _ _ | .bindStore _ _ | .bindDone _ _ => False
  | .scan i f => i < portNumber ∧ (f.serverPort = p → f.pid = pid)
  | .claim i f => i ≠ p ∧ i < portNumber ∧ (f.serverPort = p → f.pid = pid)
  | .swap f => f.clientPort ≠ p ∧ f.clientPort < portNumber ∧ (f.serverPort = p → f.pid = pid)
  | .restore f | .mark f => f.clientPort ≠ p
  | .connectDone f ret => f.serverPort = p → ret = -1 ∨ ret = 0 ∨ ret = -3

variable {p pid : ℕ} {s s' : Sys} {a : Act} {c d : Cid} {f : Conn}

theorem connectLoaded_ok {value : ℕ} (hpos : 0 < pid)
    (hvalue : f.serverPort = p → value = pid ∨ 2 ^ maxPidBits ≤ value) :
    CallOk p pid (Sys.connectLoaded f value) := by
  unfold Sys.connectLoaded
  split_ifs with hhigh hzero
  · exact fun _ => .inl rfl
  · intro hp
    rcases hvalue hp with hv | hv <;> omega
  · refine ⟨by decide, fun hp => ?_⟩
    exact (hvalue hp).resolve_right hhigh

theorem scanned_ok {i : ℕ} {value : ℤ} (hok : CallOk p pid (.scan i f))
    (hfree : value = 0 → i ≠ p) : CallOk p pid (Sys.scanned i f value) := by
  unfold Sys.scanned
  split_ifs with hzero hnext
  · exact ⟨hfree hzero, hok⟩
  · exact ⟨hnext, hok.2⟩
  · exact fun _ => .inl rfl

theorem connectLoaded_not_passed (f g : Conn) (value : ℕ) :
    ¬ (Sys.connectLoaded f value).Passed g := by
  unfold Sys.connectLoaded
  split_ifs <;> simp [Call.Passed]

theorem scanned_not_passed (i : ℕ) (f g : Conn) (value : ℤ) :
    ¬ (Sys.scanned i f value).Passed g := by
  unfold Sys.scanned
  split_ifs <;> simp [Call.Passed]

/-- Call `c` has won `p`. -/
def Won (p : ℕ) (s : Sys) (c : Cid) : Prop := ∃ f, (s.call c).Passed f ∧ f.serverPort = p

/-- The word of `p` is the listener's pid until one call has won, and from then on the
word of that call. -/
structure WinnerInv (p pid : ℕ) (s : Sys) : Prop where
  calls : ∀ c, CallOk p pid (s.call c)
  word : ((∀ c, ¬ Won p s c) ∧ s.table p = pid) ∨
    ∃ c f, (s.call c).Passed f ∧ f.serverPort = p ∧ f.clientPort < portNumber ∧
      s.table p = taken f.clientPort ∧ ∀ d, Won p s d → d = c

namespace WinnerInv

theorem start (htable : s.table p = pid) (hidle : ∀ c, s.call c = .unused) : WinnerInv p pid s := by
  constructor
  · intro c
    rw [hidle c]
    trivial
  · refine .inl ⟨fun c hw => ?_, htable⟩
    obtain ⟨f, hf, -⟩ := hw
    rw [hidle c] at hf
    exact hf

theorem table_ne_zero (h : WinnerInv p pid s) (hpos : 0 < pid) : s.table p ≠ 0 := by
  rcases h.word with ⟨-, hw⟩ | ⟨c, f, -, -, -, hw, -⟩
  · rw [hw]
    omega
  · rw [hw]
    exact taken_ne_zero _

/-- The listener's pid is what `connect` accepts before the first win and never after. -/
theorem loaded (h : WinnerInv p pid s) (hlt : pid < 2 ^ maxPidBits) :
    u32 (s.table p) = pid ∨ 2 ^ maxPidBits ≤ u32 (s.table p) := by
  rcases h.word with ⟨-, hw⟩ | ⟨c, f, -, -, hport, hw, -⟩
  · left
    rw [hw]
    exact u32_natCast (hlt.trans (by decide))
  · right
    rw [hw, u32_natCast (taken_lt hport)]
    exact taken_ge f.clientPort

/-- A swap that expects the listener's pid succeeds only before the first win. -/
theorem unwon (h : WinnerInv p pid s) (hlt : pid < 2 ^ maxPidBits) (hw : s.table p = i32 pid) :
    ∀ c, ¬ Won p s c := by
  rcases h.word with ⟨hno, -⟩ | ⟨c, f, -, -, -, hw', -⟩
  · exact hno
  · exfalso
    have hge := taken_ge f.clientPort
    have hpow : 2 ^ maxPidBits < 2 ^ 31 := by decide
    rw [hw', i32_of_lt (hlt.trans hpow)] at hw
    omega

/-- A step that leaves the word of `p` alone and wins nothing for `p`. -/
theorem of_move {call : Call} (h : WinnerInv p pid s)
    (hcall : s'.call = Function.update s.call c call) (htable : s'.table p = s.table p)
    (hok : CallOk p pid call)
    (hpass : ∀ f, f.serverPort = p → (call.Passed f ↔ (s.call c).Passed f)) :
    WinnerInv p pid s' := by
  have hsame : ∀ d f, f.serverPort = p → ((s'.call d).Passed f ↔ (s.call d).Passed f) := by
    intro d f hf
    rw [hcall]
    by_cases hd : d = c
    · rw [hd, Function.update_self]
      exact hpass f hf
    · rw [Function.update_of_ne hd]
  have hwon : ∀ d, Won p s' d → Won p s d := by
    rintro d ⟨f, hf, hp⟩
    exact ⟨f, (hsame d f hp).mp hf, hp⟩
  constructor
  · rw [hcall]
    exact (Function.forall_update_iff s.call fun _ call => CallOk p pid call).mpr
      ⟨hok, fun d _ => h.calls d⟩
  · rw [htable]
    rcases h.word with ⟨hno, hw⟩ | ⟨w, f, hpassed, hp, hport, hw, honly⟩
    · exact .inl ⟨fun d hd => hno d (hwon d hd), hw⟩
    · exact .inr ⟨w, f, (hsame w f hp).mpr hpassed, hp, hport, hw, fun d hd => honly d (hwon d hd)⟩

/-- A successful swap on `p`. -/
theorem win (h : WinnerInv p pid s) (hc : s.call c = .swap f) (hp : f.serverPort = p)
    (hno : ∀ d, ¬ Won p s d) :
    WinnerInv p pid ((s.writePortTable p (taken f.clientPort)).setCall c (.mark f)) := by
  have hok := h.calls c
  rw [hc] at hok
  generalize hs' : (s.writePortTable p (taken f.clientPort)).setCall c (.mark f) = s'
  have hself : s'.call c = .mark f := by
    rw [← hs']
    exact Function.update_self _ _ _
  have hother : ∀ {d}, d ≠ c → s'.call d = s.call d := fun hd => by
    rw [← hs']
    exact Function.update_of_ne hd _ _
  constructor
  · rw [← hs']
    exact (Function.forall_update_iff s.call fun _ call => CallOk p pid call).mpr
      ⟨hok.1, fun d _ => h.calls d⟩
  · refine .inr ⟨c, f, ?_, hp, hok.2.1, ?_, fun d hd => ?_⟩
    · rw [hself]
      rfl
    · rw [← hs']
      exact Function.update_self _ _ _
    · by_contra hne
      obtain ⟨g, hg, hgp⟩ := hd
      rw [hother hne] at hg
      exact hno d ⟨g, hg, hgp⟩

theorem step (h : WinnerInv p pid s) (hpos : 0 < pid) (hlt : pid < 2 ^ maxPidBits)
    (hbind : NoBind a) (hs : s.step a = some s') : WinnerInv p pid s' := by
  have hok := h.calls a.cid
  cases step_cases hs with
  | bind hc => exact hbind.elim
  | bindLoad hc | bindStore hc =>
    rw [Act.cid, hc] at hok
    exact hok.elim
  | connect hc =>
    refine h.of_move rfl rfl trivial fun g _ => ?_
    rw [hc]
    exact Iff.rfl
  | @connectLoad c opened f hc =>
    refine h.of_move rfl rfl (connectLoaded_ok hpos fun hp => ?_) fun g _ => ?_
    · rw [hp]
      exact h.loaded hlt
    · rw [hc]
      exact iff_of_false (connectLoaded_not_passed f g _) id
  | @scan c opened i f hc =>
    rw [Act.cid, hc] at hok
    refine h.of_move rfl rfl (scanned_ok hok fun hz hp => ?_) fun g _ => ?_
    · rw [hp] at hz
      exact h.table_ne_zero hpos hz
    · rw [hc]
      exact iff_of_false (scanned_not_passed i f g _) id
  | claim hc =>
    rw [Act.cid, hc] at hok
    refine h.of_move rfl (Function.update_of_ne hok.1.symm _ _) hok fun g _ => ?_
    rw [hc]
    exact Iff.rfl
  | @win c opened f hc hword =>
    rw [Act.cid, hc] at hok
    by_cases hp : f.serverPort = p
    · rw [hp, hok.2.2 hp] at hword
      rw [hp]
      exact h.win hc hp (h.unwon hlt hword)
    · refine h.of_move rfl (Function.update_of_ne (Ne.symm hp) _ _) hok.1 fun g hg => ?_
      rw [hc]
      refine iff_of_false (fun he => hp ?_) id
      rw [he, hg]
  | lose hc =>
    rw [Act.cid, hc] at hok
    refine h.of_move rfl rfl hok.1 fun g _ => ?_
    rw [hc]
    exact Iff.rfl
  | restore hc =>
    rw [Act.cid, hc] at hok
    refine h.of_move rfl (Function.update_of_ne hok.symm _ _) (fun _ => .inl rfl) fun g _ => ?_
    rw [hc]
    exact iff_of_false (by simp [Call.Passed]) id
  | mark hc =>
    rw [Act.cid, hc] at hok
    refine h.of_move rfl (Function.update_of_ne hok.symm _ _) trivial fun g _ => ?_
    rw [hc]
    exact Iff.rfl
  | @openRing c opened f hc =>
    have hret : (if opened then (0 : ℤ) else -3) = 0 ∨ (if opened then (0 : ℤ) else -3) = -3 := by
      cases opened <;> simp
    refine h.of_move rfl rfl (fun _ => .inr hret) fun g _ => ?_
    rw [hc]
    exact and_iff_left hret

end WinnerInv

/-- The server port of a call of `connect`. -/
def Call.server : Call → Option ℕ
  | .connectLoad f | .scan _ f | .claim _ f | .swap f | .restore f | .mark f | .openRing f
  | .connectDone f _ => some f.serverPort
  | _ => none

theorem connectLoaded_server (f : Conn) (value : ℕ) :
    (Sys.connectLoaded f value).server = some f.serverPort := by
  unfold Sys.connectLoaded
  split_ifs <;> rfl

theorem connectLoaded_rank (f : Conn) (value : ℕ) :
    (Sys.connectLoaded f value).rank < 5 + portNumber := by
  unfold Sys.connectLoaded portNumber
  split_ifs <;> simp [Call.rank, portNumber]

theorem scanned_server (i : ℕ) (f : Conn) (value : ℤ) :
    (Sys.scanned i f value).server = some f.serverPort := by
  unfold Sys.scanned
  split_ifs <;> rfl

theorem scanned_rank (i : ℕ) (f : Conn) (value : ℤ) :
    (Sys.scanned i f value).rank < 5 + (portNumber - i) := by
  unfold Sys.scanned
  split_ifs <;> simp only [Call.rank] <;> omega

/-- A step of a call brings it closer to its end, keeps its server port, and takes no
win away. -/
theorem exec_progress {opened : Bool} (hs : s.exec c opened = some s') :
    (s'.call c).rank < (s.call c).rank ∧ (s'.call c).server = (s.call c).server ∧
      ∀ f, (s.call c).Passed f → (s'.call c).Passed f := by
  cases exec_cases hs with
  | bindLoad hc =>
    rw [hc]
    simp only [Sys.setCall, Function.update_self]
    split_ifs <;> simp [Call.rank, Call.server, Call.Passed]
  | @connectLoad _ _ f hc =>
    rw [hc]
    simp only [Sys.setCall, Function.update_self]
    exact ⟨connectLoaded_rank f _, connectLoaded_server f _, fun _ => False.elim⟩
  | @scan _ _ i f hc =>
    rw [hc]
    simp only [Sys.setCall, Function.update_self]
    exact ⟨scanned_rank i f _, scanned_server i f _, fun _ => False.elim⟩
  | openRing hc =>
    rw [hc]
    simp only [Sys.setCall, Function.update_self]
    cases opened <;> simp [Call.rank, Call.server, Call.Passed]
  | bindStore hc | claim hc | win hc | lose hc | restore hc | mark hc =>
    rw [hc]
    simp [Sys.setCall, Function.update_self, Call.rank, Call.server, Call.Passed]

/-- A started call moves only by its own steps. -/
theorem step_started (hc : s.call c ≠ .unused) (hs : s.step a = some s') :
    (∃ opened, a = .exec c opened ∧ s.exec c opened = some s') ∨
      (∀ opened, a ≠ .exec c opened) ∧ s'.call c = s.call c := by
  by_cases ha : a.cid = c
  · left
    cases a with
    | exec d opened =>
      obtain rfl : d = c := ha
      exact ⟨opened, rfl, hs⟩
    | bind d me port =>
      obtain rfl : d = c := ha
      cases hd : s.call d <;> simp [Sys.step, hd] at hs hc
    | connect d me fd serverPort =>
      obtain rfl : d = c := ha
      cases hd : s.call d <;> simp [Sys.step, hd] at hs hc
  · refine .inr ⟨?_, step_call_ne hs (Ne.symm ha)⟩
    rintro opened rfl
    exact ha rfl

/-- Past its swap, a call stays there. -/
theorem passed_step (hf : (s.call c).Passed f) (hs : s.step a = some s') :
    (s'.call c).Passed f := by
  have hc : s.call c ≠ .unused := by
    intro hu
    rw [hu] at hf
    exact hf
  rcases step_started hc hs with ⟨opened, -, he⟩ | ⟨-, hsame⟩
  · exact (exec_progress he).2.2 f hf
  · rwa [hsame]

theorem passed_steps (hf : (s.call c).Passed f)
    (h : (listening p).Steps (fun _ a => NoBind a) s s') : (s'.call c).Passed f :=
  h.preserves (P := fun s => (s.call c).Passed f) (fun _ _ _ hp _ hs => passed_step hp hs) hf

/-- The steps of call `c` in a schedule. -/
def stepsOf (c : Cid) (as : List Act) : ℕ :=
  as.countP fun
    | .exec d _ => d == c
    | _ => false

theorem stepsOf_own {opened : Bool} (as : List Act) :
    stepsOf c (.exec c opened :: as) = stepsOf c as + 1 := by
  simp [stepsOf]

theorem stepsOf_other (as : List Act) (ha : ∀ opened, a ≠ .exec c opened) :
    stepsOf c (a :: as) = stepsOf c as := by
  cases a with
  | exec d opened =>
    have hne : d ≠ c := by
      rintro rfl
      exact ha opened rfl
    simp [stepsOf, hne]
  | _ => simp [stepsOf]

/-- A call is finished after as many of its own steps as its rank says, whatever others
do in between. -/
theorem finished_of_run {as : List Act} {port : ℕ} (hserver : (s.call c).server = some port)
    (hrun : (listening p).run s as = some s') (hrank : (s.call c).rank ≤ stepsOf c as) :
    (s'.call c).rank = 0 ∧ (s'.call c).server = some port := by
  induction as generalizing s with
  | nil =>
    cases hrun
    exact ⟨Nat.le_zero.mp hrank, hserver⟩
  | cons a as ih =>
    obtain ⟨s₁, hs, hrest⟩ := Option.bind_eq_some_iff.mp hrun
    have hc : s.call c ≠ .unused := by
      intro hu
      rw [hu] at hserver
      cases hserver
    rcases step_started hc hs with ⟨opened, rfl, he⟩ | ⟨ha, hsame⟩
    · obtain ⟨hless, hsv, -⟩ := exec_progress he
      rw [stepsOf_own] at hrank
      exact ih (hsv.trans hserver) hrest (by omega)
    · rw [stepsOf_other as ha, ← hsame] at hrank
      exact ih (by rw [hsame]; exact hserver) hrest hrank

theorem Call.Pending.server {call : Call} (h : call.Pending p) : call.server = some p := by
  cases call <;> first | exact h.elim | exact congrArg some h

theorem Call.Pending.not_passed {call : Call} (h : call.Pending p) : ¬ call.Passed f := by
  cases call <;> first | exact h.elim | exact id

theorem Call.Passed.unique {call : Call} {g : Conn} (hf : call.Passed f) (hg : call.Passed g) :
    f = g := by
  cases call with
  | mark h | openRing h => exact hf.symm.trans hg
  | connectDone h ret => exact hf.1.symm.trans hg.1
  | _ => exact hf.elim

theorem Call.done_of_rank {call : Call} (hrank : call.rank = 0) (hserver : call.server = some p) :
    ∃ f ret, call = .connectDone f ret ∧ f.serverPort = p := by
  cases call with
  | connectDone f ret => exact ⟨f, ret, rfl, Option.some.inj hserver⟩
  | unused | bindLoad me port | bindStore me port | bindDone port ret => cases hserver
  | _ =>
    simp only [Call.rank] at hrank
    omega

/-- At most one call of `connect` to `p` is past its swap, the word of `p` is that call's
for the rest of the run, and every other call to `p` returns -1, after as many steps of
its own as its rank says. -/
structure OneWinner (p : ℕ) (s : Sys) : Prop where
  unique : ∀ c d, Won p s c → Won p s d → c = d
  word : ∀ c f, (s.call c).Passed f → f.serverPort = p → ∀ s',
    (listening p).Steps (fun _ a => NoBind a) s s' →
      (s'.call c).Passed f ∧ s'.table p = taken f.clientPort
  results : ∀ c f ret, s.call c = .connectDone f ret → f.serverPort = p →
    ret = -1 ∨ (ret = 0 ∨ ret = -3) ∧ Won p s c
  losers : ∀ c d, Won p s c → (s.call d).Pending p → ∀ as s',
    (listening p).run s as = some s' → (∀ a ∈ as, NoBind a) →
      (s.call d).rank ≤ stepsOf d as → ∃ f, s'.call d = .connectDone f (-1)

namespace WinnerInv

theorem unique (h : WinnerInv p pid s) (hc : Won p s c) (hd : Won p s d) : c = d := by
  rcases h.word with ⟨hno, -⟩ | ⟨w, -, -, -, -, -, honly⟩
  · exact absurd hc (hno c)
  · exact (honly c hc).trans (honly d hd).symm

theorem won_word (h : WinnerInv p pid s) (hf : (s.call c).Passed f) (hp : f.serverPort = p) :
    s.table p = taken f.clientPort := by
  rcases h.word with ⟨hno, -⟩ | ⟨w, g, hg, -, -, hword, honly⟩
  · exact absurd ⟨f, hf, hp⟩ (hno c)
  · rw [honly c ⟨f, hf, hp⟩] at hf
    rw [hword, hf.unique hg]

theorem result {ret : ℤ} (h : WinnerInv p pid s) (hc : s.call c = .connectDone f ret)
    (hp : f.serverPort = p) : ret = -1 ∨ (ret = 0 ∨ ret = -3) ∧ Won p s c := by
  have hok := h.calls c
  rw [hc] at hok
  rcases hok hp with hret | hret
  · exact .inl hret
  · refine .inr ⟨hret, f, ?_, hp⟩
    rw [hc]
    exact ⟨rfl, hret⟩

/-- A finished call to `p` that did not win returned -1. -/
theorem lost (h : WinnerInv p pid s) (hrank : (s.call d).rank = 0)
    (hserver : (s.call d).server = some p) (hno : ¬ Won p s d) :
    ∃ f, s.call d = .connectDone f (-1) := by
  obtain ⟨f, ret, hd, hp⟩ := Call.done_of_rank hrank hserver
  rcases h.result hd hp with rfl | ⟨-, hwon⟩
  · exact ⟨f, hd⟩
  · exact absurd hwon hno

end WinnerInv

/-- At most one client wins a listening port. -/
theorem one_winner {p : ℕ} {s : Sys} (h : (listening p).Reachable (fun _ a => NoBind a) s) :
    OneWinner p s := by
  have hinv : ∃ pid : ℕ, (0 < pid ∧ pid < 2 ^ maxPidBits) ∧ WinnerInv p pid s := by
    refine h.invariant (P := fun s => ∃ pid : ℕ, (0 < pid ∧ pid < 2 ^ maxPidBits) ∧
      WinnerInv p pid s) ?_ ?_
    · rintro s ⟨⟨pid, hpos, hlt, htable⟩, hidle⟩
      exact ⟨pid, ⟨hpos, hlt⟩, .start htable hidle⟩
    · rintro s a s' ⟨pid, hpid, hi⟩ hbind hs
      exact ⟨pid, hpid, hi.step hpid.1 hpid.2 hbind hs⟩
  obtain ⟨pid, ⟨hpos, hlt⟩, hi⟩ := hinv
  have hsteps : ∀ {s'}, (listening p).Steps (fun _ a => NoBind a) s s' → WinnerInv p pid s' :=
    fun hs' => hs'.preserves (fun _ _ _ hi hbind hs => hi.step hpos hlt hbind hs) hi
  constructor
  · exact fun c d hc hd => hi.unique hc hd
  · intro c f hf hp s' hs'
    have hf' := passed_steps hf hs'
    exact ⟨hf', (hsteps hs').won_word hf' hp⟩
  · exact fun c f ret hc hp => hi.result hc hp
  · intro c d hwon hpending as s' hrun hbind hrank
    have hs' := steps_of_run hrun fun a ha _ => hbind a ha
    obtain ⟨hrank', hserver⟩ := finished_of_run hpending.server hrun hrank
    refine (hsteps hs').lost hrank' hserver fun hd => ?_
    obtain ⟨f, hf, hp⟩ := hwon
    -- the winner keeps its win, so the pending call would have to be the winner
    have hcd := (hsteps hs').unique ⟨f, passed_steps hf hs', hp⟩ hd
    rw [hcd] at hf
    exact hpending.not_passed hf

/-- Process 7 listens on port 80. -/
def port80 : Sys := ⟨fun port => if port = 80 then 7 else 0, fun _ => .unused⟩

/-- Processes 8 and 9 both load the pid; 8 picks port 1, 9 picks port 2, and 8 swaps first. -/
def twoClients : List Act :=
  [.connect 0 8 3 80, .connect 1 9 3 80, .exec 0 true, .exec 1 true, .exec 0 true, .exec 0 true,
    .exec 1 true, .exec 1 true, .exec 1 true, .exec 0 true, .exec 1 true, .exec 1 true,
    .exec 0 true, .exec 0 true]

theorem one_winner_port80 : ∃ s, (listening 80).run port80 twoClients = some s ∧
    s.call 0 = .connectDone ⟨8, 3, 80, 7, 1⟩ 0 ∧ s.call 1 = .connectDone ⟨9, 3, 80, 7, 2⟩ (-1) ∧
    OneWinner 80 s := by
  have hrun : (listening 80).run port80 twoClients = some _ := rfl
  have hbind : ∀ a ∈ twoClients, ∀ _ : Sys, NoBind a := by
    simp [twoClients, NoBind]
  have hinit : (listening 80).init port80 := ⟨⟨7, by decide, by decide, rfl⟩, fun _ => rfl⟩
  exact ⟨_, hrun, rfl, rfl, one_winner ⟨port80, hinit, steps_of_run hrun hbind⟩⟩

end ShmSocket.PortTable
