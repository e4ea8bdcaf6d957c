import Glip.Foundation.GuardedRun

/-! The descriptors, the shutdown flag and the thread of backend_tcp.c, over the sessions of a context. -/
namespace Glip.Tcp
open Foundation

inductive ComThread
  | none
  | loop
  | closeData
  | closeCtrl
  | clearShutdown
  | ended
  deriving DecidableEq

structure Session where
  dataSfd : Int
  ctrlSfd : Int
  tcpComThreadShutdown : Bool
  /-- the sockets that are open -/
  sockets : List Int
  tcpComThread : ComThread
  /-- threads of earlier sessions that have only the flag left to clear -/
  older : Nat
  /-- from an open that returned 0 to the return of its close -/
  isOpen : Bool
  /-- `gb_tcp_close` waits for the thread -/
  closing : Bool
  deriving DecidableEq

structure OpenResults where
  dataConnect : Option Nat
  dataNonblock : Bool
  ctrlConnect : Option Nat
  ctrlNonblock : Bool
  writeBuf : Bool
  readBuf : Bool
  threadCreated : Bool

def OpenResults.Succeeds (r : OpenResults) : Prop :=
  r.dataConnect.isSome ∧ r.dataNonblock = true ∧ r.ctrlConnect.isSome ∧ r.ctrlNonblock = true ∧ r.writeBuf = true ∧
    r.readBuf = true ∧ r.threadCreated = true

instance (r : OpenResults) : Decidable r.Succeeds := by
  unfold OpenResults.Succeeds
  infer_instance

inductive SessionStep
  | tcpOpen (r : OpenResults)
  /-- `gb_tcp_close` up to `pthread_join`, and its return -/
  | tcpClose
  | closeReturns
  /-- the next statement of the thread, or the next pass of its loop; `io` if reading and writing work -/
  | comThread (io : Bool)
  | olderThread

/-- `gb_tcp_new` -/
def newSession : Session := ⟨-1, -1, false, [], .none, 0, false, false⟩

namespace Session
variable (s : Session)

def Connected : Prop := 0 ≤ s.dataSfd ∨ 0 ≤ s.ctrlSfd

instance : Decidable s.Connected := inferInstanceAs (Decidable (_ ∨ _))

def createThread : Session :=
  { s with
    tcpComThread := .loop
    older := if s.tcpComThread = .clearShutdown then s.older + 1 else s.older
    isOpen := true }

/-- The part of `gb_tcp_open` from the control channel on. -/
def openCtrl (r : OpenResults) : Session × Int :=
  let s := { s with ctrlSfd := 0 }
  match r.ctrlConnect with
  | none => (s, -1)
  | some sfd =>
    let s := { s with ctrlSfd := sfd, sockets := (sfd : Int) :: s.sockets }
    if r.ctrlNonblock && r.writeBuf && r.readBuf && r.threadCreated then (s.createThread, 0) else (s, -1)

def tcpOpen (r : OpenResults) : Session × Int :=
  if s.Connected then (s, -1)
  else
    let s := { s with dataSfd := 0 }
    match r.dataConnect with
    | none => (s, -1)
    | some sfd =>
      let s := { s with dataSfd := sfd, sockets := (sfd : Int) :: s.sockets }
      if r.dataNonblock then s.openCtrl r else (s, -1)

def comThread (io : Bool) : Option Session :=
  match s.tcpComThread with
  | .none | .ended => none
  | .loop =>
    if s.tcpComThreadShutdown || decide (s.dataSfd < 0) || !io then some { s with tcpComThread := .closeData } else some s
  | .closeData =>
    if 0 ≤ s.dataSfd then
      some { s with dataSfd := -1, sockets := s.sockets.erase s.dataSfd, tcpComThread := .closeCtrl }
    else some { s with tcpComThread := .closeCtrl }
  | .closeCtrl =>
    if 0 ≤ s.ctrlSfd then
      some { s with ctrlSfd := -1, sockets := s.sockets.erase s.ctrlSfd, tcpComThread := .clearShutdown }
    else some { s with tcpComThread := .clearShutdown }
  | .clearShutdown => some { s with tcpComThreadShutdown := false, tcpComThread := .ended }

def step : SessionStep → Option Session
  | .tcpOpen r => if s.closing then none else some (s.tcpOpen r).1
  | .tcpClose =>
    if s.isOpen && !s.closing then some { s with tcpComThreadShutdown := true, closing := true } else none
  | .closeReturns =>
    if s.closing ∧ s.tcpComThread = .ended then some { s with tcpComThread := .none, isOpen := false, closing := false }
    else none
  | .comThread io => s.comThread io
  | .olderThread => if s.older = 0 then none else some { s with tcpComThreadShutdown := false, older := s.older - 1 }

end Session

def sessions : Guarded Session SessionStep := ⟨Session.step⟩

/-- No session is open: none was opened or it was closed, or its thread has ended with its connection. -/
def Session.Over (s : Session) : Prop := s.isOpen = false ∨ s.tcpComThread = .ended

structure Session.Clean (s : Session) : Prop where
  dataSfd : s.dataSfd = -1
  ctrlSfd : s.ctrlSfd = -1
  sockets : s.sockets = []
  shutdown : s.tcpComThreadShutdown = false

/-- A session that is over has left nothing: the next open is not refused, and nothing but a close stops the thread. -/
structure Session.Sound (s : Session) : Prop where
  clean : s.Over → s.Clean
  accepted : s.Over → ∀ r : OpenResults, r.Succeeds → (s.tcpOpen r).2 = 0
  iterates : s.tcpComThread = .loop → s.closing = false → s.comThread true = some s

/-- An open that is not refused does not fail, and a close is called while the thread has its flag still to clear. -/
def Session.Orderly (s : Session) : SessionStep → Prop
  | .tcpOpen r => s.Connected ∨ r.Succeeds
  | .tcpClose => s.tcpComThread ≠ .ended
  | _ => True

instance (s : Session) : (e : SessionStep) → Decidable (s.Orderly e)
  | .tcpOpen r => inferInstanceAs (Decidable (s.Connected ∨ r.Succeeds))
  | .tcpClose => inferInstanceAs (Decidable (s.tcpComThread ≠ .ended))
  | .closeReturns | .comThread _ | .olderThread => instDecidableTrue

def Session.At (s : Session) : ComThread → Prop
  | .none => s.Clean ∧ s.isOpen = false
  | .loop | .closeData => s.isOpen = true ∧ 0 ≤ s.dataSfd ∧ 0 ≤ s.ctrlSfd ∧ s.sockets = [s.ctrlSfd, s.dataSfd]
  | .closeCtrl => s.isOpen = true ∧ s.dataSfd = -1 ∧ 0 ≤ s.ctrlSfd ∧ s.sockets = [s.ctrlSfd]
  | .clearShutdown => s.isOpen = true ∧ s.dataSfd = -1 ∧ s.ctrlSfd = -1 ∧ s.sockets = []
  | .ended => s.Clean ∧ s.isOpen = true

structure Session.Ordered (s : Session) : Prop where
  at_point : s.At s.tcpComThread
  requested : s.tcpComThreadShutdown = true → s.closing = true
  closes : s.closing = true → s.isOpen = true

section Steps
variable {s s' : Session}

theorem Session.Clean.not_connected (h : s.Clean) : ¬ s.Connected := by
  rw [Session.Connected, h.dataSfd, h.ctrlSfd]
  decide

/-- An open whose steps all succeed, from descriptors that are free. -/
theorem Session.tcpOpen_succeeds (hs : ¬ s.Connected) {r : OpenResults} (h : r.Succeeds) :
    ∃ data ctrl : Nat, s.tcpOpen r =
      ({ s with dataSfd := data, ctrlSfd := ctrl, sockets := (ctrl : Int) :: (data : Int) :: s.sockets }.createThread, 0) := by
  obtain ⟨hdata, hnonblock, hctrl, hctrlNonblock, hwrite, hread, hthread⟩ := h
  obtain ⟨data, hdata⟩ := Option.isSome_iff_exists.mp hdata
  obtain ⟨ctrl, hctrl⟩ := Option.isSome_iff_exists.mp hctrl
  refine ⟨data, ctrl, ?_⟩
  simp only [Session.tcpOpen, Session.openCtrl, if_neg hs, hdata, hctrl, hnonblock, hctrlNonblock, hwrite, hread, hthread]
  rfl

theorem Session.tcpOpen_refused (hs : s.Connected) (r : OpenResults) : s.tcpOpen r = (s, -1) := by
  rw [Session.tcpOpen, if_pos hs]

/-- The sockets of a session, without that of the data channel. -/
theorem erase_data (ctrl data : Int) : [ctrl, data].erase data = [ctrl] := by
  by_cases h : ctrl = data
  · rw [h, List.erase_cons_head]
  · rw [List.erase_cons_tail (by simpa using h), List.erase_cons_head]

theorem Session.Ordered.over_clean (h : s.Ordered) (hover : s.Over) : s.Clean := by
  have hat := h.at_point
  rcases hover with hclosed | hended
  · cases hthread : s.tcpComThread <;> rw [hthread] at hat
    case none => exact hat.1
    case ended => exact hat.1
    all_goals exact absurd (hclosed.symm.trans hat.1) Bool.false_ne_true
  · rw [hended] at hat
    exact hat.1

theorem Session.Ordered.sound (h : s.Ordered) : s.Sound := by
  refine ⟨h.over_clean, ?_, ?_⟩
  · intro hover r hr
    obtain ⟨data, ctrl, heq⟩ := Session.tcpOpen_succeeds (h.over_clean hover).not_connected hr
    rw [heq]
  · intro hloop hclosing
    have hat := h.at_point
    rw [hloop] at hat
    have hdata : decide (s.dataSfd < 0) = false := decide_eq_false (Int.not_lt.mpr hat.2.1)
    have hshutdown : s.tcpComThreadShutdown = false := by
      cases hset : s.tcpComThreadShutdown with
      | false => rfl
      | true => exact absurd (hclosing.symm.trans (h.requested hset)) Bool.false_ne_true
    rw [Session.comThread, hloop]
    dsimp only
    rw [hshutdown, hdata]
    rfl

/-- Free descriptors, as they are before an open that is not refused. -/
theorem Session.Ordered.free (h : s.Ordered) (hs : ¬ s.Connected) : s.sockets = [] := by
  have hat := h.at_point
  cases hthread : s.tcpComThread <;> rw [hthread] at hat
  case none => exact hat.1.sockets
  case loop => exact absurd (.inl hat.2.1) hs
  case closeData => exact absurd (.inl hat.2.1) hs
  case closeCtrl => exact absurd (.inr hat.2.2.1) hs
  case clearShutdown => exact hat.2.2.2
  case ended => exact hat.1.sockets

theorem Session.Ordered.tcpOpen (h : s.Ordered) {r : OpenResults}
    (hr : s.Connected ∨ r.Succeeds) : (s.tcpOpen r).1.Ordered := by
  by_cases hs : s.Connected
  · rw [Session.tcpOpen_refused hs]
    exact h
  · obtain ⟨data, ctrl, heq⟩ := Session.tcpOpen_succeeds hs (hr.resolve_left hs)
    rw [heq]
    refine ⟨?_, h.requested, fun _ => rfl⟩
    have hdata : (0 : Int) ≤ data := Int.natCast_nonneg data
    have hctrl : (0 : Int) ≤ ctrl := Int.natCast_nonneg ctrl
    exact ⟨rfl, hdata, hctrl, by rw [Session.createThread, h.free hs]⟩

/-- A pass of the loop goes on or leaves it; the statements after the loop close one socket each, and clear the flag. -/
theorem Session.Ordered.comThread (h : s.Ordered) {io : Bool} (hstep : s.comThread io = some s') : s'.Ordered := by
  have hat := h.at_point
  rw [Session.comThread] at hstep
  cases hthread : s.tcpComThread <;> rw [hthread] at hat hstep <;> dsimp only at hstep
  case none => cases hstep
  case ended => cases hstep
  case loop =>
    split at hstep <;> cases hstep
    · exact ⟨hat, h.requested, h.closes⟩
    · exact h
  case closeData =>
    obtain ⟨hopen, hdata, hctrl, hsockets⟩ := hat
    rw [if_pos hdata, hsockets, erase_data] at hstep
    cases hstep
    exact ⟨⟨hopen, rfl, hctrl, rfl⟩, h.requested, h.closes⟩
  case closeCtrl =>
    obtain ⟨hopen, hdata, hctrl, hsockets⟩ := hat
    rw [if_pos hctrl, hsockets, List.erase_cons_head] at hstep
    cases hstep
    exact ⟨⟨hopen, hdata, rfl, rfl⟩, h.requested, h.closes⟩
  case clearShutdown =>
    obtain ⟨hopen, hdata, hctrl, hsockets⟩ := hat
    cases hstep
    exact ⟨⟨⟨hdata, hctrl, hsockets, rfl⟩, hopen⟩, Bool.noConfusion, h.closes⟩

/-- The flag is not looked at in any point but the first and the last. -/
theorem Session.At.shutdown {point : ComThread} (h : s.At point) (hne : point ≠ .none) (hended : point ≠ .ended)
    (shutdown closing : Bool) : { s with tcpComThreadShutdown := shutdown, closing := closing }.At point := by
  cases point with
  | none => exact absurd rfl hne
  | ended => exact absurd rfl hended
  | loop => exact h
  | closeData => exact h
  | closeCtrl => exact h
  | clearShutdown => exact h

theorem Session.Ordered.step (h : s.Ordered) {e : SessionStep} (he : s.Orderly e) (hstep : sessions.step s e = some s') :
    s'.Ordered := by
  have hat := h.at_point
  cases e with
  | tcpOpen r =>
    obtain ⟨-, hs'⟩ := Option.ite_none_left_eq_some.mp hstep
    cases hs'
    exact h.tcpOpen he
  | tcpClose =>
    obtain ⟨hopen, hs'⟩ := Option.ite_none_right_eq_some.mp hstep
    have hsession : s.isOpen = true := (Bool.and_eq_true_iff.mp hopen).1
    cases hs'
    have hnone : s.tcpComThread ≠ .none := by
      intro hthread
      rw [hthread] at hat
      exact absurd (hat.2.symm.trans hsession) Bool.false_ne_true
    exact ⟨hat.shutdown hnone he true true, fun _ => rfl, fun _ => hsession⟩
  | closeReturns =>
    obtain ⟨⟨-, hended⟩, hs'⟩ := Option.ite_none_right_eq_some.mp hstep
    cases hs'
    rw [hended] at hat
    exact ⟨⟨⟨hat.1.dataSfd, hat.1.ctrlSfd, hat.1.sockets, hat.1.shutdown⟩, rfl⟩,
      fun hset => absurd (hat.1.shutdown.symm.trans hset) Bool.false_ne_true, Bool.noConfusion⟩
  | comThread io => exact h.comThread hstep
  | olderThread =>
    obtain ⟨-, hs'⟩ := Option.ite_none_left_eq_some.mp hstep
    cases hs'
    refine ⟨?_, Bool.noConfusion, h.closes⟩
    cases hthread : s.tcpComThread <;> rw [hthread] at hat
    case none => exact ⟨⟨hat.1.dataSfd, hat.1.ctrlSfd, hat.1.sockets, rfl⟩, hat.2⟩
    case ended => exact ⟨⟨hat.1.dataSfd, hat.1.ctrlSfd, hat.1.sockets, rfl⟩, hat.2⟩
    all_goals exact hat.shutdown ComThread.noConfusion ComThread.noConfusion false s.closing

end Steps

theorem newSession_ordered : newSession.Ordered :=
  ⟨⟨⟨rfl, rfl, rfl, rfl⟩, rfl⟩, Bool.noConfusion, Bool.noConfusion⟩

/-- In every run of orderly steps each session leaves the context clean, and finds it so. -/
theorem sessions_sound {steps : List SessionStep} {s : Session} (hall : sessions.Each Session.Orderly newSession steps)
    (hrun : sessions.run newSession steps = some s) : s.Sound :=
  (Guarded.run_keeps (fun _ _ _ h he hstep => h.step he hstep) newSession_ordered hall hrun).sound

def reached : OpenResults := ⟨some 3, true, some 4, true, true, true, true⟩
def unreachable : OpenResults := { reached with dataConnect := none }

def brokenOff : List SessionStep := [.tcpOpen reached, .comThread false, .comThread true, .comThread true, .comThread true]

theorem sessions_sound_broken : (⟨-1, -1, false, [], .ended, 0, true, false⟩ : Session).Sound := by
  have hall : sessions.Each Session.Orderly newSession brokenOff := by decide
  exact sessions_sound hall rfl

/-- After an open that found no host every later one is refused; after a close of a connection that had broken the
thread of the next session stops at once. -/
theorem sessions_unsound :
    (∃ s, sessions.run newSession [.tcpOpen unreachable] = some s ∧ s.Over ∧ ¬ s.Clean ∧ s.tcpOpen reached = (s, -1)) ∧
      ∃ s s', sessions.run newSession (brokenOff ++ [.tcpClose, .closeReturns]) = some s ∧ s.Over ∧ ¬ s.Clean ∧
        sessions.run s [.tcpOpen reached, .comThread true] = some s' ∧ s'.tcpComThread = .closeData := by
  refine ⟨⟨_, rfl, .inl rfl, ?_, rfl⟩, _, _, rfl, .inl rfl, ?_, rfl, rfl⟩
  · intro h
    exact absurd h.dataSfd (by decide)
  · intro h
    exact absurd h.shutdown (by decide)

end Glip.Tcp
