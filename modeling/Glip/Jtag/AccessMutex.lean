import Glip.Jtag.SessionThreads

/-! Who has `oocd_access_mutex`, over the sessions of a context. -/
namespace Glip.Jtag
open Foundation

def ScanPoint.held : ScanPoint → Bool
  | .lock => false
  | _ => true

def ThreadPoint.held : ThreadPoint → Bool
  | .discover p | .poll p => p.held
  | .stopped => true
  | _ => false

def UserPoint.held : UserPoint → Bool
  | .logicReset p => p.held
  | _ => false

def JtagSession.InScan (s : JtagSession) : Party → Prop
  | .thread => ∃ p : ScanPoint, p.held = true ∧ (s.thread = .discover p ∨ s.thread = .poll p)
  | .user => ∃ p : ScanPoint, p.held = true ∧ s.user = .logicReset p

/-- With no session open the mutex is unlocked, and in an open one it is at no time locked for ever: its owner is in a
scan, at the end of which it is unlocked. -/
structure JtagSession.MutexSound (s : JtagSession) : Prop where
  unlocked : s.isOpen = false → s.mutex = none
  owned : s.user ≠ .closing → ∀ party, s.mutex = some party → s.InScan party

/-- A close returns after a thread that has ended by itself, and was not stopped at a cancellation point. -/
def JtagSession.EndedByItself (s : JtagSession) : JtagStep → Prop
  | .closeReturns => s.thread = .ended
  | _ => True

instance (s : JtagSession) : (i : JtagStep) → Decidable (s.EndedByItself i)
  | .closeReturns => inferInstanceAs (Decidable (s.thread = .ended))
  | .gbOpen _ | .getFifoWidth | .gbLogicReset | .gbClose | .threadLocks | .userLocks | .threadMoves _ | .userMoves _
  | .calcPayload _ | .threadStops => instDecidableTrue

structure JtagSession.Owned (s : JtagSession) : Prop where
  thread : s.mutex = some .thread ↔ s.thread.held = true
  user : s.mutex = some .user ↔ s.user.held = true
  closed : s.isOpen = false → s.thread = .none ∧ s.user = .idle
  stopped : s.thread = .stopped → s.user = .closing
  cancelled : s.cancelled = true → s.user = .closing

section Steps
variable {s s' : JtagSession}

theorem ScanPoint.move_held {p : ScanPoint} {m : ScanMove} {r : ScanResult} (h : p.move m = some r) : p.held = true := by
  cases p with
  | lock => cases m <;> cases h
  | request => rfl
  | write => rfl
  | read => rfl
  | fields => rfl

theorem ScanPoint.goesOn_held {p p' : ScanPoint} {m : ScanMove} (h : p.move m = some (.goesOn p')) : p'.held = true := by
  cases p <;> cases m <;> cases h
  case request => rfl
  case write.written last => cases last <;> rfl
  case read => rfl
  case fields => rfl

/-- A party that does not hold the mutex does not own it. -/
theorem JtagSession.Owned.not_thread (h : s.Owned) (hheld : s.thread.held = false) : s.mutex ≠ some .thread := by
  intro hm
  exact absurd (hheld.symm.trans (h.thread.mp hm)) Bool.false_ne_true

theorem JtagSession.Owned.not_user (h : s.Owned) (hheld : s.user.held = false) : s.mutex ≠ some .user := by
  intro hm
  exact absurd (hheld.symm.trans (h.user.mp hm)) Bool.false_ne_true

theorem JtagSession.Owned.sound (h : s.Owned) : s.MutexSound := by
  constructor
  · intro hopen
    obtain ⟨hthread, huser⟩ := h.closed hopen
    refine Option.eq_none_iff_forall_ne_some.mpr fun party => ?_
    cases party with
    | thread => exact h.not_thread (by rw [hthread]; rfl)
    | user => exact h.not_user (by rw [huser]; rfl)
  · intro hclosing party hm
    cases party with
    | thread =>
      have hheld := h.thread.mp hm
      cases hthread : s.thread <;> rw [hthread] at hheld
      case discover p => exact ⟨p, hheld, .inl hthread⟩
      case poll p => exact ⟨p, hheld, .inr hthread⟩
      case stopped => exact absurd (h.stopped hthread) hclosing
      all_goals exact absurd hheld Bool.false_ne_true
    | user =>
      have hheld := h.user.mp hm
      cases huser : s.user <;> rw [huser] at hheld
      case logicReset p => exact ⟨p, hheld, huser⟩
      all_goals exact absurd hheld Bool.false_ne_true

/-- An open context is in a call of the user's or has a thread. -/
theorem JtagSession.Owned.isOpen (h : s.Owned) (hs : s.thread ≠ .none ∨ s.user ≠ .idle) : s.isOpen = true := by
  cases hopen : s.isOpen with
  | true => rfl
  | false =>
    obtain ⟨hthread, huser⟩ := h.closed hopen
    exact hs.elim (absurd hthread) (absurd huser)

/-- With the mutex unlocked no party is between its lock and its unlock. -/
theorem JtagSession.Owned.free (h : s.Owned) (hm : s.mutex = none) : s.thread.held = false ∧ s.user.held = false := by
  constructor
  · rw [← Bool.not_eq_true, ← h.thread, hm]
    exact nofun
  · rw [← Bool.not_eq_true, ← h.user, hm]
    exact nofun

/-- The owner of the mutex is the party that holds it. -/
theorem JtagSession.Owned.thread_owner (h : s.Owned) (hheld : s.thread.held = true) :
    s.mutex = some .thread ∧ s.user.held = false := by
  have hm := h.thread.mpr hheld
  refine ⟨hm, ?_⟩
  rw [← Bool.not_eq_true, ← h.user, hm]
  exact nofun

theorem JtagSession.Owned.user_owner (h : s.Owned) (hheld : s.user.held = true) :
    s.mutex = some .user ∧ s.thread.held = false := by
  have hm := h.user.mpr hheld
  refine ⟨hm, ?_⟩
  rw [← Bool.not_eq_true, ← h.thread, hm]
  exact nofun

/-- The thread goes on to a point at which the mutex is unlocked, or its own. -/
theorem JtagSession.Owned.thread_to (h : s.Owned) (hthread : s.thread ≠ .none) (t : ThreadPoint) (mutex : Option Party)
    (ht : t ≠ .stopped) (hmutex : mutex = some .thread ↔ t.held = true) (huser : s.user.held = false)
    (hother : mutex ≠ some .user) : { s with mutex := mutex, thread := t }.Owned := by
  refine ⟨hmutex, iff_of_false hother (Bool.not_eq_true _ ▸ huser), fun hclosed => ?_, fun hstopped => absurd hstopped ht,
    h.cancelled⟩
  exact absurd (hclosed.symm.trans (h.isOpen (.inl hthread))) Bool.false_ne_true

theorem JtagSession.Owned.user_to (h : s.Owned) (huser : s.user ≠ .idle) (u : UserPoint) (mutex : Option Party)
    (hclosing : s.user ≠ .closing) (hmutex : mutex = some .user ↔ u.held = true) (hthread : s.thread.held = false)
    (hother : mutex ≠ some .thread) : { s with mutex := mutex, user := u }.Owned := by
  refine ⟨iff_of_false hother (Bool.not_eq_true _ ▸ hthread), hmutex, fun hclosed => ?_,
    fun hstopped => absurd (h.stopped hstopped) hclosing, fun hcancelled => absurd (h.cancelled hcancelled) hclosing⟩
  exact absurd (hclosed.symm.trans (h.isOpen (.inr huser))) Bool.false_ne_true

theorem JtagSession.Owned.threadLocks (h : s.Owned) (hstep : s.threadLocks = some s') : s'.Owned := by
  unfold JtagSession.threadLocks at hstep
  split at hstep
  case h_1 hm hthread =>
    cases hstep
    exact h.thread_to (hthread ▸ nofun) (.discover .request) (some .thread) nofun (iff_of_true rfl rfl) (h.free hm).2 nofun
  case h_2 hm hthread =>
    cases hstep
    exact h.thread_to (hthread ▸ nofun) (.poll .request) (some .thread) nofun (iff_of_true rfl rfl) (h.free hm).2 nofun
  case h_3 => cases hstep

theorem JtagSession.Owned.userLocks (h : s.Owned) (hstep : s.userLocks = some s') : s'.Owned := by
  unfold JtagSession.userLocks at hstep
  split at hstep
  case h_1 hm huser =>
    cases hstep
    exact h.user_to (huser ▸ nofun) (.logicReset .request) (some .user) (huser ▸ nofun) (iff_of_true rfl rfl) (h.free hm).1
      nofun
  case h_2 => cases hstep

theorem JtagSession.Owned.discovered (h : s.Owned) (hthread : s.thread.held = true) {resp : Option (List Byte)}
    (hstep : s.discovered resp = some s') : s'.Owned := by
  have hnone : s.thread ≠ .none := by
    intro hnone
    rw [hnone] at hthread
    cases hthread
  have huser := (h.thread_owner hthread).2
  cases resp with
  | none =>
    cases hstep
    exact h.thread_to hnone .calc none nofun (iff_of_false nofun nofun) huser nofun
  | some resp =>
    obtain ⟨conf, -, hs'⟩ := Option.map_eq_some_iff.mp hstep
    cases hs'
    have hto := h.thread_to hnone .calc none nofun (iff_of_false nofun nofun) huser nofun
    exact ⟨hto.thread, hto.user, hto.closed, hto.stopped, hto.cancelled⟩

theorem JtagSession.Owned.threadMoves (h : s.Owned) {m : ScanMove} (hstep : s.threadMoves m = some s') : s'.Owned := by
  unfold JtagSession.threadMoves at hstep
  split at hstep
  case h_1 p hthread =>
    have hnone : s.thread ≠ .none := hthread ▸ nofun
    obtain ⟨-, hstep⟩ := Option.ite_none_left_eq_some.mp hstep
    obtain ⟨r, hmove, hstep⟩ := Option.bind_eq_some_iff.mp hstep
    have hheld : s.thread.held = true := by
      rw [hthread]
      exact ScanPoint.move_held hmove
    obtain ⟨hm, huser⟩ := h.thread_owner hheld
    cases r with
    | goesOn p' =>
      cases hstep
      exact h.thread_to hnone (.discover p') s.mutex nofun (iff_of_true hm (ScanPoint.goesOn_held hmove)) huser (hm ▸ nofun)
    | returned resp => exact h.discovered hheld hstep
  case h_2 p hthread =>
    have hnone : s.thread ≠ .none := hthread ▸ nofun
    obtain ⟨-, hstep⟩ := Option.ite_none_left_eq_some.mp hstep
    obtain ⟨r, hmove, hs'⟩ := Option.map_eq_some_iff.mp hstep
    have hheld : s.thread.held = true := by
      rw [hthread]
      exact ScanPoint.move_held hmove
    obtain ⟨hm, huser⟩ := h.thread_owner hheld
    cases r with
    | goesOn p' =>
      cases hs'
      exact h.thread_to hnone (.poll p') s.mutex nofun (iff_of_true hm (ScanPoint.goesOn_held hmove)) huser (hm ▸ nofun)
    | returned resp =>
      cases hs'
      cases resp with
      | none => exact h.thread_to hnone .ended none nofun (iff_of_false nofun nofun) huser nofun
      | some resp => exact h.thread_to hnone .calc none nofun (iff_of_false nofun nofun) huser nofun
  case h_3 => cases hstep

theorem JtagSession.Owned.userMoves (h : s.Owned) {m : ScanMove} (hstep : s.userMoves m = some s') : s'.Owned := by
  unfold JtagSession.userMoves at hstep
  split at hstep
  case h_1 p huser =>
    have hidle : s.user ≠ .idle := huser ▸ nofun
    have hclosing : s.user ≠ .closing := huser ▸ nofun
    obtain ⟨r, hmove, hs'⟩ := Option.map_eq_some_iff.mp hstep
    have hheld : s.user.held = true := by
      rw [huser]
      exact ScanPoint.move_held hmove
    obtain ⟨hm, hthread⟩ := h.user_owner hheld
    cases r with
    | goesOn p' =>
      cases hs'
      exact h.user_to hidle (.logicReset p') s.mutex hclosing (iff_of_true hm (ScanPoint.goesOn_held hmove)) hthread (hm ▸ nofun)
    | returned resp =>
      cases hs'
      exact h.user_to hidle .idle none hclosing (iff_of_false nofun nofun) hthread nofun
  case h_2 => cases hstep

/-- Stopped at a cancellation point, the thread keeps the mutex. -/
theorem JtagSession.Owned.stops (h : s.Owned) (hstep : s.stops = some s') : s'.Owned := by
  have hkeeps (p : ScanPoint) (hp : s.thread.held = p.held) (hthread : s.thread ≠ .none)
      (hs' : (if s.cancelled && p.cancellable then some { s with thread := .stopped } else none) = some s') : s'.Owned := by
    obtain ⟨hat, hs'⟩ := Option.ite_none_right_eq_some.mp hs'
    obtain ⟨hcancelled, hpoint⟩ := Bool.and_eq_true_iff.mp hat
    have hheld : p.held = true := by
      cases p with
      | write => rfl
      | read => rfl
      | lock => cases hpoint
      | request => cases hpoint
      | fields => cases hpoint
    cases hs'
    refine ⟨iff_of_true (h.thread.mpr (hp.trans hheld)) rfl, h.user, fun hclosed => ?_, fun _ => h.cancelled hcancelled,
      h.cancelled⟩
    exact absurd (hclosed.symm.trans (h.isOpen (.inl hthread))) Bool.false_ne_true
  unfold JtagSession.stops at hstep
  split at hstep
  case h_1 p hthread => exact hkeeps p (by rw [hthread]; rfl) (hthread ▸ nofun) hstep
  case h_2 p hthread => exact hkeeps p (by rw [hthread]; rfl) (hthread ▸ nofun) hstep
  case h_3 => cases hstep

theorem JtagSession.Owned.calcPayload (h : s.Owned) {builds : Bool} (hstep : s.calcPayload builds = some s') : s'.Owned := by
  obtain ⟨hthread, hs'⟩ := Option.ite_none_right_eq_some.mp hstep
  have hfree : s.mutex ≠ some .thread := h.not_thread (by rw [hthread]; rfl)
  cases hs'
  refine ⟨iff_of_false hfree ?_, h.user, fun hclosed => ?_, fun hstopped => ?_, h.cancelled⟩
  · split_ifs <;> nofun
  · exact absurd (hclosed.symm.trans (h.isOpen (.inl (hthread ▸ nofun)))) Bool.false_ne_true
  · split_ifs at hstopped

theorem JtagSession.Owned.gbOpen (h : s.Owned) {target : Option (Nat × Bool)} (hstep : s.gbOpen target = some s') :
    s'.Owned := by
  obtain ⟨hclosed, hs'⟩ := Option.ite_none_left_eq_some.mp hstep
  obtain ⟨hthread, huser⟩ := h.closed (Bool.not_eq_true _ ▸ hclosed)
  have hfree : s.mutex ≠ some .thread := h.not_thread (by rw [hthread]; rfl)
  cases target with
  | none =>
    cases hs'
    exact h
  | some target =>
    cases hs'
    refine ⟨iff_of_false hfree ?_, h.user, Bool.noConfusion, fun hstopped => ?_, h.cancelled⟩
    · split_ifs <;> nofun
    · split_ifs at hstopped

/-- The return of a close, after a thread that did not keep the mutex. -/
theorem JtagSession.Owned.closeReturns (h : s.Owned) (hended : s.thread = .ended) (hstep : s.closeReturns = some s') :
    s'.Owned := by
  obtain ⟨⟨huser, -⟩, hs'⟩ := Option.ite_none_right_eq_some.mp hstep
  have hfree : s.mutex ≠ some .thread := h.not_thread (by rw [hended]; rfl)
  have hother : s.mutex ≠ some .user := h.not_user (by rw [huser]; rfl)
  cases hs'
  exact ⟨iff_of_false hfree nofun, iff_of_false hother nofun, fun _ => ⟨rfl, rfl⟩, ThreadPoint.noConfusion,
    Bool.noConfusion⟩

theorem JtagSession.Owned.step (h : s.Owned) {i : JtagStep} (hi : s.EndedByItself i)
    (hstep : jtagSessions.step s i = some s') : s'.Owned := by
  obtain ⟨-, hstep⟩ := Option.ite_none_left_eq_some.mp hstep
  cases i with
  | gbOpen target => exact h.gbOpen hstep
  | getFifoWidth =>
    obtain ⟨-, hs'⟩ := Option.ite_none_right_eq_some.mp hstep
    cases hs'
    exact h
  | gbLogicReset =>
    obtain ⟨⟨hopen, huser⟩, hs'⟩ := Option.ite_none_right_eq_some.mp hstep
    have hidle : s.user.held = UserPoint.idle.held := congrArg _ huser
    have hrunning : s.user ≠ .closing := by
      rw [huser]
      exact UserPoint.noConfusion
    cases hs'
    exact ⟨h.thread, h.user.trans (by rw [hidle]; rfl), fun hclosed => absurd (hclosed.symm.trans hopen) Bool.false_ne_true,
      fun hstopped => absurd (h.stopped hstopped) hrunning, fun hcancelled => absurd (h.cancelled hcancelled) hrunning⟩
  | gbClose =>
    obtain ⟨⟨hopen, huser, -⟩, hs'⟩ := Option.ite_none_right_eq_some.mp hstep
    have hidle : s.user.held = UserPoint.idle.held := congrArg _ huser
    cases hs'
    exact ⟨h.thread, h.user.trans (by rw [hidle]; rfl), fun hclosed => absurd (hclosed.symm.trans hopen) Bool.false_ne_true,
      fun _ => rfl, fun _ => rfl⟩
  | closeReturns => exact h.closeReturns hi hstep
  | threadLocks => exact h.threadLocks hstep
  | userLocks => exact h.userLocks hstep
  | threadMoves m => exact h.threadMoves hstep
  | userMoves m => exact h.userMoves hstep
  | calcPayload builds => exact h.calcPayload hstep
  | threadStops => exact h.stops hstep

/-- The return of a close is the one step that can leave the mutex locked, and does after a thread that was stopped. -/
theorem JtagSession.Owned.sound_iff (h : s.Owned) {i : JtagStep} (hstep : jtagSessions.step s i = some s') :
    s'.MutexSound ↔ s.EndedByItself i := by
  constructor
  · intro hsound
    cases i with
    | closeReturns =>
      obtain ⟨-, hstep⟩ := Option.ite_none_left_eq_some.mp hstep
      obtain ⟨⟨-, hthread⟩, hs'⟩ := Option.ite_none_right_eq_some.mp hstep
      refine hthread.resolve_right fun hstopped => ?_
      have hm : s.mutex = some .thread := by
        rw [h.thread, hstopped]
        rfl
      cases hs'
      exact absurd (hm.symm.trans (hsound.unlocked rfl)) nofun
    | _ => trivial
  · intro hi
    exact (h.step hi hstep).sound

/-- The mutex has an owner that does not exist any more, and whoever asks for it waits. -/
structure JtagSession.Stuck (s : JtagSession) : Prop where
  mutex : s.mutex = some .thread
  thread : s.thread = .none ∨ s.thread = .discover .lock
  user : s.user.held = false

/-- No party gets the mutex, and none is at a point behind its lock. -/
theorem JtagSession.Stuck.threadLocks (h : s.Stuck) : s.threadLocks = none := by
  unfold JtagSession.threadLocks
  rw [h.mutex]

theorem JtagSession.Stuck.userLocks (h : s.Stuck) : s.userLocks = none := by
  unfold JtagSession.userLocks
  rw [h.mutex]

theorem JtagSession.Stuck.threadMoves (h : s.Stuck) (m : ScanMove) : s.threadMoves m = none := by
  refine Option.eq_none_iff_forall_ne_some.mpr fun s' hstep => ?_
  unfold JtagSession.threadMoves at hstep
  rcases h.thread with hthread | hthread <;> rw [hthread] at hstep
  · cases hstep
  · dsimp only at hstep
    obtain ⟨-, hstep⟩ := Option.ite_none_left_eq_some.mp hstep
    obtain ⟨r, hmove, -⟩ := Option.bind_eq_some_iff.mp hstep
    exact absurd (ScanPoint.move_held hmove) Bool.false_ne_true

theorem JtagSession.Stuck.userMoves (h : s.Stuck) (m : ScanMove) : s.userMoves m = none := by
  refine Option.eq_none_iff_forall_ne_some.mpr fun s' hstep => ?_
  unfold JtagSession.userMoves at hstep
  split at hstep
  case h_1 p hp =>
    obtain ⟨r, hmove, -⟩ := Option.map_eq_some_iff.mp hstep
    have huser := h.user
    rw [hp] at huser
    exact absurd (huser.symm.trans (ScanPoint.move_held hmove)) Bool.false_ne_true
  case h_2 => cases hstep

theorem JtagSession.Stuck.stops (h : s.Stuck) : s.stops = none := by
  refine Option.eq_none_iff_forall_ne_some.mpr fun s' hstep => ?_
  unfold JtagSession.stops at hstep
  rcases h.thread with hthread | hthread <;> rw [hthread] at hstep
  · cases hstep
  · dsimp only at hstep
    obtain ⟨hat, -⟩ := Option.ite_none_right_eq_some.mp hstep
    exact absurd (Bool.and_eq_true_iff.mp hat).2 Bool.false_ne_true

theorem JtagSession.Stuck.gbOpen (h : s.Stuck) {target : Option (Nat × Bool)} (hstep : s.gbOpen target = some s') :
    s'.Stuck := by
  obtain ⟨-, hs'⟩ := Option.ite_none_left_eq_some.mp hstep
  cases target with
  | none =>
    cases hs'
    exact h
  | some target =>
    cases hs'
    refine ⟨h.mutex, ?_, h.user⟩
    dsimp only
    split_ifs
    · exact .inr rfl
    · exact .inl rfl

theorem JtagSession.Stuck.step (h : s.Stuck) {i : JtagStep} (hstep : jtagSessions.step s i = some s') : s'.Stuck := by
  obtain ⟨-, hstep⟩ := Option.ite_none_left_eq_some.mp hstep
  cases i with
  | gbOpen target => exact h.gbOpen hstep
  | getFifoWidth =>
    obtain ⟨-, hs'⟩ := Option.ite_none_right_eq_some.mp hstep
    cases hs'
    exact h
  | gbLogicReset | gbClose =>
    obtain ⟨-, hs'⟩ := Option.ite_none_right_eq_some.mp hstep
    cases hs'
    exact ⟨h.mutex, h.thread, rfl⟩
  | closeReturns =>
    obtain ⟨⟨-, hended⟩, -⟩ := Option.ite_none_right_eq_some.mp hstep
    rcases h.thread with hthread | hthread <;> rw [hthread] at hended <;> exact hended.elim nofun nofun
  | threadLocks => exact absurd (h.threadLocks.symm.trans hstep) nofun
  | userLocks => exact absurd (h.userLocks.symm.trans hstep) nofun
  | threadMoves m => exact absurd ((h.threadMoves m).symm.trans hstep) nofun
  | userMoves m => exact absurd ((h.userMoves m).symm.trans hstep) nofun
  | calcPayload builds =>
    obtain ⟨hcalc, -⟩ := Option.ite_none_right_eq_some.mp hstep
    rcases h.thread with hthread | hthread <;> rw [hthread] at hcalc <;> cases hcalc
  | threadStops => exact absurd (h.stops.symm.trans hstep) nofun

/-- A mutex left locked stays locked in every later session: its discovery and its logic resets never begin. -/
theorem JtagSession.Stuck.run (h : s.Stuck) {steps : List JtagStep} (hrun : jtagSessions.run s steps = some s') : s'.Stuck :=
  Guarded.run_invariant (fun _ _ _ h hstep => h.step hstep) h hrun

end Steps

theorem newJtagSession_owned : newJtagSession.Owned :=
  ⟨iff_of_false nofun nofun, iff_of_false nofun nofun, fun _ => ⟨rfl, rfl⟩, ThreadPoint.noConfusion, Bool.noConfusion⟩

/-- In a run of sessions each close leaves the mutex unlocked exactly if each comes to a thread that ended by itself. -/
theorem access_mutex_iff (steps : List JtagStep) (hrun : (jtagSessions.run newJtagSession steps).isSome) :
    (∀ k s, jtagSessions.run newJtagSession (steps.take k) = some s → s.MutexSound) ↔
      jtagSessions.Each JtagSession.EndedByItself newJtagSession steps :=
  Guarded.each_iff (fun _ _ _ h hi hstep => h.step hi hstep) (fun _ _ _ h hstep => h.sound_iff hstep) newJtagSession_owned
    newJtagSession_owned.sound hrun

def scanSteps (resp : Option (List Byte)) : List JtagStep :=
  [.threadLocks, .threadMoves .send, .threadMoves (.written true), .threadMoves .received, .threadMoves (.over resp)]

def sixteenBits : List Byte := [0, 0, 16, 0, 3, 0]

def brokenScan : List JtagStep :=
  .gbOpen (some (2, true)) :: (scanSteps (some sixteenBits) ++ .calcPayload true :: scanSteps none) ++ [.gbClose, .closeReturns]

theorem access_mutex_broken_scan : (⟨2, none, .none, false, .idle, false, 2, some sixteenBits⟩ : JtagSession).MutexSound := by
  have hrun : jtagSessions.run newJtagSession (brokenScan.take 14) =
      some ⟨2, none, .none, false, .idle, false, 2, some sixteenBits⟩ := by rfl
  have hall : jtagSessions.Each JtagSession.EndedByItself newJtagSession brokenScan := by decide
  have hsome : (jtagSessions.run newJtagSession brokenScan).isSome := by rfl
  exact (access_mutex_iff brokenScan hsome).mpr hall 14 _ hrun

def closedInScan : List JtagStep :=
  [.gbOpen (some (2, true)), .threadLocks, .threadMoves .send, .gbClose, .threadStops, .closeReturns]

theorem access_mutex_left : ∃ s, jtagSessions.run newJtagSession closedInScan = some s ∧ s.isOpen = false ∧
    ¬ s.MutexSound ∧ ∀ steps s', jtagSessions.run s steps = some s' → s'.Stuck := by
  refine ⟨_, rfl, rfl, ?_, ?_⟩
  · intro h
    exact absurd (h.unlocked rfl) nofun
  · intro steps s' hrun
    exact JtagSession.Stuck.run ⟨rfl, .inl rfl, rfl⟩ hrun

end Glip.Jtag
