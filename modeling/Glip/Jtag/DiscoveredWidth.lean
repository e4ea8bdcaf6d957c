import Glip.Jtag.AccessMutex

/-! What `target_word_width` is when it is asked for, and when it is divided by. -/
namespace Glip.Jtag
open Foundation
variable {s s' : JtagSession}

/-- The width is asked for with `gb_jtag_get_fifo_width`, and `to_words` divides by it. -/
def JtagSession.WidthKnown (s : JtagSession) : JtagStep → Prop
  | .getFifoWidth | .calcPayload _ => s.targetWordWidth = s.connected ∧ s.targetWordWidth ≠ 0
  | _ => True

/-- A discovery has returned 0 on the context, and the last one that did brought the width of the connected target. -/
def JtagSession.Answered (s : JtagSession) : Prop := ∃ resp, s.lastAnswer = some resp ∧ uint16At resp 1 = 8 * s.connected

instance : Decidable s.Answered :=
  match h : s.lastAnswer with
  | none => isFalse fun ⟨_, hresp, _⟩ => absurd (h.symm.trans hresp) nofun
  | some resp =>
    decidable_of_iff (uint16At resp 1 = 8 * s.connected)
      ⟨fun heq => ⟨resp, h, heq⟩, fun ⟨_, hresp, heq⟩ => Option.some.inj (h.symm.trans hresp) ▸ heq⟩

def JtagSession.UsedAfterDiscovery (s : JtagSession) : JtagStep → Prop
  | .getFifoWidth | .calcPayload _ => s.Answered
  | _ => True

instance (s : JtagSession) : (i : JtagStep) → Decidable (s.UsedAfterDiscovery i)
  | .getFifoWidth | .calcPayload _ => inferInstanceAs (Decidable s.Answered)
  | .gbOpen _ | .gbLogicReset | .gbClose | .closeReturns | .threadLocks | .userLocks | .threadMoves _ | .userMoves _
  | .threadStops => instDecidableTrue

def JtagSession.Stored (s : JtagSession) : Prop :=
  match s.lastAnswer with
  | none => s.targetWordWidth = 0
  | some resp => uint16At resp 1 = 8 * s.targetWordWidth ∧ s.targetWordWidth ≠ 0

theorem discoverTargetconf_width {resp : List Byte} {conf : Nat × Nat} (h : discoverTargetconf resp = some conf) :
    uint16At resp 1 = 8 * conf.1 ∧ conf.1 ≠ 0 := by
  obtain ⟨⟨hne, hmod⟩, hconf⟩ := Option.ite_none_right_eq_some.mp h
  obtain ⟨size, -, hconf⟩ := Option.map_eq_some_iff.mp hconf
  cases hconf
  have hbytes : uint16At resp 1 = 8 * (uint16At resp 1 / 8) := (Nat.mul_div_cancel' (Nat.dvd_of_mod_eq_zero hmod)).symm
  refine ⟨hbytes, fun hzero => hne ?_⟩
  have hzero : uint16At resp 1 / 8 = 0 := hzero
  rw [hbytes, hzero]

/-- Only a discovery that returns 0 writes the width. -/
theorem JtagSession.Stored.threadMoves (h : s.Stored) {m : ScanMove} (hstep : s.threadMoves m = some s') : s'.Stored := by
  unfold JtagSession.threadMoves at hstep
  split at hstep
  case h_1 p hthread =>
    obtain ⟨-, hstep⟩ := Option.ite_none_left_eq_some.mp hstep
    obtain ⟨r, -, hstep⟩ := Option.bind_eq_some_iff.mp hstep
    cases r with
    | goesOn p' =>
      cases hstep
      exact h
    | returned resp =>
      cases resp with
      | none =>
        cases hstep
        exact h
      | some resp =>
        obtain ⟨conf, hconf, hs'⟩ := Option.map_eq_some_iff.mp hstep
        cases hs'
        exact discoverTargetconf_width hconf
  case h_2 p hthread =>
    obtain ⟨-, hstep⟩ := Option.ite_none_left_eq_some.mp hstep
    obtain ⟨r, -, hs'⟩ := Option.map_eq_some_iff.mp hstep
    cases r with
    | goesOn p' =>
      cases hs'
      exact h
    | returned resp =>
      cases hs'
      exact h
  case h_3 => cases hstep

theorem JtagSession.Stored.step (h : s.Stored) {i : JtagStep} (hstep : jtagSessions.step s i = some s') : s'.Stored := by
  obtain ⟨-, hstep⟩ := Option.ite_none_left_eq_some.mp hstep
  cases i with
  | threadMoves m => exact h.threadMoves hstep
  | gbOpen target =>
    obtain ⟨-, hs'⟩ := Option.ite_none_left_eq_some.mp hstep
    cases target <;> cases hs' <;> exact h
  | getFifoWidth | gbLogicReset | gbClose | closeReturns | calcPayload builds =>
    obtain ⟨-, hs'⟩ := Option.ite_none_right_eq_some.mp hstep
    cases hs'
    exact h
  | threadLocks =>
    have hlocks : s.threadLocks = some s' := hstep
    unfold JtagSession.threadLocks at hlocks
    split at hlocks <;> cases hlocks <;> exact h
  | userLocks =>
    have hlocks : s.userLocks = some s' := hstep
    unfold JtagSession.userLocks at hlocks
    split at hlocks
    · cases hlocks
      exact h
    · cases hlocks
  | userMoves m =>
    have hmoves : s.userMoves m = some s' := hstep
    unfold JtagSession.userMoves at hmoves
    split at hmoves
    case h_1 p hp =>
      obtain ⟨r, -, hs'⟩ := Option.map_eq_some_iff.mp hmoves
      cases r <;> cases hs' <;> exact h
    case h_2 => cases hmoves
  | threadStops =>
    have hstops : s.stops = some s' := hstep
    unfold JtagSession.stops at hstops
    split at hstops
    case h_3 => cases hstops
    all_goals
      obtain ⟨-, hs'⟩ := Option.ite_none_right_eq_some.mp hstops
      cases hs'
      exact h

theorem JtagSession.Stored.widthKnown_iff (h : s.Stored) (i : JtagStep) : s.WidthKnown i ↔ s.UsedAfterDiscovery i := by
  have hasked : s.targetWordWidth = s.connected ∧ s.targetWordWidth ≠ 0 ↔ s.Answered := by
    rw [Stored] at h
    constructor
    · rintro ⟨hwidth, hne⟩
      cases hlast : s.lastAnswer with
      | none =>
        rw [hlast] at h
        exact absurd h hne
      | some resp =>
        rw [hlast] at h
        exact ⟨resp, hlast, hwidth ▸ h.1⟩
    · rintro ⟨resp, hlast, hanswer⟩
      rw [hlast] at h
      refine ⟨?_, h.2⟩
      have heq : 8 * s.targetWordWidth = 8 * s.connected := h.1.symm.trans hanswer
      exact Nat.eq_of_mul_eq_mul_left (by decide) heq
  cases i with
  | getFifoWidth => exact hasked
  | calcPayload builds => exact hasked
  | _ => exact Iff.rfl

/-- In a run of sessions the width is known wherever it is used exactly if it is used after a discovery only. -/
theorem jtag_width_iff {steps : List JtagStep} (hrun : (jtagSessions.run newJtagSession steps).isSome) :
    jtagSessions.Each JtagSession.WidthKnown newJtagSession steps ↔
      jtagSessions.Each JtagSession.UsedAfterDiscovery newJtagSession steps := by
  have hnew : newJtagSession.Stored := rfl
  exact Guarded.each_congr (fun _ _ _ h hstep => h.step hstep) (fun _ i _ h _ => h.widthKnown_iff i) hnew hrun

end Glip.Jtag
