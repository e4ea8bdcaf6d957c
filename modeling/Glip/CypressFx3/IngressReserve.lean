import Glip.CypressFx3.Toplevel

/-! The words that are still on their way when `prog_full` goes up find room in the
ingress FIFO. -/
namespace Glip.CypressFx3
open Fifo
variable {aw : Nat} {α : Type}

/-- The read strobes `a`, `b`, `v` that have been given are covered by the words that
the write side of the FIFO still takes. -/
def FsmState.Covers (st : FsmState) (a b v : Bool) (room : Nat) : Prop :=
  match st with
  | .flgCRcvd | .waitFlgD | .swRead => (a = false ∧ b = false ∧ v = false) ∧ PROG_FULL + 1 ≤ room
  | .read | .readDrain1 => a.toNat + b.toNat + v.toNat + 1 ≤ room
  | .readDrain2 => a.toNat + b.toNat + v.toNat ≤ room
  | .readDrain3 => a = false ∧ b.toNat + v.toNat ≤ room
  | .readDrain4 => (a = false ∧ b = false) ∧ v.toNat ≤ room
  | _ => a = false ∧ b = false ∧ v = false

theorem FsmState.Covers.room_pos {st : FsmState} {a b : Bool} {room : Nat} (h : st.Covers a b true room) :
    0 < room := by
  cases st
  case read | readDrain1 | readDrain2 | readDrain3 | readDrain4 =>
    simp only [Covers, Bool.toNat_true] at h
    omega
  all_goals simp [Covers] at h

/-- A cycle: the state machine gives a strobe only while there is room for it, `prog_full`
low being worth one word more than its reserve. -/
theorem Fsm.covers_next {s : Fsm} {a b v : Bool} {room room' : Nat} (h : s.state.Covers a b v room)
    (f : Flags) (almostFull outEmpty : Bool) (hfull : almostFull = false → PROG_FULL + 1 ≤ room)
    (hroom : room ≤ room' + v.toNat) :
    (s.wires f almostFull outEmpty).nxtState.Covers (s.wires f almostFull outEmpty).rd a b room' := by
  have ha := a.toNat_le
  have hb := b.toNat_le
  have hv := v.toNat_le
  obtain ⟨st, idle, flush, count⟩ := s
  unfold PROG_FULL at hfull
  cases st
  case read =>
    simp only [FsmState.Covers] at h
    cases hf : almostFull with
    | true =>
      simp only [Fsm.wires, FsmState.Covers, if_true, Bool.toNat_true]
      omega
    | false =>
      have := hfull hf
      cases hd : f.outAlmostEmpty <;>
        simp only [Fsm.wires, Fsm.defaults, FsmState.Covers, hd, Bool.false_eq_true, if_true, if_false, Bool.toNat_true] <;>
        omega
  case idle =>
    obtain ⟨rfl, rfl, rfl⟩ := h
    simp only [Fsm.wires]
    split_ifs with hegress hflush hgo
    · exact ⟨rfl, rfl, rfl⟩
    · exact ⟨rfl, rfl, rfl⟩
    · have := hfull (by simpa using (Bool.and_eq_true_iff.mp hgo).2)
      exact ⟨⟨rfl, rfl, rfl⟩, Nat.le_trans this hroom⟩
    · exact ⟨rfl, rfl, rfl⟩
  case flgCRcvd =>
    obtain ⟨⟨rfl, rfl, rfl⟩, hle⟩ := h
    exact ⟨⟨rfl, rfl, rfl⟩, Nat.le_trans hle hroom⟩
  case waitFlgD =>
    obtain ⟨⟨rfl, rfl, rfl⟩, hle⟩ := h
    have hle' := Nat.le_trans hle hroom
    unfold PROG_FULL at hle'
    simp only [Fsm.wires]
    split_ifs
    · simp only [FsmState.Covers, Bool.toNat_false, Fsm.defaults]
      omega
    · exact ⟨⟨rfl, rfl, rfl⟩, hle'⟩
    · exact ⟨⟨rfl, rfl, rfl⟩, hle'⟩
  case swRead =>
    obtain ⟨⟨rfl, rfl, rfl⟩, hle⟩ := h
    have hle' := Nat.le_trans hle hroom
    unfold PROG_FULL at hle'
    simp only [Fsm.wires, FsmState.Covers, Bool.toNat_true, Bool.toNat_false]
    omega
  case readDrain1 =>
    simp only [Fsm.wires, FsmState.Covers, Bool.toNat_true] at h ⊢
    omega
  case readDrain2 =>
    refine ⟨rfl, ?_⟩
    simp only [FsmState.Covers] at h
    omega
  case readDrain3 =>
    obtain ⟨rfl, hle⟩ := h
    exact ⟨⟨rfl, rfl⟩, by omega⟩
  case readDrain4 =>
    obtain ⟨⟨rfl, rfl⟩, -⟩ := h
    exact ⟨rfl, rfl, rfl⟩
  case delayWr | flgARcvd | swWrite =>
    obtain ⟨rfl, rfl, rfl⟩ := h
    exact ⟨rfl, rfl, rfl⟩
  all_goals
    obtain ⟨rfl, rfl, rfl⟩ := h
    simp only [Fsm.wires]
    split_ifs <;> exact ⟨rfl, rfl, rfl⟩

namespace Toplevel
variable [OfNat α 0]

/-- The room is counted with the read pointer that `full` was computed with, which
`prog_full` has not been higher than. -/
structure Inv (s : Toplevel aw α) : Prop where
  fifo : ∃ words wm rm room, s.ingress.At words wm rm ∧ wm.wrote + 1 + room = wm.used + 2 ^ aw ∧
    s.fsm.state.Covers s.rdDelay0 s.rdDelay1 s.intFifoInValid room ∧
    (s.intFifoInAlmostFull = false → PROG_FULL + 1 ≤ room)

theorem IsReset.inv {s : Toplevel aw α} (h : s.IsReset) (haw : 3 ≤ aw) : s.Inv := by
  have hdepth : 2 ^ 3 ≤ 2 ^ aw := Nat.pow_le_pow_right Nat.two_pos haw
  refine ⟨[], _, _, 2 ^ aw - 1, h.ingress.at (by omega), ?_, ?_, fun _ => ?_⟩
  · dsimp only
    omega
  · rw [h.fsm, h.rdDelay0, h.rdDelay1, h.intFifoInValid]
    exact ⟨rfl, rfl, rfl⟩
  · unfold PROG_FULL
    omega

theorem Inv.next {s : Toplevel aw α} (h : s.Inv) {io : Option (IoEdge aw α)} {clk : Option (ClkEdge aw α)}
    (hs : s.ingress.Sampled PROG_FULL (io.map s.ingressWrite) (clk.map ClkEdge.ingressRead))
    (hio : ∀ i ∈ io, i.intRst = false) (hclk : ∀ c ∈ clk, c.intRst = false) : (s.next io clk).Inv := by
  obtain ⟨words, wm, rm, room, hat, hroom, hcovers, hfull⟩ := h
  have hrd : ∀ r ∈ clk.map ClkEdge.ingressRead, r.rdRst = false := by
    intro r hr
    obtain ⟨c, hc, rfl⟩ := Option.mem_map.mp hr
    exact hclk c hc
  cases io with
  | none =>
    obtain ⟨wm', rm', hat', -, hused, -⟩ := hat.next hs nofun hrd
    have hwrote : wm'.wrote = wm.wrote := hat'.wrote.trans (by simp [DualClock.accepts, hat.wrote])
    refine ⟨_, wm', rm', room, hat', ?_, hcovers, hfull⟩
    rw [hwrote, hused]
    exact hroom
  | some i =>
    have hrst := hio i rfl
    obtain ⟨wm', rm', hat', -, hused, -⟩ := hat.next hs (by simpa [ingressWrite] using hrst) hrd
    have hlen : (s.ingress.accepts (some (s.ingressWrite i))).length ≤ s.intFifoInValid.toNat := by
      rw [DualClock.length_accepts]
      cases hv : s.intFifoInValid <;> simp [ingressWrite, ingressWrEn, hv, Bool.toNat_le]
    have hwrote : wm'.wrote = wm.wrote + (s.ingress.accepts (some (s.ingressWrite i))).length := by
      rw [hat'.wrote, hat.wrote, List.length_append]
      rfl
    have hspace := hat'.wr.room
    have hseenR := hat.wr.used_le
    rw [Option.map_some, Option.isSome_some, if_pos rfl] at hused
    obtain ⟨room', hroom'⟩ : ∃ room', wm'.wrote + 1 + room' = wm'.used + 2 ^ aw :=
      ⟨wm'.used + 2 ^ aw - (wm'.wrote + 1), by omega⟩
    refine ⟨_, wm', rm', room', hat', hroom', ?_, fun hp => ?_⟩
    · have hnext : (s.wires i.flags).nxtState.Covers (s.wires i.flags).rd s.rdDelay0 s.rdDelay1 room' :=
        Fsm.covers_next hcovers i.flags s.intFifoInAlmostFull s.egress.empty hfull (by omega)
      simpa [Toplevel.next, hrst] using hnext
    · have := hat.next_progFull hs hrst hrd hp
      unfold PROG_FULL at this ⊢
      omega

omit [OfNat α 0] in
theorem Inv.not_full {s : Toplevel aw α} (h : s.Inv) (f : Flags) (hwr : s.ingressWrEn f = true) :
    s.ingress.full = false := by
  obtain ⟨words, wm, rm, room, hat, hroom, hcovers, -⟩ := h
  rw [(Bool.and_eq_true_iff.mp hwr).1] at hcovers
  have := hcovers.room_pos
  exact Bool.eq_false_iff.mpr (mt hat.wr.full.mp (by omega))

end Toplevel

/-- In every run from reset on, whatever the FX3 and the user logic do, a word that the
read pipeline hands to `u_ingress_cdc` finds it not full. -/
theorem ingress_wr_en_not_full (haw : 3 ≤ aw) [OfNat α 0] (s₀ : Toplevel aw α) (hreset : s₀.IsReset)
    (es : List (Option (IoEdge aw α) × Option (ClkEdge aw α))) (hrun : s₀.Run es) (f : Flags)
    (hwr : (s₀.after es).ingressWrEn f = true) : (s₀.after es).ingress.full = false := by
  have hinv : (s₀.after es).Inv := by
    have h := hreset.inv haw
    clear hreset hwr
    induction es generalizing s₀ with
    | nil => exact h
    | cons e es ih =>
      obtain ⟨hs, -, hio, hclk, hrun⟩ := hrun
      exact ih _ hrun (h.next hs hio hclk)
  exact hinv.not_full f hwr

/-- The first word of a read, eight cycles after reset. -/
theorem ingress_wr_en_not_full_first :
    let cdc : DualClock 3 Nat := ⟨⟨0, 0, 0, 0, false, []⟩, ⟨0, 0, 0, 0, true, 0⟩, fun _ => 0, .reset 0⟩
    let s₀ : Toplevel 3 Nat := ⟨.reset, false, false, false, cdc, cdc⟩
    let f : Flags := ⟨false, false, true, true⟩
    let es := List.replicate 8 (some (IoEdge.mk false f 5 0 0), none)
    (s₀.after es).ingressWrEn f = true ∧ (s₀.after es).ingress.full = false := by
  intro cdc s₀ f es
  have hcdc : cdc.IsReset := by constructor <;> rfl
  have hreset : s₀.IsReset := ⟨rfl, rfl, rfl, rfl, hcdc, hcdc⟩
  have hwr : (s₀.after es).ingressWrEn f = true := by decide
  exact ⟨hwr, ingress_wr_en_not_full (Nat.le_refl 3) s₀ hreset es (by decide) f hwr⟩

end Glip.CypressFx3
