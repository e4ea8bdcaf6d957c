import Glip.Uart.SerialLine
import Mathlib.Data.Rat.Floor

/-! glip_uart_transmit.v, whose line carries one frame for each byte it accepts. -/
namespace Glip.Uart
open Foundation

structure Transmit where
  state : BitState
  divcounter : BitVec 32
  bitpos : BitVec 3
  deriving DecidableEq

structure TransmitIn where
  data : BitVec 8
  enable : Bool

namespace Transmit
open Transducer (signal)
variable (divisor : BitVec 32) (s : Transmit)

def nextedge : Bool := s.divcounter = 0

def tx (data : BitVec 8) : Bool :=
  match s.state with
  | .idle => true
  | .start => false
  | .bits => data.getLsbD s.bitpos.toNat
  | .stop => true

def done : Bool := s.state = .stop && s.nextedge

def nxtState (enable : Bool) : BitState :=
  match s.state with
  | .idle => if enable then .start else .idle
  | .start => if s.nextedge then .bits else .start
  | .bits => if s.nextedge ∧ s.bitpos = 7 then .stop else .bits
  | .stop => if s.nextedge then .idle else .stop

def nxtDivcounter (enable : Bool) : BitVec 32 :=
  if s.state = .idle ∧ enable then divisor - 1 else countDown divisor s.divcounter

def nxtBitpos : BitVec 3 :=
  match s.state with
  | .start => if s.nextedge then 0 else s.bitpos
  | .bits => if s.nextedge then s.bitpos + 1 else s.bitpos
  | _ => s.bitpos

def next (rst enable : Bool) : Transmit where
  state := if rst then .idle else s.nxtState enable
  divcounter := s.nxtDivcounter divisor enable
  bitpos := s.nxtBitpos

/-- The cycles away from reset; a byte is accepted where `enable` meets the idle state. -/
def machine : Transducer Transmit TransmitIn (BitVec 8) where
  next s i := s.next divisor false i.enable
  emit s i := if s.state = .idle ∧ i.enable then [i.data] else []

def stateAt (inp : Nat → TransmitIn) (n : Nat) : Transmit := (machine divisor).after s (signal inp 0 n)

/-- The line as the receiver samples it: high at the edge that ends the reset, and then the `tx` of each cycle. -/
def wire (inp : Nat → TransmitIn) : Nat → Bool
  | 0 => true
  | n + 1 => (s.stateAt divisor inp n).tx (inp (n + 1)).data

def Held (inp : Nat → TransmitIn) : Prop :=
  ∀ m n, (s.stateAt divisor inp m).state = .idle → (inp (m + 1)).enable → m ≤ n →
    (∀ i, m ≤ i → i < n → (s.stateAt divisor inp i).done = false) → (inp (n + 1)).data = (inp (m + 1)).data

/-! ### The ten bits of a frame -/

def on (bitpos : BitVec 3) (k count : Nat) : Transmit where
  state := if k = 0 then .start else if k ≤ 8 then .bits else .stop
  divcounter := BitVec.ofNat 32 count
  bitpos := if k = 0 then bitpos else BitVec.ofNat 3 (k - 1)

variable {D : BitVec 32} {s : Transmit} {u : Nat → TransmitIn} {p : BitVec 3} {a k : Nat}

theorem tx_on (hk : k ≤ 9) (c : Nat) (data : BitVec 8) : (on p k c).tx data = frameBit data k := by
  rw [tx, on, frameBit]
  rcases Nat.eq_zero_or_pos k with rfl | hpos
  · rfl
  · rcases Nat.lt_or_ge k 9 with hlt | hge
    · simp [Nat.ne_of_gt hpos, show k ≤ 8 by omega, show (k - 1) % 8 = k - 1 by omega]
    · simp [Nat.ne_of_gt hpos, show ¬ k ≤ 8 by omega]

theorem next_on_of_pos {c : Nat} (hcount : c + 1 < 2 ^ 32) (i : TransmitIn) :
    (machine D).next (on p k (c + 1)) i = on p k c ∧
      (machine D).emit (on p k (c + 1)) i = [] := by
  have hdown := countDown_succ (D := D) hcount
  have hedge : ¬ BitVec.ofNat 32 (c + 1) = 0#32 := by
    rw [ofNat_eq_iff hcount]
    exact Nat.succ_ne_zero c
  unfold on
  by_cases hzero : k = 0
  · simp [machine, next, nxtState, nxtDivcounter, nxtBitpos, nextedge, hedge, hdown, hzero]
  · by_cases height : k ≤ 8
    · simp [machine, next, nxtState, nxtDivcounter, nxtBitpos, nextedge, hedge, hdown, hzero, height]
    · simp [machine, next, nxtState, nxtDivcounter, nxtBitpos, nextedge, hedge, hdown, hzero, height]

theorem next_on_zero (hdiv : 0 < D.toNat) (hk : k ≤ 8) (i : TransmitIn) :
    (machine D).next (on p k 0) i = on p (k + 1) (D.toNat - 1) ∧
      (machine D).emit (on p k 0) i = [] := by
  have hwrap := countDown_zero hdiv
  unfold on
  by_cases hzero : k = 0
  · simp [machine, next, nxtState, nxtDivcounter, nxtBitpos, nextedge, ← hwrap, hzero]
  · rcases Nat.eq_or_lt_of_le hk with rfl | hlt
    · simp [machine, next, nxtState, nxtDivcounter, nxtBitpos, nextedge, ← hwrap]
    · have hlast : ¬ BitVec.ofNat 3 (k - 1) = 7#3 := by
        rw [← BitVec.toNat_inj, BitVec.toNat_ofNat]
        simp
        omega
      have hbit : BitVec.ofNat 3 (k - 1) + 1#3 = BitVec.ofNat 3 k := by
        rw [← BitVec.ofNat_add, Nat.sub_add_cancel (Nat.pos_of_ne_zero hzero)]
      have hin : k + 1 ≤ 8 := hlt
      simpa [machine, next, nxtState, nxtDivcounter, nxtBitpos, nextedge, ← hwrap, hzero, hk, hlast, hlt] using
        And.intro hin hbit

/-- `j` cycles into a bit. -/
theorem within {j : Nat} (hj : j < D.toNat) :
    (machine D).Goes u a (on p k (D.toNat - 1)) (a + j) (on p k (D.toNat - 1 - j))
      [] := by
  have hlt := D.isLt
  induction j with
  | zero => exact Transducer.Goes.refl ..
  | succ j ih =>
    have hstep := Transducer.Goes.step (machine D) u (a + j) (on p k (D.toNat - 1 - (j + 1) + 1))
    obtain ⟨hnext, hemit⟩ := next_on_of_pos (D := D) (p := p) (k := k)
      (c := D.toNat - 1 - (j + 1)) (by omega) (u (a + j + 1))
    rw [hnext, hemit, show D.toNat - 1 - (j + 1) + 1 = D.toNat - 1 - j by omega] at hstep
    exact (ih (by omega)).trans hstep

/-- The bits of a frame follow each other every `D` cycles. -/
theorem reaches_bit (hdiv : 0 < D.toNat) (hk : k ≤ 9) :
    (machine D).Goes u a (on p 0 (D.toNat - 1)) (a + k * D.toNat)
      (on p k (D.toNat - 1)) [] := by
  induction k with
  | zero =>
    rw [Nat.zero_mul]
    exact Transducer.Goes.refl ..
  | succ k ih =>
    have hlast := within (u := u) (a := a + k * D.toNat) (k := k) (p := p)
      (show D.toNat - 1 < D.toNat by omega)
    rw [Nat.sub_self] at hlast
    have hstep := Transducer.Goes.step (machine D) u (a + k * D.toNat + (D.toNat - 1))
      (on p k 0)
    obtain ⟨hnext, hemit⟩ := next_on_zero (p := p) hdiv (show k ≤ 8 by omega)
      (u (a + k * D.toNat + (D.toNat - 1) + 1))
    rw [hnext, hemit, show a + k * D.toNat + (D.toNat - 1) + 1 = a + (k + 1) * D.toNat by
      rw [Nat.add_mul]
      omega] at hstep
    exact (ih (by omega)).trans (hlast.trans hstep)

/-- A frame lasts ten bits, and the cycle behind it is idle again. -/
theorem reaches_idle (hdiv : 0 < D.toNat) :
    ∃ t : Transmit, t.state = .idle ∧
      (machine D).Goes u a (on p 0 (D.toNat - 1)) (a + 10 * D.toNat) t [] := by
  have hstop := (reaches_bit (u := u) (a := a) (p := p) hdiv (le_refl 9)).trans
    (within (show D.toNat - 1 < D.toNat by omega))
  rw [Nat.sub_self] at hstop
  have hstep := Transducer.Goes.step (machine D) u (a + 9 * D.toNat + (D.toNat - 1))
    (on p 9 0)
  rw [show a + 9 * D.toNat + (D.toNat - 1) + 1 = a + 10 * D.toNat by omega] at hstep
  exact ⟨_, rfl, hstop.trans hstep⟩

theorem stateAt_of_goes {b : Nat} {t : Transmit} {es : List (BitVec 8)}
    (h : (machine D).Goes u a (s.stateAt D u a) b t es) : s.stateAt D u b = t := by
  have hsplit := Transducer.signal_add u 0 a (b - a)
  rw [Nat.zero_add, Nat.add_sub_cancel' h.le] at hsplit
  rw [stateAt, hsplit, Transducer.after_append]
  exact h.after

/-- Where an idle machine sees `enable`, it accepts the byte and begins the frame. -/
theorem accept (hdiv : 0 < D.toNat) (hidle : (s.stateAt D u a).state = .idle)
    (henable : (u (a + 1)).enable) :
    (machine D).Goes u a (s.stateAt D u a) (a + 1)
      (on (s.stateAt D u a).bitpos 0 (D.toNat - 1)) [(u (a + 1)).data] := by
  have hstep := Transducer.Goes.step (machine D) u a (s.stateAt D u a)
  have hpred := ofNat_pred hdiv
  rw [show (machine D).next (s.stateAt D u a) (u (a + 1)) =
      on (s.stateAt D u a).bitpos 0 (D.toNat - 1) by
    simp [machine, next, on, nxtState, nxtDivcounter, nxtBitpos, hidle, henable, hpred],
    show (machine D).emit (s.stateAt D u a) (u (a + 1)) = [(u (a + 1)).data] by
    simp [machine, hidle, henable]] at hstep
  exact hstep

theorem stateAt_in_frame (hdiv : 0 < D.toNat) (hidle : (s.stateAt D u a).state = .idle)
    (henable : (u (a + 1)).enable) {m : Nat} (hm : m < 10 * D.toNat) :
    s.stateAt D u (a + 1 + m) =
      on (s.stateAt D u a).bitpos (m / D.toNat) (D.toNat - 1 - m % D.toNat) := by
  have hbit := (accept hdiv hidle henable).trans (reaches_bit hdiv (k := m / D.toNat)
    (Nat.le_of_lt_succ (Nat.div_lt_of_lt_mul (by omega))))
  have hgoes := hbit.trans (within (Nat.mod_lt m hdiv))
  rw [Nat.add_assoc, Nat.div_add_mod'] at hgoes
  exact stateAt_of_goes hgoes

/-- In the frame of a byte no cycle before the last one has `done`. -/
theorem done_in_frame (hdiv : 0 < D.toNat) (hidle : (s.stateAt D u a).state = .idle)
    (henable : (u (a + 1)).enable) {n : Nat} (hge : a ≤ n) (hlt : n < a + 10 * D.toNat) :
    (s.stateAt D u n).done = false := by
  rcases Nat.eq_or_lt_of_le hge with rfl | hin
  · simp [done, hidle]
  · obtain ⟨m, rfl⟩ := Nat.exists_eq_add_of_le (Nat.succ_le_of_lt hin)
    rw [stateAt_in_frame hdiv hidle henable (by omega)]
    rcases Nat.lt_or_ge m (9 * D.toNat) with hbit | hstop
    · have : m / D.toNat ≤ 8 := Nat.le_of_lt_succ (Nat.div_lt_of_lt_mul (by omega))
      simp only [done, on]
      split <;> simp
    · have hcount : ¬ BitVec.ofNat 32 (D.toNat - 1 - m % D.toNat) = 0#32 := by
        have := D.isLt
        rw [ofNat_eq_iff (by omega), BitVec.toNat_zero]
        have := Nat.mod_add_div m D.toNat
        have := Nat.mul_le_mul_left D.toNat ((Nat.le_div_iff_mul_le hdiv).mpr hstop)
        omega
      simp [done, nextedge, on, hcount]

/-- The line carries the held byte bit by bit. -/
theorem wire_in_frame (hdiv : 0 < D.toNat) (hheld : s.Held D u)
    (hidle : (s.stateAt D u a).state = .idle) (henable : (u (a + 1)).enable) {m : Nat}
    (hm : m < 10 * D.toNat) :
    s.wire D u (a + 2 + m) = frameBit (u (a + 1)).data (m / D.toNat) := by
  have hdata : (u (a + 1 + m + 1)).data = (u (a + 1)).data := by
    refine hheld a (a + 1 + m) hidle henable (by omega) fun i hge hlt => ?_
    exact done_in_frame hdiv hidle henable hge (by omega)
  rw [show a + 2 + m = a + 1 + m + 1 by omega, wire, stateAt_in_frame hdiv hidle henable hm, hdata]
  exact tx_on (Nat.le_of_lt_succ (Nat.div_lt_of_lt_mul (by omega))) _ _

theorem sends_frame (hdiv : 0 < D.toNat) (hheld : s.Held D u)
    (hidle : (s.stateAt D u a).state = .idle) (henable : (u (a + 1)).enable) {k n : Nat} (hk : k ≤ 9)
    (hge : ((a + 2 : Nat) : ℚ) + k * (D.toNat : ℚ) ≤ n)
    (hlt : (n : ℚ) < ((a + 2 : Nat) : ℚ) + (k + 1) * (D.toNat : ℚ)) :
    s.wire D u n = frameBit (u (a + 1)).data k := by
  have hge : a + 2 + k * D.toNat ≤ n := by exact_mod_cast hge
  have hlt : n < a + 2 + (k + 1) * D.toNat := by exact_mod_cast hlt
  obtain ⟨m, rfl⟩ := Nat.exists_eq_add_of_le (Nat.le_trans (Nat.le_add_right (a + 2) _) hge)
  have hm : m < 10 * D.toNat := by nlinarith
  rw [wire_in_frame hdiv hheld hidle henable hm]
  congr 1
  exact Nat.div_eq_of_lt_le (by omega) (by omega)

variable (D) (s) (u) in
/-- From the idle cycle `a` on the line carries `frames`, which are the bytes accepted before cycle `N`; a frame
that has not ended by then leaves the machine busy. -/
structure Carries (N a : Nat) (frames : List (Frame ℚ)) : Prop where
  sends : Sends (D.toNat : ℚ) (s.wire D u) N (a + 1) frames
  accepted : frames.map Frame.data = (machine D).emitted (s.stateAt D u a) (signal u a (N - a))
  ended : (s.stateAt D u N).state = .idle → ∀ g ∈ frames,
    g.start + 10 * (D.toNat : ℚ) - ((D.toNat / 2 : Nat) : ℚ) + 1 ≤ N

theorem carries_none {N : Nat} (h : N ≤ a) : s.Carries D u N a [] where
  sends := by
    intro n hn hN
    have : a + 1 ≤ n := by exact_mod_cast hn
    omega
  accepted := by
    rw [Nat.sub_eq_zero_of_le h]
    rfl
  ended := by simp

theorem carries_idle {N : Nat} (h : a < N) (hidle : (s.stateAt D u a).state = .idle)
    (hdisable : ¬ (u (a + 1)).enable) {frames : List (Frame ℚ)} (hrest : s.Carries D u N (a + 1) frames) :
    s.Carries D u N a frames where
  sends := by
    have hnext := hrest.sends
    push_cast at hnext
    refine hnext.earlier (by linarith) fun n hge hlt => ?_
    have hge : a + 1 ≤ n := by exact_mod_cast hge
    have hlt : n < a + 1 + 1 := by exact_mod_cast hlt
    obtain rfl : n = a + 1 := by omega
    rw [wire, tx, hidle]
  accepted := by
    have hgoes := Transducer.Goes.step (machine D) u a (s.stateAt D u a)
    rw [hrest.accepted, stateAt_of_goes hgoes, hgoes.emitted_to h]
    simp [machine, hdisable]
  ended := hrest.ended

theorem carries_frame (hdiv : 4 ≤ D.toNat) (hheld : s.Held D u) {N : Nat} (h : a < N)
    (hidle : (s.stateAt D u a).state = .idle) (henable : (u (a + 1)).enable) {frames : List (Frame ℚ)}
    (hrest : s.Carries D u N (a + 1 + 10 * D.toNat) frames) :
    s.Carries D u N a (⟨(a + 2 : Nat), (u (a + 1)).data⟩ :: frames) := by
  have hD : 0 < D.toNat := by omega
  have haccept := accept hD hidle henable
  obtain ⟨t, ht, hbits⟩ := reaches_idle (u := u) (a := a + 1) (p := (s.stateAt D u a).bitpos) hD
  have hgoes := haccept.trans hbits
  rw [← stateAt_of_goes hgoes] at hgoes
  refine ⟨⟨?_, ?_, ?_, ?_⟩, ?_, ?_⟩
  · push_cast
    linarith
  · intro n hge hlt
    have hge : a + 1 ≤ n := by exact_mod_cast hge
    have hlt : n < a + 2 := Nat.cast_lt.mp hlt
    obtain rfl : n = a + 1 := by omega
    rw [wire, tx, hidle]
  · intro k n hk hge hlt
    exact sends_frame hD hheld hidle henable hk hge hlt
  · have hnext := hrest.sends
    push_cast at hnext ⊢
    rwa [show (a : ℚ) + 2 + 10 * (D.toNat : ℚ) = a + 1 + 10 * (D.toNat : ℚ) + 1 by ring]
  · rcases Nat.lt_or_ge N (a + 1 + 10 * D.toNat) with hcut | hN
    · have hnone := hrest.accepted
      rw [Nat.sub_eq_zero_of_le (Nat.le_of_lt hcut)] at hnone
      have hquiet := List.prefix_nil.mp (hbits.emitted_prefix (n := N - (a + 1)) (by omega))
      rw [haccept.emitted_to h, hquiet, List.map_cons, hnone]
      rfl
    · rw [hgoes.emitted_to hN, List.map_cons, hrest.accepted]
      rfl
  · intro hN g hg
    rcases Nat.lt_or_ge N (a + 1 + 10 * D.toNat) with hcut | hlate
    · obtain ⟨m, rfl⟩ := Nat.exists_eq_add_of_le (Nat.succ_le_of_lt h)
      rw [stateAt_in_frame hD hidle henable (by omega), on] at hN
      split at hN <;> simp at hN
      split at hN <;> simp at hN
    · rcases List.mem_cons.mp hg with rfl | hg
      · have hlate : ((a + 1 + 10 * D.toNat : Nat) : ℚ) ≤ N := Nat.cast_le.mpr hlate
        have hhalf : ((2 : Nat) : ℚ) ≤ ((D.toNat / 2 : Nat) : ℚ) := Nat.cast_le.mpr (by omega)
        push_cast at hlate hhalf ⊢
        linarith
      · exact hrest.ended hN g hg

/-- The line carries the bytes the machine accepts. -/
theorem carries (hdiv : 4 ≤ D.toNat) (hheld : s.Held D u) (N : Nat)
    (hidle : (s.stateAt D u a).state = .idle) : ∃ frames, s.Carries D u N a frames := by
  induction hk : N - a using Nat.strong_induction_on generalizing a with
  | _ k ih =>
    subst hk
    rcases Nat.lt_or_ge a N with hlt | hge
    case inr => exact ⟨[], carries_none hge⟩
    by_cases henable : (u (a + 1)).enable
    · have hD : 0 < D.toNat := by omega
      obtain ⟨t, ht, hbits⟩ := reaches_idle (u := u) (a := a + 1) (p := (s.stateAt D u a).bitpos) hD
      have hstate := stateAt_of_goes ((accept hD hidle henable).trans hbits)
      obtain ⟨frames, hframes⟩ := ih (N - (a + 1 + 10 * D.toNat)) (by omega) (hstate ▸ ht) rfl
      exact ⟨_, carries_frame hdiv hheld hlt hidle henable hframes⟩
    · have hstate := stateAt_of_goes (Transducer.Goes.step (machine D) u a (s.stateAt D u a))
      have hnext : (s.stateAt D u (a + 1)).state = .idle := by
        rw [hstate]
        simp [machine, next, nxtState, hidle, henable]
      obtain ⟨frames, hframes⟩ := ih (N - (a + 1)) (by omega) hnext rfl
      exact ⟨frames, carries_idle hlt hidle henable hframes⟩

end Transmit
end Glip.Uart
