import Glip.Foundation.Transducer
import Mathlib.Data.BitVec
import Mathlib.Tactic.Ring

/-! glip_uart_receive.v, which samples the line once in the middle of each bit. -/
namespace Glip.Uart
open Foundation

inductive BitState where
  | idle
  | start
  | bits
  | stop
  deriving DecidableEq

/-- The registers of `glip_uart_receive`; `before` and `last` are `rx_reg`. -/
structure Receive where
  state : BitState
  divcounter : BitVec 32
  bitpos : BitVec 3
  data : BitVec 8
  before : Bool
  last : Bool
  deriving DecidableEq

def setBit (w : BitVec 8) (i : BitVec 3) (b : Bool) : BitVec 8 :=
  (w &&& ~~~(1#8 <<< i.toNat)) ||| ((BitVec.ofBool b).setWidth 8 <<< i.toNat)

inductive ReceiveEvent where
  | byte (data : BitVec 8)
  | error
  deriving DecidableEq

def countDown (divisor divcounter : BitVec 32) : BitVec 32 := if divcounter = 0 then divisor - 1 else divcounter - 1

section Divider
variable {D : BitVec 32} {c : Nat}

theorem ofNat_eq_iff {d : BitVec 32} (h : c < 2 ^ 32) : BitVec.ofNat 32 c = d ↔ c = d.toNat := by
  rw [← BitVec.toNat_inj, BitVec.toNat_ofNat, Nat.mod_eq_of_lt h]

theorem countDown_succ (h : c + 1 < 2 ^ 32) :
    countDown D (BitVec.ofNat 32 (c + 1)) = BitVec.ofNat 32 c := by
  have hne : BitVec.ofNat 32 (c + 1) ≠ 0 := by
    rw [Ne, ofNat_eq_iff h]
    exact Nat.succ_ne_zero c
  rw [countDown, if_neg hne]
  bv_omega

theorem countDown_zero (h : 0 < D.toNat) :
    countDown D (BitVec.ofNat 32 0) = BitVec.ofNat 32 (D.toNat - 1) := by
  rw [countDown, if_pos (show BitVec.ofNat 32 0 = 0 from rfl)]
  bv_omega

theorem ofNat_pred (h : 0 < D.toNat) : BitVec.ofNat 32 (D.toNat - 1) = D - 1 := by
  bv_omega

theorem countDown_half (h : 2 ≤ D.toNat) :
    countDown D (BitVec.ofNat 32 (D.toNat / 2)) = BitVec.ofNat 32 (D.toNat / 2 - 1) := by
  have hlt := D.isLt
  rw [show D.toNat / 2 = D.toNat / 2 - 1 + 1 by omega, countDown_succ (by omega), Nat.add_sub_cancel]

end Divider

namespace Receive
variable (divisor : BitVec 32) (s : Receive)

def rxnegedge : Bool := (s.before ^^ s.last) && !s.last
def bitend : Bool := s.divcounter = 0
def bitmid : Bool := s.divcounter = divisor >>> 1

def nxtState : BitState :=
  match s.state with
  | .idle => if s.rxnegedge then .start else .idle
  | .start => if s.bitend then .bits else .start
  | .bits => if s.bitmid divisor ∧ s.bitpos = 7 then .stop else .bits
  | .stop => if s.bitmid divisor then .idle else .stop

def nxtDivcounter : BitVec 32 :=
  if s.state = .idle ∧ s.rxnegedge then divisor - 1 else countDown divisor s.divcounter

def nxtBitpos : BitVec 3 :=
  match s.state with
  | .start => if s.bitend then 0 else s.bitpos
  | .bits => if s.bitmid divisor then s.bitpos + 1 else s.bitpos
  | _ => s.bitpos

def nxtData : BitVec 8 :=
  if s.state = .bits ∧ s.bitmid divisor then setBit s.data s.bitpos s.last else s.data

def next (rst rx : Bool) : Receive where
  state := if rst then .idle else s.nxtState divisor
  divcounter := if rst then 0 else s.nxtDivcounter divisor
  bitpos := s.nxtBitpos divisor
  data := s.nxtData divisor
  before := if rst then rx else s.last
  last := rx

def enable : Bool := s.state = .stop && s.bitmid divisor && s.last
def error : Bool := s.state = .stop && s.bitmid divisor && !s.last

/-- The cycles away from reset, with the line as it is sampled at their ends. -/
def machine : Transducer Receive Bool ReceiveEvent where
  next s rx := s.next divisor false rx
  emit s _ := if s.enable divisor then [.byte s.data] else if s.error divisor then [.error] else []

/-! ### Between two samples -/

def on (f : Nat → Bool) (a : Nat) (state : BitState) (count : Nat) (bitpos : BitVec 3) (data : BitVec 8) : Receive :=
  ⟨state, BitVec.ofNat 32 count, bitpos, data, f (a - 1), f a⟩

variable {D : BitVec 32} {f : Nat → Bool} {a c : Nat} {q : BitState} {p : BitVec 3} {w : BitVec 8}

theorem bitend_on (h : c < 2 ^ 32) : (on f a q c p w).bitend = decide (c = 0) := by
  have heq := ofNat_eq_iff (d := 0) h
  exact decide_eq_decide.mpr heq

theorem bitmid_on (h : c < 2 ^ 32) :
    (on f a q c p w).bitmid D = decide (c = D.toNat / 2) := by
  have heq := ofNat_eq_iff (d := D >>> 1) h
  rw [BitVec.toNat_ushiftRight, Nat.shiftRight_eq_div_pow, Nat.pow_one] at heq
  exact decide_eq_decide.mpr heq

theorem bitmid_sample : (on f a q (D.toNat / 2) p w).bitmid D = true := by
  have hlt := D.isLt
  rw [bitmid_on (by omega)]
  exact decide_eq_true rfl

/-- Nothing but the divider moves in a cycle that neither starts, samples nor ends. -/
theorem next_on_of_quiet (hstate : q ≠ .idle)
    (hend : q = .start → (on f a q c p w).bitend = false)
    (hmid : q ≠ .start → (on f a q c p w).bitmid D = false) :
    (machine D).next (on f a q c p w) (f (a + 1)) =
        { on f (a + 1) q c p w with
          divcounter := countDown D (BitVec.ofNat 32 c) } ∧
      (machine D).emit (on f a q c p w) (f (a + 1)) = [] := by
  cases q with
  | idle => exact absurd rfl hstate
  | start => simp_all [machine, next, on, nxtState, nxtDivcounter, nxtBitpos, nxtData, enable, error]
  | bits => simp_all [machine, next, on, nxtState, nxtDivcounter, nxtBitpos, nxtData, enable, error]
  | stop => simp_all [machine, next, on, nxtState, nxtDivcounter, nxtBitpos, nxtData, enable, error]

/-- The divider counts down to its next event. -/
theorem down (hstate : q ≠ .idle) (n : Nat) (hn : n + c < 2 ^ 32)
    (hquiet : q = .start ∨ D.toNat / 2 ≤ c ∨ n + c < D.toNat / 2) :
    (machine D).Goes f a (on f a q (n + c) p w) (a + n) (on f (a + n) q c p w)
      [] := by
  induction n generalizing a with
  | zero =>
    rw [Nat.zero_add, Nat.add_zero]
    exact Transducer.Goes.refl ..
  | succ n ih =>
    have hsucc : n + 1 + c = n + c + 1 := by omega
    rw [hsucc] at hn hquiet ⊢
    have hend : q = .start → (on f a q (n + c + 1) p w).bitend = false := by
      intro _
      rw [bitend_on hn]
      exact decide_eq_false (Nat.succ_ne_zero _)
    have hmid : q ≠ .start → (on f a q (n + c + 1) p w).bitmid D = false := by
      intro hne
      rw [bitmid_on hn]
      have := hquiet.resolve_left hne
      exact decide_eq_false (by omega)
    obtain ⟨hnext, hemit⟩ := next_on_of_quiet hstate hend hmid
    have hstep := Transducer.Goes.step (machine D) f a (on f a q (n + c + 1) p w)
    rw [hnext, hemit, countDown_succ hn] at hstep
    have hrest := ih (a := a + 1) (by omega) (hquiet.imp_right (Or.imp_right (by omega)))
    rw [show a + 1 + n = a + (n + 1) by omega] at hrest
    exact hstep.trans hrest

/-- From the cycle after a sample to the next sample. -/
theorem period (hdiv : 2 ≤ D.toNat) (hstate : q = .bits ∨ q = .stop) :
    (machine D).Goes f a (on f a q (D.toNat / 2 - 1) p w) (a + (D.toNat - 1))
      (on f (a + (D.toNat - 1)) q (D.toNat / 2) p w) [] := by
  have hlt := D.isLt
  have hidle : q ≠ .idle := by rintro rfl; simp at hstate
  have hend := down (D := D) (f := f) (a := a) (c := 0) (p := p) (w := w) hidle
    (D.toNat / 2 - 1) (by omega) (by omega)
  have hmid : (on f (a + (D.toNat / 2 - 1)) q 0 p w).bitmid D = false := by
    rw [bitmid_on (by omega)]
    exact decide_eq_false (by omega)
  obtain ⟨hnext, hemit⟩ := next_on_of_quiet hidle (fun h => absurd hstate (by simp [h])) (fun _ => hmid)
  have hturn := Transducer.Goes.step (machine D) f (a + (D.toNat / 2 - 1))
    (on f (a + (D.toNat / 2 - 1)) q 0 p w)
  rw [hnext, hemit, countDown_zero (by omega), show a + (D.toNat / 2 - 1) + 1 = a + D.toNat / 2 by omega]
    at hturn
  have hdown := down (D := D) (f := f) (a := a + D.toNat / 2) (c := D.toNat / 2)
    (p := p) (w := w) hidle (D.toNat - 1 - D.toNat / 2) (by omega) (by omega)
  rw [show D.toNat - 1 - D.toNat / 2 + D.toNat / 2 = D.toNat - 1 by omega,
    show a + D.toNat / 2 + (D.toNat - 1 - D.toNat / 2) = a + (D.toNat - 1) by omega] at hdown
  exact hend.trans (hturn.trans hdown)

theorem getLsbD_setBit (v : BitVec 8) (i : BitVec 3) (b : Bool) (j : Nat) (hj : j < 8) :
    (setBit v i b).getLsbD j = if j = i.toNat then b else v.getLsbD j := by
  have hi := i.isLt
  rcases Nat.lt_trichotomy j i.toNat with hlt | rfl | hgt
  · simp [setBit, hlt, Nat.ne_of_lt hlt, hj]
  · simp [setBit, hj]
  · have hsub : j - i.toNat ≠ 0 := by omega
    simp [setBit, hj, hsub, Nat.ne_of_gt hgt, Nat.not_lt_of_gt hgt]

/-- The sample of a w bit, and what is left of its period. -/
theorem sample (hdiv : 2 ≤ D.toNat) {next : BitState} (hnext : next = if p = 7 then .stop else .bits) :
    (machine D).Goes f a (on f a .bits (D.toNat / 2) p w) (a + D.toNat)
      (on f (a + D.toNat) next (D.toNat / 2) (p + 1) (setBit w p (f a))) [] := by
  have hlt := D.isLt
  have hmid := bitmid_sample (D := D) (f := f) (a := a) (q := .bits) (p := p) (w := w)
  have hstep : (machine D).next (on f a .bits (D.toNat / 2) p w) (f (a + 1)) =
      on f (a + 1) next (D.toNat / 2 - 1) (p + 1) (setBit w p (f a)) := by
    rw [hnext]
    simp only [on] at hmid ⊢
    simp [machine, Receive.next, nxtState, nxtDivcounter, nxtBitpos, nxtData, hmid, countDown_half hdiv]
  have hgoes := Transducer.Goes.step (machine D) f a (on f a .bits (D.toNat / 2) p w)
  rw [hstep] at hgoes
  have hstate : next = .bits ∨ next = .stop := by
    rw [hnext]
    split <;> simp
  have hrest := period (f := f) (a := a + 1) (p := p + 1) (w := setBit w p (f a)) hdiv hstate
  rw [show a + 1 + (D.toNat - 1) = a + D.toNat by omega] at hrest
  exact hgoes.trans hrest

theorem getLsbD_setBit_of_agree {x : BitVec 8} {i : Nat} (hi : i < 8)
    (hdata : ∀ j < i, w.getLsbD j = x.getLsbD j) (j : Nat) (hj : j < i + 1) :
    (setBit w (BitVec.ofNat 3 i) (x.getLsbD i)).getLsbD j = x.getLsbD j := by
  rw [getLsbD_setBit _ _ _ _ (by omega), BitVec.toNat_ofNat, Nat.mod_eq_of_lt hi]
  split
  case isTrue heq => rw [heq]
  case isFalse hne => exact hdata j (by omega)

/-- From the sample of bit `i` to the sample of the stop bit. -/
theorem bits (hdiv : 2 ≤ D.toNat) {x : BitVec 8} (k i : Nat) (hk : i + k = 7)
    (hbits : ∀ j, i + j < 8 → f (a + j * D.toNat) = x.getLsbD (i + j))
    (hdata : ∀ j < i, w.getLsbD j = x.getLsbD j) :
    (machine D).Goes f a (on f a .bits (D.toNat / 2) (BitVec.ofNat 3 i) w)
      (a + (k + 1) * D.toNat) (on f (a + (k + 1) * D.toNat) .stop (D.toNat / 2) 0 x) [] := by
  induction k generalizing a w i with
  | zero =>
    obtain rfl : i = 7 := hk
    have hset := getLsbD_setBit_of_agree (by omega) hdata
    have hfirst : f a = x.getLsbD 7 := by simpa using hbits 0 (by omega)
    have hbyte : setBit w 7 (f a) = x := by
      rw [hfirst]
      exact BitVec.eq_of_getLsbD_eq hset
    have hlast := sample (f := f) (a := a) (p := 7) (w := w) hdiv (if_pos rfl).symm
    rw [hbyte] at hlast
    rw [Nat.zero_add, Nat.one_mul]
    exact hlast
  | succ k ih =>
    have hne : BitVec.ofNat 3 i ≠ 7 := by
      intro heq
      have := congrArg BitVec.toNat heq
      rw [BitVec.toNat_ofNat, Nat.mod_eq_of_lt (by omega)] at this
      simp at this
      omega
    have hset := getLsbD_setBit_of_agree (i := i) (by omega) hdata
    have hfirst : f a = x.getLsbD i := by simpa using hbits 0 (by omega)
    have hnext := sample (f := f) (a := a) (w := w) hdiv (if_neg hne).symm
    rw [hfirst, show BitVec.ofNat 3 i + 1 = BitVec.ofNat 3 (i + 1) from (BitVec.ofNat_add i 1).symm] at hnext
    have hshift : ∀ j, i + 1 + j < 8 → f (a + D.toNat + j * D.toNat) = x.getLsbD (i + 1 + j) := by
      intro j hj
      have := hbits (j + 1) (by omega)
      rw [show a + (j + 1) * D.toNat = a + D.toNat + j * D.toNat by ring,
        show i + (j + 1) = i + 1 + j by ring] at this
      exact this
    have hrest := ih (a := a + D.toNat) (i + 1) (by omega) hshift hset
    rw [show a + D.toNat + (k + 1) * D.toNat = a + (k + 1 + 1) * D.toNat by ring] at hrest
    exact hnext.trans hrest

/-- From the cycle in which the start edge is seen to the sample of the first w bit. -/
theorem startBit (hdiv : 2 ≤ D.toNat) (hhigh : f (a - 1) = true) (hlow : f a = false) :
    (machine D).Goes f a (on f a .idle c p w) (a + 2 * D.toNat - D.toNat / 2)
      (on f (a + 2 * D.toNat - D.toNat / 2) .bits (D.toNat / 2) 0 w) [] := by
  have hlt := D.isLt
  have hedge := Transducer.Goes.step (machine D) f a (on f a .idle c p w)
  have hpred := ofNat_pred (D := D) (by omega)
  rw [show (machine D).next (on f a .idle c p w) (f (a + 1)) =
      on f (a + 1) .start (D.toNat - 1) p w by
    simp [machine, next, on, nxtState, nxtDivcounter, nxtBitpos, nxtData, rxnegedge, hhigh, hlow, hpred],
    show (machine D).emit (on f a .idle c p w) (f (a + 1)) = [] by
    simp [machine, on, enable, error]] at hedge
  have hlow := down (D := D) (f := f) (a := a + 1) (c := 0) (p := p) (w := w)
    (q := .start) (by simp) (D.toNat - 1) (by omega) (.inl rfl)
  rw [Nat.add_zero, show a + 1 + (D.toNat - 1) = a + D.toNat by omega] at hlow
  have hbegin := Transducer.Goes.step (machine D) f (a + D.toNat)
    (on f (a + D.toNat) .start 0 p w)
  have hwrap := countDown_zero (D := D) (by omega)
  rw [show (machine D).next (on f (a + D.toNat) .start 0 p w) (f (a + D.toNat + 1)) =
      on f (a + D.toNat + 1) .bits (D.toNat - 1) 0 w by
    simp [machine, next, on, nxtState, nxtDivcounter, nxtBitpos, nxtData, bitend, ← hwrap],
    show (machine D).emit (on f (a + D.toNat) .start 0 p w) (f (a + D.toNat + 1)) = [] by
    simp [machine, on, enable, error]] at hbegin
  have hfirst := down (D := D) (f := f) (a := a + D.toNat + 1) (c := D.toNat / 2)
    (p := 0) (w := w) (q := .bits) (by simp) (D.toNat - 1 - D.toNat / 2) (by omega)
    (by omega)
  rw [show D.toNat - 1 - D.toNat / 2 + D.toNat / 2 = D.toNat - 1 by omega,
    show a + D.toNat + 1 + (D.toNat - 1 - D.toNat / 2) =
      a + 2 * D.toNat - D.toNat / 2 by omega] at hfirst
  exact hedge.trans (hlow.trans (hbegin.trans hfirst))

/-- One frame: from the cycle in which the start edge is seen to the cycle after the sample of the stop bit. -/
theorem frame (hdiv : 2 ≤ D.toNat) (hhigh : f (a - 1) = true) (hlow : f a = false) {x : BitVec 8}
    (hbits : ∀ i < 8, f (a + (i + 2) * D.toNat - D.toNat / 2) = x.getLsbD i)
    (hstop : f (a + 10 * D.toNat - D.toNat / 2) = true) :
    (machine D).Goes f a (on f a .idle c p w) (a + 10 * D.toNat - D.toNat / 2 + 1)
      (on f (a + 10 * D.toNat - D.toNat / 2 + 1) .idle (D.toNat / 2 - 1) 0 x) [.byte x] := by
  have hlt := D.isLt
  have hdata := bits (f := f) (a := a + 2 * D.toNat - D.toNat / 2) (w := w) hdiv (x := x) 7 0
    rfl (by
      intro j hj
      rw [Nat.zero_add] at hj ⊢
      rw [← hbits j hj, Nat.add_mul]
      congr 1
      omega) (by simp)
  rw [show a + 2 * D.toNat - D.toNat / 2 + (7 + 1) * D.toNat =
    a + 10 * D.toNat - D.toNat / 2 by omega] at hdata
  generalize a + 10 * D.toNat - D.toNat / 2 = b at *
  have hmid := bitmid_sample (D := D) (f := f) (a := b) (q := .stop) (p := 0#3) (w := x)
  have hlast := Transducer.Goes.step (machine D) f b (on f b .stop (D.toNat / 2) 0 x)
  simp only [on, hstop] at hmid
  rw [show (machine D).next (on f b .stop (D.toNat / 2) 0 x) (f (b + 1)) =
      on f (b + 1) .idle (D.toNat / 2 - 1) 0 x by
    simp [machine, next, on, nxtState, nxtDivcounter, nxtBitpos, nxtData, hmid, hstop, countDown_half hdiv],
    show (machine D).emit (on f b .stop (D.toNat / 2) 0 x) (f (b + 1)) = [.byte x] by
    simp [machine, on, enable, hmid, hstop]] at hlast
  exact (startBit hdiv hhigh hlow).trans (hdata.trans hlast)

/-- While the line stays high the receiver waits. -/
theorem wait (n : Nat) (hhigh : f (a - 1) = true) (hline : ∀ j < n, f (a + j) = true) :
    ∃ c', (machine D).Goes f a (on f a .idle c p w) (a + n)
      (on f (a + n) .idle c' p w) [] := by
  induction n generalizing a c with
  | zero => exact ⟨c, Transducer.Goes.refl ..⟩
  | succ n ih =>
    have hnow : f a = true := hline 0 (by omega)
    have hstep := Transducer.Goes.step (machine D) f a (on f a .idle c p w)
    rw [show (machine D).next (on f a .idle c p w) (f (a + 1)) =
        on f (a + 1) .idle (countDown D (BitVec.ofNat 32 c)).toNat p w by
      simp [machine, next, on, nxtState, nxtDivcounter, nxtBitpos, nxtData, rxnegedge, hhigh, hnow],
      show (machine D).emit (on f a .idle c p w) (f (a + 1)) = [] by
      simp [machine, on, enable, error]] at hstep
    obtain ⟨c', hrest⟩ := ih (a := a + 1) (c := (countDown D (BitVec.ofNat 32 c)).toNat) hnow (by
      intro j hj
      have := hline (j + 1) (by omega)
      rwa [show a + (j + 1) = a + 1 + j by omega] at this)
    rw [show a + 1 + n = a + (n + 1) by omega] at hrest
    exact ⟨c', hstep.trans hrest⟩

end Receive
end Glip.Uart
