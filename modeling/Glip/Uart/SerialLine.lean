import Glip.Uart.ReceiveFsm
import Mathlib.Algebra.Order.Floor.Semiring
import Mathlib.Tactic.Linarith
import Mathlib.Tactic.Positivity
import Mathlib.Tactic.Ring

/-! The line between two stations: 8N1 frames of any constant bit time, at any phase against the clock. -/
namespace Glip.Uart
open Foundation

/-- One byte on the line, and the time at which its start bit begins, in clock cycles. -/
structure Frame (K : Type) where
  start : K
  data : BitVec 8

def frameBit (data : BitVec 8) (k : Nat) : Bool :=
  if k = 0 then false else if k ≤ 8 then data.getLsbD (k - 1) else true

variable {K : Type} [Field K] [LinearOrder K]

def Spaced (P : K) (frames : List (Frame K)) : Prop := frames.IsChain fun g g' => g.start + 10 * P ≤ g'.start

/-- From time `t` the line carries `frames` at the clock edges; it is high after the last of them up to `N`. -/
def Sends (P : K) (f : Nat → Bool) (N : Nat) : K → List (Frame K) → Prop
  | t, [] => ∀ n : Nat, t ≤ n → n ≤ N → f n = true
  | t, g :: gs => t ≤ g.start ∧ (∀ n : Nat, t ≤ n → n < g.start → f n = true) ∧
      (∀ k n : Nat, k ≤ 9 → g.start + k * P ≤ n → n < g.start + (k + 1) * P → f n = frameBit g.data k) ∧
      Sends P f N (g.start + 10 * P) gs

/-- The line may be high before. -/
theorem Sends.earlier {P : K} {f : Nat → Bool} {N : Nat} {frames : List (Frame K)} {t t' : K}
    (h : Sends P f N t' frames) (hle : t ≤ t')
    (hhigh : ∀ n : Nat, t ≤ n → n < t' → f n = true) : Sends P f N t frames := by
  cases frames with
  | nil =>
    intro n hn hN
    rcases lt_or_ge (n : K) t' with hlt | hge
    · exact hhigh n hn hlt
    · exact h n hge hN
  | cons g gs =>
    obtain ⟨hstart, hgap, hrest⟩ := h
    refine ⟨hle.trans hstart, ?_, hrest⟩
    intro n hn hlate
    rcases lt_or_ge (n : K) t' with hlt | hge
    · exact hhigh n hn hlt
    · exact hgap n hge hlate

variable [FloorSemiring K]

def level (P : K) : List (Frame K) → K → Bool
  | [], _ => true
  | g :: gs, t =>
    if t < g.start then true
    else if t < g.start + 10 * P then frameBit g.data ⌊(t - g.start) / P⌋₊
    else level P gs t

variable [IsStrictOrderedRing K] {P : K} {D : BitVec 32}

theorem sends_level (hP : 0 < P) {f : Nat → Bool} {frames : List (Frame K)} {t : K} (hspaced : Spaced P frames)
    (hstart : ∀ g ∈ frames.head?, t ≤ g.start) (hf : ∀ n : Nat, t ≤ n → f n = level P frames n) (N : Nat) :
    Sends P f N t frames := by
  induction frames generalizing t with
  | nil => exact fun n ht _ => hf n ht
  | cons g gs ih =>
    obtain ⟨hnext, hspaced⟩ := List.isChain_cons.mp hspaced
    have ht := hstart g rfl
    refine ⟨ht, ?_, ?_, ih hspaced hnext ?_⟩
    · intro n hn hlt
      rw [hf n hn, level, if_pos hlt]
    · intro k n hk hge hlt
      have hpast : g.start ≤ n := by nlinarith [Nat.cast_nonneg (α := K) k]
      have hwithin : (n : K) < g.start + 10 * P := by
        have : (k : K) ≤ 9 := by exact_mod_cast hk
        nlinarith
      have hfloor : ⌊((n : K) - g.start) / P⌋₊ = k := by
        rw [Nat.floor_eq_iff (div_nonneg (sub_nonneg.mpr hpast) hP.le), le_div_iff₀ hP, div_lt_iff₀ hP]
        constructor <;> linarith
      rw [hf n (ht.trans hpast), level, if_neg (not_lt.mpr hpast), if_pos hwithin, hfloor]
    · intro n hn
      have hpast : g.start ≤ n := by linarith
      rw [hf n (ht.trans hpast), level, if_neg (not_lt.mpr hpast), if_neg (not_lt.mpr hn)]

/-- The receiver's samples fall into their bits: the first cycle `n` in which it sees the start bit is less
than a cycle late, and ten bit times of two percent are less than what the half bit leaves of it. -/
theorem sample_inside {D n i : Nat} {start : K} (hdiv : 4 ≤ D) (hlo : 98 * (D : K) ≤ 100 * P)
    (hhi : 100 * P ≤ 102 * (D : K)) (hfirst : start ≤ n) (hseen : (n : K) < start + 1) (hi : i ≤ 8) :
    start + ((i + 1 : Nat) : K) * P ≤ ((n + (i + 2) * D - D / 2 : Nat) : K) ∧
      ((n + (i + 2) * D - D / 2 : Nat) : K) < start + (((i + 1 : Nat) : K) + 1) * P := by
  have hhalf : ((2 * (D / 2) : Nat) : K) ≤ (D : K) := Nat.cast_le.mpr (by omega)
  have hquarter : ((D + 5 : Nat) : K) ≤ ((5 * (D / 2) : Nat) : K) := Nat.cast_le.mpr (by omega)
  have hcast : ((n + (i + 2) * D - D / 2 : Nat) : K) = n + (i + 2) * D - ((D / 2 : Nat) : K) := by
    rw [Nat.cast_sub (by nlinarith [Nat.div_le_self D 2])]
    push_cast
    ring
  have hslow := mul_nonneg (show (0 : K) ≤ i + 1 by positivity) (sub_nonneg.mpr hhi)
  have hfast := mul_nonneg (show (0 : K) ≤ i + 2 by positivity) (sub_nonneg.mpr hlo)
  have hlast := mul_nonneg (sub_nonneg.mpr (show (i : K) ≤ 8 by exact_mod_cast hi)) (Nat.cast_nonneg (α := K) D)
  rw [hcast]
  push_cast at hhalf hquarter ⊢
  constructor <;> linarith

namespace Receive
open Transducer (signal)

/-- The receiver takes one frame, from the first cycle `n` in which it sees the start bit. -/
theorem receives_frame (hdiv : 4 ≤ D.toNat) (hlo : 98 * (D.toNat : K) ≤ 100 * P)
    (hhi : 100 * P ≤ 102 * (D.toNat : K)) {f : Nat → Bool} {g : Frame K} {n c : Nat} {p : BitVec 3}
    {w : BitVec 8} (hfirst : g.start ≤ n) (hseen : (n : K) < g.start + 1) (hhigh : f (n - 1) = true)
    (hframe : ∀ k n : Nat, k ≤ 9 → g.start + k * P ≤ n → n < g.start + (k + 1) * P → f n = frameBit g.data k) :
    (machine D).Goes f n (on f n .idle c p w) (n + 10 * D.toNat - D.toNat / 2 + 1)
        (on f (n + 10 * D.toNat - D.toNat / 2 + 1) .idle (D.toNat / 2 - 1) 0 g.data)
        [.byte g.data] ∧
      f (n + 10 * D.toNat - D.toNat / 2) = true := by
  have hfour : ((4 : Nat) : K) ≤ (D.toNat : K) := Nat.cast_le.mpr hdiv
  push_cast at hfour
  have hlow : f n = false := by
    have := hframe 0 n (by omega) (by simpa using hfirst) (by push_cast; linarith)
    exact this
  have hsample : ∀ i ≤ 8, f (n + (i + 2) * D.toNat - D.toNat / 2) = frameBit g.data (i + 1) := by
    intro i hi
    obtain ⟨hge, hlt⟩ := sample_inside hdiv hlo hhi hfirst hseen hi
    exact hframe (i + 1) _ (by omega) hge hlt
  have hbits : ∀ i < 8, f (n + (i + 2) * D.toNat - D.toNat / 2) = g.data.getLsbD i := by
    intro i hi
    rw [hsample i (by omega), frameBit, if_neg (by omega), if_pos (by omega), Nat.add_sub_cancel]
  have hstop := hsample 8 (by omega)
  exact ⟨frame (by omega) hhigh hlow hbits hstop, hstop⟩

/-- The receiver emits the frames of the line in order and nothing else, and each of
them by the cycle after the sample of its stop bit. -/
theorem receives (hdiv : 4 ≤ D.toNat) (hlo : 98 * (D.toNat : K) ≤ 100 * P)
    (hhi : 100 * P ≤ 102 * (D.toNat : K)) {f : Nat → Bool} {N : Nat} {frames : List (Frame K)} {t : K}
    (hsends : Sends P f N t frames) (ht : 0 ≤ t) {a c : Nat} {p : BitVec 3} {w : BitVec 8}
    (hprev : f (a - 1) = true) (hready : (a : K) < t + 1) (hhigh : ∀ n : Nat, a ≤ n → n < t → f n = true) :
    (machine D).emitted (on f a .idle c p w) (signal f a (N - a)) <+:
        frames.map (fun g => .byte g.data) ∧
      ((∀ g ∈ frames, g.start + 10 * (D.toNat : K) - ((D.toNat / 2 : Nat) : K) + 1 ≤ N) →
        (machine D).emitted (on f a .idle c p w) (signal f a (N - a)) =
          frames.map (fun g => .byte g.data)) := by
  induction frames generalizing t a c p w with
  | nil =>
    have hline : ∀ j < N - a, f (a + j) = true := by
      intro j hj
      rcases lt_or_ge ((a + j : Nat) : K) t with hlt | hge
      · exact hhigh _ (by omega) hlt
      · exact hsends _ hge (by omega)
    obtain ⟨_, hwait⟩ := wait (D := D) (c := c) (p := p) (w := w) _ hprev hline
    have hnone := hwait.emitted
    rw [Nat.add_sub_cancel_left] at hnone
    rw [hnone]
    exact ⟨List.prefix_rfl, fun _ => rfl⟩
  | cons g gs ih =>
    obtain ⟨hle, hgap, hbits, hrest⟩ := hsends
    have hfirst := Nat.le_ceil g.start
    have hseen := Nat.ceil_lt_add_one (ht.trans hle)
    have hbefore : ∀ m : Nat, m < ⌈g.start⌉₊ → m < g.start := fun m hm => Nat.lt_ceil.mp hm
    have hceil : ∀ m : Nat, g.start ≤ m → ⌈g.start⌉₊ ≤ m := fun m hm => Nat.ceil_le.mpr hm
    generalize ⌈g.start⌉₊ = n at hfirst hseen hbefore hceil
    have han : a ≤ n := by
      have : (a : K) < ((n + 1 : Nat) : K) := by
        push_cast
        linarith
      exact Nat.lt_succ_iff.mp (Nat.cast_lt.mp this)
    have hline : ∀ m, a ≤ m → m < n → f m = true := by
      intro m ha hn
      rcases lt_or_ge (m : K) t with hlt | hge
      · exact hhigh m ha hlt
      · exact hgap m hge (hbefore m hn)
    have hlast : f (n - 1) = true := by
      rcases Nat.eq_or_lt_of_le han with rfl | hlt
      · exact hprev
      · exact hline (n - 1) (by omega) (by omega)
    obtain ⟨_, hwait⟩ := wait (D := D) (c := c) (p := p) (w := w) (n - a) hprev
      (fun j hj => hline (a + j) (by omega) (by omega))
    rw [Nat.add_sub_cancel' han] at hwait
    obtain ⟨hframe, hstop⟩ := receives_frame hdiv hlo hhi hfirst hseen hlast hbits
    have hgoes := hwait.trans hframe
    obtain ⟨hge, hlt⟩ := sample_inside (i := 8) hdiv hlo hhi hfirst hseen (le_refl 8)
    have hquarter : ((D.toNat + 5 : Nat) : K) ≤ ((5 * (D.toNat / 2) : Nat) : K) :=
      Nat.cast_le.mpr (by omega)
    have hend : ((n + 10 * D.toNat - D.toNat / 2 + 1 : Nat) : K) =
        n + 10 * D.toNat - ((D.toNat / 2 : Nat) : K) + 1 := by
      rw [Nat.cast_add, Nat.cast_sub (by omega)]
      push_cast
      ring
    have hdone : g.start + 10 * (D.toNat : K) - ((D.toNat / 2 : Nat) : K) + 1 ≤ N →
        n + 10 * D.toNat - D.toNat / 2 + 1 ≤ N := by
      intro hlate
      have hN : 10 * D.toNat + 1 ≤ N + D.toNat / 2 := by
        have : ((10 * D.toNat + 1 : Nat) : K) ≤ ((N + D.toNat / 2 : Nat) : K) := by
          push_cast
          linarith
        exact Nat.cast_le.mp this
      have := hceil (N + D.toNat / 2 - (10 * D.toNat + 1)) (by
        rw [Nat.cast_sub hN]
        push_cast
        linarith)
      omega
    push_cast at hquarter
    generalize hb : n + 10 * D.toNat - D.toNat / 2 = b at *
    have htail : ∀ m : Nat, b + 1 ≤ m → m < g.start + 10 * P → f m = true := by
      intro m hm hlate
      have hbm : (b : K) ≤ m := Nat.cast_le.mpr (by omega)
      push_cast at hge
      exact hbits 9 m (by omega) (by push_cast; linarith) (by push_cast; linarith)
    rcases Nat.lt_or_ge N (b + 1) with hcut | hN
    · refine ⟨(hgoes.emitted_prefix (by omega)).trans ?_, ?_⟩
      · exact List.prefix_append [_] _
      · intro hall
        have := hdone (hall g List.mem_cons_self)
        omega
    · obtain ⟨hpre, hall⟩ := ih (t := g.start + 10 * P) hrest (by linarith) (a := b + 1)
        (c := D.toNat / 2 - 1) (p := 0) (w := g.data) hstop (by rw [hend]; linarith) htail
      rw [hgoes.emitted_to hN, List.nil_append, List.map_cons]
      refine ⟨(List.prefix_append_right_inj [_]).mpr hpre, fun h => ?_⟩
      rw [hall fun g' hg' => h g' (List.mem_cons_of_mem g hg')]
      rfl

end Receive
end Glip.Uart
