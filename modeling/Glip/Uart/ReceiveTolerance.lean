import Glip.Uart.TransmitFsm

/-! What glip_uart_receive makes of a sender whose bit time is within two percent of its own. -/
namespace Glip.Uart
open Foundation

/-- The machine after a reset that has seen the line high waits for a start bit. -/
theorem Receive.next_reset (divisor : BitVec 32) (r : Receive) {f : Nat → Bool} (h : f 0 = true) :
    r.next divisor true true = on f 0 .idle 0 (r.nxtBitpos divisor) (r.nxtData divisor) := by
  simp [next, on, h]

open Receive in
/-- After reset the receiver emits the bytes on the line in order and nothing else, and each of them before
its frame ends: for every sender within two percent of the bit time, at every phase and with any gaps,
and for the line of `glip_uart_transmit`, where a byte is one that the machine has accepted. -/
theorem receives_exactly {K : Type} [Field K] [LinearOrder K] [IsStrictOrderedRing K] [FloorSemiring K]
    (divisor : BitVec 32) (hdiv : 4 ≤ divisor.toNat) (r : Receive) :
    (∀ (P : K) (frames : List (Frame K)) (N : Nat), 98 * (divisor.toNat : K) ≤ 100 * P →
      100 * P ≤ 102 * (divisor.toNat : K) → Spaced P frames → (∀ g ∈ frames.head?, 0 < g.start) →
      let out := (machine divisor).emitted (r.next divisor true true)
        (Transducer.signal (fun n => level P frames n) 0 N)
      out <+: frames.map (fun g => .byte g.data) ∧
        ((∀ g ∈ frames, g.start + 10 * P ≤ N) → out = frames.map (fun g => .byte g.data))) ∧
    ∀ (t : Transmit) (enable : Bool) (inp : Nat → TransmitIn) (N : Nat),
      let t := t.next divisor true enable
      t.Held divisor inp →
      let out := (machine divisor).emitted (r.next divisor true true) (Transducer.signal (t.wire divisor inp) 0 N)
      let accepted := (Transmit.machine divisor).emitted t (Transducer.signal inp 0 N)
      out <+: accepted.map .byte ∧ ((t.stateAt divisor inp N).state = .idle → out = accepted.map .byte) := by
  refine ⟨?_, ?_⟩
  · intro P frames N hlo hhi hspaced hstart out
    have hfour : ((4 : Nat) : K) ≤ (divisor.toNat : K) := Nat.cast_le.mpr hdiv
    have hquarter : ((divisor.toNat + 5 : Nat) : K) ≤ ((5 * (divisor.toNat / 2) : Nat) : K) :=
      Nat.cast_le.mpr (by omega)
    push_cast at hfour hquarter
    have hsends := sends_level (f := fun n => level P frames n) (t := 0) (by linarith) hspaced
      (fun g hg => (hstart g hg).le) (fun _ _ => rfl) N
    have hhigh : level P frames ((0 : Nat) : K) = true := by
      cases frames with
      | nil => rfl
      | cons g gs => rw [level, if_pos (by simpa using hstart g rfl)]
    have hout := receives hdiv hlo hhi hsends (le_refl 0) (a := 0) (p := r.nxtBitpos divisor)
      (w := r.nxtData divisor) (c := 0) hhigh (by norm_num) (fun n _ hn => absurd hn (not_lt.mpr (Nat.cast_nonneg n)))
    rw [← next_reset divisor r (f := fun n => level P frames n) hhigh] at hout
    refine hout.imp_right fun hall hended => hall fun g hg => ?_
    have := hended g hg
    linarith
  · intro t enable inp N t' hheld out accepted
    have hidle : (t'.stateAt divisor inp 0).state = .idle := rfl
    obtain ⟨frames, hsends, haccepted, hended⟩ := Transmit.carries hdiv hheld N hidle
    have hmap : frames.map (fun g => .byte g.data) = accepted.map ReceiveEvent.byte := by
      have haccepted : frames.map Frame.data = accepted := haccepted
      rw [← haccepted, List.map_map]
      rfl
    have hfour : ((4 : Nat) : ℚ) ≤ (divisor.toNat : ℚ) := Nat.cast_le.mpr hdiv
    push_cast at hfour
    have hfirst : ∀ n : Nat, 0 ≤ n → (n : ℚ) < ((0 : Nat) : ℚ) + 1 → t'.wire divisor inp n = true := by
      intro n _ hn
      obtain rfl : n = 0 := by
        have : n < 1 := by exact_mod_cast (by simpa using hn : (n : ℚ) < 1)
        omega
      rfl
    have hout := receives hdiv (by linarith) (by linarith) hsends (by norm_num) (a := 0) (p := r.nxtBitpos divisor)
      (w := r.nxtData divisor) (c := 0) rfl (by norm_num) hfirst
    rw [← next_reset divisor r (f := t'.wire divisor inp) rfl, hmap] at hout
    exact hout.imp_right fun hall hN => hall (hended hN)

/-- Two bytes at a divisor of four, the second one right behind the first, from a sender that is slow by two percent. -/
theorem receives_exactly_four :
    (Receive.machine 4).emitted ((⟨.stop, 7, 3, 0, false, true⟩ : Receive).next 4 true true)
        (Transducer.signal (fun n => level (102 / 25 : ℚ) [⟨1 / 3, 0x5A⟩, ⟨1 / 3 + 204 / 5, 0xA6⟩] n) 0 82) =
      [.byte 0x5A, .byte 0xA6] := by
  have hdiv : ((4 : BitVec 32).toNat : ℚ) = 4 := rfl
  have h := (receives_exactly (K := ℚ) 4 (by decide) ⟨.stop, 7, 3, 0, false, true⟩).1 (102 / 25)
    [⟨1 / 3, 0x5A⟩, ⟨1 / 3 + 204 / 5, 0xA6⟩] 82
    (by rw [hdiv]; norm_num) (by rw [hdiv]; norm_num) (List.isChain_pair.mpr (by norm_num)) (by norm_num)
  exact h.2 (by norm_num)

end Glip.Uart
