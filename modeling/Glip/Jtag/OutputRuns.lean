import Glip.Jtag.OutputWords

/-! The words that the output state machine sends between the header and the count words. -/
namespace Glip.Jtag
open Foundation
variable {W : Nat}

def validAt (cs : List (OutputIn W)) (j : Nat) : Bool := (cs[(j + 1) * W - 1]?).any (·.fifoValid)

theorem validAt_zero {n : Nat} (hW : W = n + 1) {c₁ : List (OutputIn W)} (c₂ : List (OutputIn W)) (hn : n < c₁.length) :
    validAt (c₁ ++ c₂) 0 = c₁[n].fifoValid := by
  subst hW
  rw [validAt, show (0 + 1) * (n + 1) - 1 = n by omega, List.getElem?_append_left hn, List.getElem?_eq_getElem hn]
  rfl

theorem validAt_succ (hW : 0 < W) {c₁ : List (OutputIn W)} (c₂ : List (OutputIn W)) (hlen : c₁.length = W) (j : Nat) :
    validAt (c₁ ++ c₂) (j + 1) = validAt c₂ j := by
  have hindex : (j + 1 + 1) * W - 1 = c₁.length + ((j + 1) * W - 1) := by
    rw [hlen, Nat.succ_mul (j + 1)]
    have : W ≤ (j + 1) * W := Nat.le_mul_of_pos_left W (Nat.succ_pos j)
    omega
  rw [validAt, hindex, List.getElem?_append_right (Nat.le_add_right _ _), Nat.add_sub_cancel_left, validAt]

theorem validAt_append_left {c₁ : List (OutputIn W)} (c₂ : List (OutputIn W)) {j : Nat} (hj : (j + 1) * W - 1 < c₁.length) :
    validAt (c₁ ++ c₂) j = validAt c₁ j := by
  rw [validAt, validAt, List.getElem?_append_left hj]

def zeros (W k : Nat) : List Bool := (List.replicate k (0 : BitVec W)).flatMap bitsOf

theorem zeros_succ (W k : Nat) : zeros W (k + 1) = bitsOf (0 : BitVec W) ++ zeros W k := by
  rw [zeros, List.replicate_succ, List.flatMap_cons, zeros]

namespace OutputFsm

structure Padding (s : OutputFsm W) (c n m : Nat) : Prop where
  bitCnt : s.bitCnt = 0
  packetCount : s.packetCount = BitVec.ofNat W m
  sending : c < n → s.outputState = .noData ∧ s.wordCnt.toNat = c ∧ s.inRegCnt.toNat = n
  finished : n ≤ c → s.outputState = .sendCountWrite

structure Sending (s : OutputFsm W) (c n r : Nat) : Prop where
  state : s.outputState = .sendData
  bitCnt : s.bitCnt = 0
  wordCnt : s.wordCnt.toNat = c
  inRegCnt : s.inRegCnt.toNat = n
  readLengthReg : s.readLengthReg.toNat = r
  lt_read : c < r
  read_le : r ≤ n

theorem toNat_succ {x : BitVec W} {c n : Nat} (hx : x.toNat = c) (hc : c < n) (hn : n < 2 ^ W) : (x + 1).toNat = c + 1 := by
  have hpos : 0 < W := by
    rcases Nat.eq_zero_or_pos W with rfl | h
    · simp at hn
      omega
    · exact h
  have hone : (1 : BitVec W).toNat = 1 := Nat.mod_eq_of_lt (Nat.one_lt_two_pow (by omega))
  rw [BitVec.toNat_add, hx, hone, Nat.mod_eq_of_lt (by omega)]

theorem succ_eq_ofNat {x : BitVec W} {c : Nat} (hx : x.toNat = c) : x + 1 = BitVec.ofNat W (c + 1) := by
  rw [BitVec.ofNat_add, ← hx, BitVec.ofNat_toNat, BitVec.setWidth_eq]
  rfl

variable {s : OutputFsm W} {cs : List (OutputIn W)}

theorem Padding.run {c n m : Nat} (h : s.Padding c n m) (hW : 0 < W) {ws : List (BitVec W)} (hle : c + ws.length ≤ n)
    (hcs : cs.map OutputIn.tap = ws.flatMap shiftWord) :
    ∃ s', Sends s cs s' (zeros W ws.length) [] ∧ s'.Padding (c + ws.length) n m := by
  induction ws generalizing s cs c with
  | nil =>
    obtain rfl := List.map_eq_nil_iff.mp hcs
    exact ⟨s, ⟨rfl, rfl, rfl⟩, h⟩
  | cons w ws ih =>
    rw [List.length_cons] at hle
    obtain ⟨c₁, c₂, rfl, hc₁, hc₂⟩ := List.map_eq_append_iff.mp hcs
    obtain ⟨hstate, hcnt, hin⟩ := h.sending (by omega)
    have hword := noData_word hc₁ hW hstate h.bitCnt
    have hminus : minusOne s.inRegCnt = n - 1 := hin ▸ minusOne_eq (by omega)
    rw [hcnt, hminus] at hword
    have hnext : ∃ s', Sends s c₁ s' (bitsOf (0 : BitVec W)) [] ∧ s'.Padding (c + 1) n m := by
      by_cases hlast : c = n - 1
      · rw [if_pos hlast] at hword
        exact ⟨_, hword, h.bitCnt, h.packetCount, fun hlt => by omega, fun _ => rfl⟩
      · rw [if_neg hlast] at hword
        have hsucc : (s.wordCnt + 1).toNat = c + 1 := toNat_succ hcnt (show c < n by omega) (hin ▸ s.inRegCnt.isLt)
        exact ⟨_, hword, h.bitCnt, h.packetCount, fun _ => ⟨hstate, hsucc, hin⟩, fun hle => by omega⟩
    obtain ⟨s₁, hsends₁, h₁⟩ := hnext
    obtain ⟨s₂, hsends₂, h₂⟩ := ih h₁ (by omega) hc₂
    refine ⟨s₂, ?_, ?_⟩
    · rw [List.length_cons, zeros_succ]
      exact hsends₁.append hsends₂
    · rw [List.length_cons, show c + (ws.length + 1) = c + 1 + ws.length by omega]
      exact h₂

/-- A word of the FIFO is followed by the next one, by the zeros and count words, or, if it is
the last one that is wanted but not the last of the scan, by zeros as if it had not been sent. -/
theorem Sending.word {c n r : Nat} (h : s.Sending c n r) {w : BitVec W} {k : Nat} (hW : W = k + 1)
    (hcs : cs.map OutputIn.tap = shiftWord w) (hk : k < cs.length) :
    ∃ s', (c + 1 < r ∧ cs[k].fifoValid = true ∧ Sends s cs s' (bitsOf s.outReg) [cs[k].fifoData] ∧
          s'.Sending (c + 1) n r ∧ s'.outReg = cs[k].fifoData) ∨
        ((c + 1 < r ∧ cs[k].fifoValid = false ∨ c + 1 = r ∧ r = n) ∧ Sends s cs s' (bitsOf s.outReg) [] ∧
          s'.Padding (c + 1) n (c + 1)) ∨
        (c + 1 = r ∧ r < n ∧ Sends s cs s' (bitsOf s.outReg) [] ∧ s'.Padding c n (c + 1)) := by
  have hread := h.lt_read
  have hle := h.read_le
  have hword := sendData_word hcs hW h.state h.bitCnt hk
  have hwords : minusOne s.inRegCnt = n - 1 := h.inRegCnt ▸ minusOne_eq (by rw [h.inRegCnt]; omega)
  have hwanted : minusOne s.readLengthReg = r - 1 := h.readLengthReg ▸ minusOne_eq (by rw [h.readLengthReg]; omega)
  rw [h.wordCnt, hwords, hwanted] at hword
  have hcount : s.wordCnt + 1 = BitVec.ofNat W (c + 1) := succ_eq_ofNat h.wordCnt
  have hsucc : (s.wordCnt + 1).toNat = c + 1 :=
    toNat_succ h.wordCnt (show c < n by omega) (h.inRegCnt ▸ s.inRegCnt.isLt)
  by_cases hlast : c = n - 1
  · rw [if_pos hlast, if_neg fun h => h.1 hlast] at hword
    exact ⟨_, .inr (.inl ⟨.inr ⟨by omega, by omega⟩, hword, h.bitCnt, hcount, fun hlt => by omega, fun _ => rfl⟩)⟩
  · rw [if_neg hlast] at hword
    by_cases hend : c = r - 1
    · rw [if_pos hend, if_neg fun h => h.2.1 hend] at hword
      exact ⟨_, .inr (.inr ⟨by omega, by omega, hword, h.bitCnt, hcount,
        fun _ => ⟨rfl, h.wordCnt, h.inRegCnt⟩, fun hle => by omega⟩)⟩
    · rw [if_neg hend] at hword
      cases hv : cs[k].fifoValid with
      | true =>
        rw [if_pos hv, if_pos ⟨hlast, hend, hv⟩] at hword
        exact ⟨_, .inl ⟨by omega, rfl, hword, ⟨h.state, h.bitCnt, hsucc, h.inRegCnt, h.readLengthReg, by omega, hle⟩, rfl⟩⟩
      | false =>
        rw [hv, if_neg Bool.false_ne_true, if_neg fun h => Bool.false_ne_true h.2.2] at hword
        exact ⟨_, .inr (.inl ⟨.inl ⟨by omega, rfl⟩, hword, h.bitCnt, hcount,
          fun _ => ⟨rfl, hsucc, h.inRegCnt⟩, fun hle => by omega⟩)⟩

/-- From a word on that was taken, up to the count words: words of the FIFO as long as it has
any and they are wanted, then zeros. If the last wanted word is sent before the last word of
the scan then the machine is one word late. -/
theorem Sending.run {c n r : Nat} (h : s.Sending c n r) (hW : 0 < W) {ws : List (BitVec W)} (hlen : c + ws.length = n)
    (hcs : cs.map OutputIn.tap = ws.flatMap shiftWord) :
    ∃ s' ps, Sends s cs s' (bitsOf s.outReg ++ ps.flatMap bitsOf ++ zeros W (n - c - 1 - ps.length)) ps ∧
      c + ps.length < r ∧
      ((r = n ∨ ∃ j < r - c - 1, validAt cs j = false) → s'.Padding n n (c + 1 + ps.length)) ∧
      (¬(r = n ∨ ∃ j < r - c - 1, validAt cs j = false) → s'.Padding (n - 1) n r ∧ c + 1 + ps.length = r) := by
  have hread := h.lt_read
  have hle := h.read_le
  induction ws generalizing s cs c with
  | nil =>
    rw [List.length_nil] at hlen
    omega
  | cons w ws ih =>
    rw [List.length_cons] at hlen
    obtain ⟨c₁, c₂, rfl, hc₁, hc₂⟩ := List.map_eq_append_iff.mp hcs
    have hlen₁ := length_word hc₁
    have hn : W - 1 < c₁.length := by omega
    have hfirst : validAt (c₁ ++ c₂) 0 = c₁[W - 1].fifoValid := validAt_zero (by omega) c₂ hn
    have hrest : n - c - 1 = ws.length := by omega
    obtain ⟨s₁, ⟨hwant, hv, hsends, h₁, hout⟩ | ⟨hend, hsends, h₁⟩ | ⟨hend, hlt, hsends, h₁⟩⟩ := h.word (by omega) hc₁ hn
    · obtain ⟨s₂, ps, hsends₂, hps, hcase⟩ := ih h₁ (by omega) hc₂ h₁.lt_read
      refine ⟨s₂, c₁[W - 1].fifoData :: ps, ?_, ?_, ?_⟩
      · have := hsends.append hsends₂
        rw [hout] at this
        rw [List.length_cons, show n - c - 1 - (ps.length + 1) = n - (c + 1) - 1 - ps.length by omega]
        simpa using this
      · rw [List.length_cons]
        omega
      · have hvalid : (∃ j < r - c - 1, validAt (c₁ ++ c₂) j = false) ↔ ∃ j < r - (c + 1) - 1, validAt c₂ j = false := by
          constructor
          · rintro ⟨_ | j, hj, hjv⟩
            · rw [hfirst, hv] at hjv
              cases hjv
            · exact ⟨j, by omega, by rwa [validAt_succ hW c₂ hlen₁] at hjv⟩
          · rintro ⟨j, hj, hjv⟩
            exact ⟨j + 1, by omega, by rwa [validAt_succ hW c₂ hlen₁]⟩
        rw [hvalid, List.length_cons, show c + 1 + (ps.length + 1) = c + 1 + 1 + ps.length by omega]
        exact hcase
    · obtain ⟨s₂, hsends₂, h₂⟩ := h₁.run hW (by omega) hc₂
      refine ⟨s₂, [], ?_, by simpa using hread, ?_⟩
      · rw [List.length_nil, hrest, List.flatMap_nil, List.append_nil]
        exact hsends.append hsends₂
      · rw [show c + 1 + ws.length = n by omega] at h₂
        refine ⟨fun _ => h₂, fun hnot => absurd ?_ hnot⟩
        rcases hend with ⟨hwant, hv⟩ | ⟨-, hrn⟩
        · exact .inr ⟨0, by omega, hfirst.trans hv⟩
        · exact .inl hrn
    · obtain ⟨s₂, hsends₂, h₂⟩ := h₁.run hW (by omega) hc₂
      refine ⟨s₂, [], ?_, by simpa using hread, ?_⟩
      · rw [List.length_nil, hrest, List.flatMap_nil, List.append_nil]
        exact hsends.append hsends₂
      · rw [show c + ws.length = n - 1 by omega, hend] at h₂
        refine ⟨?_, fun _ => ⟨h₂, hend⟩⟩
        rintro (hrn | ⟨j, hj, -⟩) <;> omega

end OutputFsm
end Glip.Jtag
